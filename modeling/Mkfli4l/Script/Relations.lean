import Mkfli4l.Script.Services

/-!
# Comparisons in check scripts

`cond_relop` compares two operands of a check script.  How it compares them depends on the kinds of both
operands: as texts, as numbers or as versions.  An identifier that is compared as a number has to be a
numeric one.

The check of the right identifier looks at the left operand.  So a comparison and its mirror image may come
out differently, and `condRelop_mirror_iff` says exactly when they do not.
-/

namespace Mkfli4l
namespace Script

open Lib

/-! ## The parse tree -/

/-- The operators of `numeric_op`. -/
inductive NumOp
  | add
  | sub
  | mult
  | div
  | mod
deriving DecidableEq

mutual

/-- The operands of a comparison that the grammar admits, as `elem_t`. -/
inductive Elem
  | id (val : CString)
  | idset (set : IdSet)
  | string (val : CString)
  | num (val : CString)
  | ver (val : CString)
  | numeric (op : NumOp) (left right : Elem)
  | orElse (left right : Elem)
  | cast (left : Elem) (type : CString)

/-- The nodes `IDSET`, with a leaf or with a node of the same kind in front of the index. -/
inductive IdSet
  | leaf (val : CString) (index : Elem)
  | node (set : IdSet) (index : Elem)

end

/-- What the functions ask about the instance of a variable. -/
structure InstanceInfo where
  isUnsignedInteger : Bool
  optional : Bool

/-- What `cast_op` asks about a type. -/
structure TypeInfo where
  isMatch : CString → Bool
  isInteger : Bool

/-- The variables and types of the program, as the scripts see them: `get_variable`,
`try_get_variable`, `get_variable_package`, `get_variable_comment`,
`var_instance_create_from_string` in the global scope, `is_var_weak`, `get_variable_src` and
`vartype_get`. -/
structure Env where
  getVariable : CString → Option CString
  tryGetVariable : CString → Option CString
  getVariablePackage : CString → Option CString
  getVariableComment : CString → Option CString
  instanceOf : CString → Option InstanceInfo
  isVarWeak : CString → Bool
  getVariableSrc : CString → CString
  vartypeGet : CString → Option TypeInfo

/-- The calls of `fatal_exit`. -/
inductive Fatal
  | invalidNumber (val : CString)
  | nameTooLong (name : CString)
  | messageTooLong
  | nonNumericIndex
  | invalidArgumentType
  | unknownVariable (name : CString)
  | weakNotNumeric (name : CString)
  | notNumeric (name location : CString)
  | nonNumericOperand
  | divideByZero
  | unexpectedArgument
  | castToInvalidType (type : CString)
  | castFailed (value type : CString)
  | shortVersion
  | versionAndNumber
  | unknownArguments
deriving DecidableEq

/-- `ARG_STRING`, `ARG_NUM`, `ARG_VER` and `ARG_ID`. -/
structure ArgType where
  string : Bool
  num : Bool
  ver : Bool
  id : Bool
deriving DecidableEq

/-- The bits of both types. -/
def ArgType.union (s t : ArgType) : ArgType :=
  ⟨s.string || t.string, s.num || t.num, s.ver || t.ver, s.id || t.id⟩

/-- No bit. -/
def ArgType.none : ArgType := ⟨false, false, false, false⟩

/-! ## Texts and numbers -/

def varSize : ℕ := 128

/-- `strtoul (s, &rest, base)` for base 10 or 16: the value and the text from the end pointer on. -/
def strtoul (base : ℕ) (s : CString) : ℕ × CString :=
  let signed := takeSign (s.dropWhile isSpaceC)
  let body :=
    match signed.2 with
    | '0' :: x :: c :: rest =>
        if base = 16 && (x == 'x' || x == 'X') && isDigitOf 16 c then c :: rest else signed.2
    | body => body
  let digits := body.takeWhile (isDigitOf base)
  if digits = [] then (0, s)
  else
    let magnitude := digitsValue base digits
    let value :=
      if 18446744073709551616 ≤ magnitude then 18446744073709551615
      else if signed.1 then (18446744073709551616 - magnitude) % 18446744073709551616
      else magnitude
    (value, body.dropWhile (isDigitOf base))

def convertToLong (val : CString) : Except Fatal ℕ :=
  let res := if ['0', 'x'] <+: val then strtoul 16 val else strtoul 10 val
  if res.2 = [] then .ok res.1 else .error (.invalidNumber val)

/-- `get_set_var_name_int`: the first `%` becomes the index. -/
def getSetVarNameInt (s : CString) (index : ℤ) : Except Fatal CString :=
  if varSize ≤ s.length then .error (.nameTooLong s)
  else
    let name :=
      if '%' ∈ s then
        s.takeWhile (· ≠ '%') ++ formatInt index ++ (s.dropWhile (· ≠ '%')).drop 1
      else s
    if varSize ≤ name.length then .error (.nameTooLong name) else .ok name

def getSetVarNameString (s index : CString) : Except Fatal CString := do
  let index ← convertToLong index
  getSetVarNameInt s (toInt32 index)

section Model

variable (env : Env)

def isVarNumeric (name : CString) : Bool :=
  match env.instanceOf (convertToUpper name) with
  | none => false
  | some inst => inst.isUnsignedInteger

def parseGetVariable (name : CString) : Option CString := env.getVariable (convertToUpper name)

/-- The value for a name behind `$`, `%` or `@` in a string. -/
def lookupPrefixed (mark : Char) (name : CString) : Option CString :=
  if mark = '$' then parseGetVariable env name
  else if mark = '%' then env.getVariablePackage (convertToUpper name)
  else env.getVariableComment (convertToUpper name)

/-- The loop of `parse_rewrite_string`.  A round uses up at least one character, so that the length of the
text is enough rounds. -/
def rewriteLoop : ℕ → CString → Except Fatal CString
  | 0, _ => .ok []
  | _ + 1, [] => .ok []
  | rounds + 1, c :: msg =>
      if c = '$' ∨ c = '%' ∨ c = '@' then
        match msg with
        | '{' :: rest => do
            let name := rest.takeWhile fun d => d.isAlphanum || d == '_'
            if varSize ≤ name.length then throw (.nameTooLong name)
            let tail ← rewriteLoop rounds ((rest.dropWhile fun d => d.isAlphanum || d == '_').drop 1)
            pure ((lookupPrefixed env c name).getD [] ++ tail)
        | d :: rest =>
            if d.isAlpha then do
              let name := msg.takeWhile fun d => d.isAlphanum || d == '_'
              if varSize ≤ name.length then throw (.nameTooLong name)
              let tail ← rewriteLoop rounds (msg.dropWhile fun d => d.isAlphanum || d == '_')
              pure ((lookupPrefixed env c name).getD [] ++ tail)
            else if d = '$' ∨ d = '%' ∨ d = '@' then do
              -- a doubled mark stands for itself
              let tail ← rewriteLoop rounds rest
              pure (d :: tail)
            else do
              let tail ← rewriteLoop rounds msg
              pure (c :: tail)
        | [] => .ok [c]
      else do
        let tail ← rewriteLoop rounds msg
        pure (c :: tail)

def parseRewriteString (msg : CString) : Except Fatal CString := do
  let msgBuf ← rewriteLoop env msg.length msg
  if 8192 ≤ msgBuf.length then throw .messageTooLong
  pure msgBuf

/-- The result of an operator on two `unsigned long`. -/
def NumOp.apply : NumOp → ℕ → ℕ → Except Fatal ℕ
  | .add, x, y => .ok ((x + y) % 18446744073709551616)
  | .sub, x, y => .ok ((x + (18446744073709551616 - y)) % 18446744073709551616)
  | .mult, x, y => .ok (x * y % 18446744073709551616)
  | .div, x, y => if y = 0 then .error .divideByZero else .ok (x / y)
  | .mod, x, y => if y = 0 then .error .divideByZero else .ok (x % y)

/-- The end of `elem_get_arg`, for an identifier. -/
def nameGetArg (name : CString) : Except Fatal (CString × ArgType) :=
  match parseGetVariable env name with
  | some ret =>
      if isVarNumeric env name then .ok (ret, { ArgType.none with id := true, num := true })
      else .ok (ret, { ArgType.none with id := true, string := true })
  | none =>
      match env.instanceOf name with
      | none => .error (.unknownVariable name)
      | some inst =>
          if inst.optional = false then .error (.unknownVariable name)
          else if inst.isUnsignedInteger then
            .ok (['0'], { ArgType.none with id := true, num := true })
          else .ok ([], { ArgType.none with id := true, string := true })

mutual

def elemGetSetNameType : IdSet → Except Fatal (CString × ArgType)
  | .leaf val index => do
      let (index, t) ← elemGetArg index
      if t.num = false then throw .nonNumericIndex
      let ret ← getSetVarNameString val index
      pure (ret, { ArgType.none with id := true, num := isVarNumeric env ret })
  | .node set index => do
      let (index, t) ← elemGetArg index
      if t.num = false then throw .nonNumericIndex
      let (setVar, type) ← elemGetSetNameType set
      let ret ← getSetVarNameString setVar index
      pure (ret, type)

def elemGetNameType : Elem → Except Fatal (CString × ArgType)
  | .id val => .ok (val, { ArgType.none with id := true, num := isVarNumeric env val })
  | .string val => do
      let ret ← parseRewriteString env val
      pure (ret, ArgType.none)
  | .idset set => elemGetSetNameType set
  | _ => .error .invalidArgumentType

def elemGetArg : Elem → Except Fatal (CString × ArgType)
  | .string val => do
      let ret ← parseRewriteString env val
      pure (ret, { ArgType.none with string := true })
  | .num val => .ok (val, { ArgType.none with num := true })
  | .ver val => .ok (val, { ArgType.none with ver := true })
  | .id val => nameGetArg env val
  | .idset set => do
      let (name, _) ← elemGetSetNameType set
      nameGetArg env name
  | .numeric op left right => do
      let (x, s) ← elemGetArg left
      if s.num = false then throw .nonNumericOperand
      let x ← convertToLong x
      let (y, t) ← elemGetArg right
      if t.num = false then throw .nonNumericOperand
      let y ← convertToLong y
      let res ← op.apply x y
      pure (Nat.toDigits 10 res, { ArgType.none with num := true })
  | .orElse left right =>
      match left with
      | .id _ | .idset _ => do
          let (name, leftType) ← elemGetNameType left
          match env.tryGetVariable name with
          | some value => pure (value, leftType)
          | none => elemGetArg right
      | _ => .error .unexpectedArgument
  | .cast left type => do
      let (value, t) ← elemGetArg left
      match env.vartypeGet (convertToUpper type) with
      | none => throw (.castToInvalidType type)
      | some rightType =>
          if rightType.isMatch value then
            if rightType.isInteger then pure (value, { t with string := false, num := true })
            else pure (value, { ArgType.none with string := true })
          else throw (.castFailed value type)

end

def assertNumeric (p : Elem) : Except Fatal Unit := do
  let (name, type) ← elemGetNameType env p
  if type.num then pure ()
  else if env.isVarWeak name then throw (.weakNotNumeric name)
  else throw (.notNumeric name (env.getVariableSrc name))

/-! ## Comparing -/

def strcmp (s t : CString) : Ordering := compare (s.map Char.toNat) (t.map Char.toNat)

def valNumcmp (val num : CString) : Except Fatal Ordering := do
  let x ← convertToLong val
  let y ← convertToLong num
  pure (compare x y)

/-- `get_ver_num`.  The sum is one of `unsigned long`, and the result an `int`. -/
def getVerNum (ver : CString) : Except Fatal ℤ :=
  match ver with
  | major :: _ :: minor :: rest => do
      let sub ← if rest = [] then pure 0 else convertToLong (rest.drop 1)
      pure (toInt32 (sub + ((minor.toNat : ℤ) - 48) * 1000 + ((major.toNat : ℤ) - 48) * 10000))
  | _ => .error .shortVersion

def valVercmp (val version : CString) : Except Fatal Ordering := do
  let x ← getVerNum val
  let y ← getVerNum version
  pure (compare x y)

/-- The relational operators. -/
inductive Relop
  | equal
  | notEqual
  | less
  | greater
  | ge
  | le
deriving DecidableEq

/-- The truth value of a comparison, from `cmpret`. -/
def Relop.holds : Relop → Ordering → Bool
  | .equal, cmpret => cmpret = .eq
  | .notEqual, cmpret => cmpret ≠ .eq
  | .less, cmpret => cmpret = .lt
  | .greater, cmpret => cmpret = .gt
  | .ge, cmpret => cmpret ≠ .lt
  | .le, cmpret => cmpret ≠ .gt

/-- The operator with its sides exchanged. -/
def Relop.mirror : Relop → Relop
  | .equal => .equal
  | .notEqual => .notEqual
  | .less => .greater
  | .greater => .less
  | .ge => .le
  | .le => .ge

/-- The comparison of two values, with the checks before it. -/
def compareArgs (l : Elem) (left right : CString × ArgType) : Except Fatal Ordering :=
  let argTypes := left.2.union right.2
  match argTypes.string, argTypes.num, argTypes.ver with
  | true, false, false => pure (strcmp left.1 right.1)
  | true, true, false => do
      if left.2.id then assertNumeric env l
      -- this looks at the left operand again
      if right.2.id then assertNumeric env l
      valNumcmp left.1 right.1
  | false, true, false => valNumcmp left.1 right.1
  | _, false, true => valVercmp left.1 right.1
  | false, true, true => throw .versionAndNumber
  | _, _, _ => throw .unknownArguments

def condRelop (op : Relop) (l r : Elem) : Except Fatal Bool := do
  let left ← elemGetArg env l
  let right ← elemGetArg env r
  let cmpret ← compareArgs env l left right
  pure (op.holds cmpret)

end Model

/-! ## Mirror images -/

section Mirror

variable {env : Env}

/-- Does `assert_numeric` accept the operand? -/
def isNumericId (env : Env) (p : Elem) : Bool :=
  match elemGetNameType env p with
  | .ok (_, type) => type.num
  | .error _ => false

/-- Does `convert_to_long` accept the value? -/
def isNumber (val : CString) : Bool := (convertToLong val).toOption.isSome

/-- A text is compared with a number. -/
def ArgType.textAndNumber (t : ArgType) : Bool := t.string && t.num && !t.ver

/-- `x` is a numeric identifier and `y` is none, they are compared as numbers although one of them is a
text, and both values are numbers. -/
structure Clash (env : Env) (x y : Elem) : Prop where
  numeric : isNumericId env x = true
  notNumeric : isNumericId env y = false
  mixed : ∃ left right, elemGetArg env x = .ok left ∧ elemGetArg env y = .ok right ∧
    (left.2.union right.2).textAndNumber = true ∧ isNumber left.1 = true ∧ isNumber right.1 = true

theorem ArgType.union_comm (s t : ArgType) : s.union t = t.union s := by
  simp only [ArgType.union, Bool.or_comm]

theorem assertNumeric_toOption (p : Elem) :
    (assertNumeric env p).toOption = if isNumericId env p then some () else none := by
  unfold assertNumeric isNumericId
  cases elemGetNameType env p with
  | error e => rfl
  | ok named =>
      obtain ⟨name, type⟩ := named
      show (if type.num = true then (pure () : Except Fatal Unit)
        else if env.isVarWeak name = true then throw (.weakNotNumeric name)
        else throw (.notNumeric name (env.getVariableSrc name))).toOption =
          if type.num = true then some () else none
      by_cases hnum : type.num = true
      · rw [if_pos hnum, if_pos hnum]
        rfl
      · rw [if_neg hnum, if_neg hnum]
        split <;> rfl

theorem id_of_isNumericId {p : Elem} {arg : CString × ArgType} (h : isNumericId env p = true)
    (harg : elemGetArg env p = .ok arg) : arg.2.id = true := by
  have hname (name : CString) (h : nameGetArg env name = .ok arg) : arg.2.id = true := by
    unfold nameGetArg at h
    split at h
    · split at h <;> cases h <;> rfl
    · split at h
      · cases h
      · split at h
        · cases h
        · split at h <;> cases h <;> rfl
  cases p with
  | id val =>
      rw [elemGetArg] at harg
      exact hname val harg
  | idset set =>
      rw [elemGetArg] at harg
      cases hset : elemGetSetNameType env set with
      | error e =>
          rw [hset] at harg
          cases harg
      | ok named =>
          rw [hset] at harg
          exact hname named.1 harg
  | string val =>
      unfold isNumericId elemGetNameType at h
      cases hmsg : parseRewriteString env val with
      | error e => simp [hmsg, bind, Except.bind] at h
      | ok ret => simp [hmsg, bind, Except.bind, pure, Except.pure, ArgType.none] at h
  | num val => simp [isNumericId, elemGetNameType] at h
  | ver val => simp [isNumericId, elemGetNameType] at h
  | numeric op left right => simp [isNumericId, elemGetNameType] at h
  | orElse left right => simp [isNumericId, elemGetNameType] at h
  | cast left type => simp [isNumericId, elemGetNameType] at h

theorem Relop.mirror_holds (op : Relop) (c : Ordering) : op.mirror.holds c.swap = op.holds c := by
  cases op <;> cases c <;> rfl

theorem Relop.mirror_mirror (op : Relop) : op.mirror.mirror = op := by
  cases op <;> rfl

theorem strcmp_swap (s t : CString) : strcmp t s = (strcmp s t).swap := by
  unfold strcmp
  exact Std.OrientedCmp.eq_swap

theorem valNumcmp_swap (x y : CString) :
    (valNumcmp y x).toOption = (valNumcmp x y).toOption.map Ordering.swap := by
  unfold valNumcmp
  cases convertToLong x with
  | error e => cases convertToLong y <;> rfl
  | ok m =>
      cases convertToLong y with
      | error e => rfl
      | ok n =>
          show some (compare n m) = some (compare m n).swap
          rw [Nat.compare_swap]

theorem valVercmp_swap (x y : CString) :
    (valVercmp y x).toOption = (valVercmp x y).toOption.map Ordering.swap := by
  unfold valVercmp
  cases getVerNum x with
  | error e => cases getVerNum y <;> rfl
  | ok m =>
      cases getVerNum y with
      | error e => rfl
      | ok n =>
          show some (compare n m) = some (compare m n).swap
          rw [← Std.OrientedCmp.eq_swap]

theorem isSome_valNumcmp (x y : CString) :
    (valNumcmp x y).toOption.isSome = (isNumber x && isNumber y) := by
  unfold valNumcmp isNumber
  cases convertToLong x with
  | error e => cases convertToLong y <;> rfl
  | ok m => cases convertToLong y <;> rfl

theorem compareArgs_textAndNumber (l : Elem) (left right : CString × ArgType)
    (h : (left.2.union right.2).textAndNumber = true) :
    (compareArgs env l left right).toOption =
      if (left.2.id || right.2.id) && !isNumericId env l then none
      else (valNumcmp left.1 right.1).toOption := by
  simp only [ArgType.textAndNumber, Bool.and_eq_true, Bool.not_eq_true'] at h
  obtain ⟨⟨hstring, hnum⟩, hver⟩ := h
  have hassert : (assertNumeric env l).toOption = if isNumericId env l then some () else none :=
    assertNumeric_toOption l
  unfold compareArgs
  simp only [hstring, hnum, hver]
  cases hnumeric : isNumericId env l with
  | true =>
      have hok : assertNumeric env l = .ok () := by
        rw [hnumeric] at hassert
        cases hresult : assertNumeric env l with
        | error e => simp [hresult, Except.toOption] at hassert
        | ok u => rfl
      rw [hok]
      cases left.2.id <;> cases right.2.id <;> rfl
  | false =>
      obtain ⟨e, hfatal⟩ : ∃ e, assertNumeric env l = .error e := by
        rw [hnumeric] at hassert
        cases hresult : assertNumeric env l with
        | error e => exact ⟨e, rfl⟩
        | ok u => simp [hresult, Except.toOption] at hassert
      rw [hfatal]
      cases left.2.id <;> cases right.2.id <;> rfl

theorem compareArgs_swap (l r : Elem) (left right : CString × ArgType)
    (h : (left.2.union right.2).textAndNumber = false) :
    (compareArgs env r right left).toOption =
      (compareArgs env l left right).toOption.map Ordering.swap := by
  unfold compareArgs
  rw [ArgType.union_comm right.2 left.2]
  generalize left.2.union right.2 = t at h
  obtain ⟨string, num, ver, id⟩ := t
  cases string <;> cases num <;> cases ver
  case true.false.false =>
    show some (strcmp right.1 left.1) = some (strcmp left.1 right.1).swap
    rw [strcmp_swap]
  case false.true.false => exact valNumcmp_swap left.1 right.1
  case true.false.true => exact valVercmp_swap left.1 right.1
  case false.false.true => exact valVercmp_swap left.1 right.1
  case true.true.false => simp [ArgType.textAndNumber] at h
  all_goals rfl

variable {l r : Elem} {left right : CString × ArgType}

theorem condRelop_toOption (op : Relop)
    (hl : elemGetArg env l = .ok left) (hr : elemGetArg env r = .ok right) :
    (condRelop env op l r).toOption = (compareArgs env l left right).toOption.map op.holds := by
  unfold condRelop
  rw [hl, hr]
  show ((compareArgs env l left right) >>= fun cmpret => pure (op.holds cmpret)).toOption = _
  cases compareArgs env l left right <;> rfl

theorem clash_iff (hl : elemGetArg env l = .ok left) (hr : elemGetArg env r = .ok right)
    (htext : (left.2.union right.2).textAndNumber = true) :
    Clash env l r ↔ isNumericId env l = true ∧ isNumericId env r = false ∧
      (valNumcmp left.1 right.1).toOption.isSome = true := by
  rw [isSome_valNumcmp, Bool.and_eq_true]
  constructor
  · rintro ⟨hnumeric, hnot, left', right', hl', hr', -, hleft, hright⟩
    rw [hl, Except.ok.injEq] at hl'
    rw [hr, Except.ok.injEq] at hr'
    rw [hl', hr']
    exact ⟨hnumeric, hnot, hleft, hright⟩
  · rintro ⟨hnumeric, hnot, hleft, hright⟩
    exact ⟨hnumeric, hnot, left, right, hl, hr, htext, hleft, hright⟩

theorem not_clash_of_textAndNumber
    (hl : elemGetArg env l = .ok left) (hr : elemGetArg env r = .ok right)
    (htext : (left.2.union right.2).textAndNumber = false) : ¬ Clash env l r := by
  rintro ⟨-, -, left', right', hl', hr', htext', -⟩
  rw [hl, Except.ok.injEq] at hl'
  rw [hr, Except.ok.injEq] at hr'
  rw [← hl', ← hr', htext] at htext'
  contradiction

theorem condRelop_same_numeric (op : Relop)
    (hl : elemGetArg env l = .ok left) (hr : elemGetArg env r = .ok right)
    (htext : (left.2.union right.2).textAndNumber = true)
    (hsame : isNumericId env l = isNumericId env r) :
    (condRelop env op.mirror r l).toOption = (condRelop env op l r).toOption := by
  have htext' : (right.2.union left.2).textAndNumber = true := by
    rw [ArgType.union_comm]
    exact htext
  rw [condRelop_toOption op hl hr, condRelop_toOption op.mirror hr hl,
    compareArgs_textAndNumber l left right htext, compareArgs_textAndNumber r right left htext',
    hsame, Bool.or_comm right.2.id left.2.id, valNumcmp_swap left.1 right.1]
  split
  · rfl
  · rw [Option.map_map]
    congr 1
    funext c
    exact op.mirror_holds c

theorem condRelop_one_numeric (op : Relop)
    (hl : elemGetArg env l = .ok left) (hr : elemGetArg env r = .ok right)
    (htext : (left.2.union right.2).textAndNumber = true)
    (hnumeric : isNumericId env l = true) (hnot : isNumericId env r = false) :
    (condRelop env op.mirror r l).toOption = none ∧
      (condRelop env op l r).toOption = (valNumcmp left.1 right.1).toOption.map op.holds := by
  have hid := id_of_isNumericId hnumeric hl
  have htext' : (right.2.union left.2).textAndNumber = true := by
    rw [ArgType.union_comm]
    exact htext
  rw [condRelop_toOption op hl hr, condRelop_toOption op.mirror hr hl,
    compareArgs_textAndNumber l left right htext, compareArgs_textAndNumber r right left htext',
    hnumeric, hnot, hid]
  simp

theorem condRelop_without_value (op : Relop)
    (h : ∀ left right, elemGetArg env l = .ok left → elemGetArg env r ≠ .ok right) :
    (condRelop env op l r).toOption = none ∧ ¬ Clash env l r := by
  constructor
  · unfold condRelop
    cases hl : elemGetArg env l with
    | error e => rfl
    | ok left =>
        cases hr : elemGetArg env r with
        | error e => rfl
        | ok right => exact absurd hr (h left right hl)
  · rintro ⟨-, -, left, right, hl, hr, -⟩
    exact h left right hl hr

/-- A comparison and its mirror image have the same outcome if and only if the operands do not clash. -/
theorem condRelop_mirror_iff (env : Env) (op : Relop) (l r : Elem) :
    (condRelop env op.mirror r l).toOption = (condRelop env op l r).toOption ↔
      ¬ Clash env l r ∧ ¬ Clash env r l := by
  by_cases hvalues : ∃ left right, elemGetArg env l = .ok left ∧ elemGetArg env r = .ok right
  · obtain ⟨left, right, hl, hr⟩ := hvalues
    have hcomm := ArgType.union_comm right.2 left.2
    cases htext : (left.2.union right.2).textAndNumber with
    | false =>
        have hlr := not_clash_of_textAndNumber hl hr htext
        have hrl := not_clash_of_textAndNumber hr hl (by rw [hcomm, htext])
        rw [condRelop_toOption op hl hr, condRelop_toOption op.mirror hr hl,
          compareArgs_swap l r left right htext, Option.map_map]
        have hholds : op.mirror.holds ∘ Ordering.swap = op.holds :=
          funext fun c => op.mirror_holds c
        simp [hholds, hlr, hrl]
    | true =>
        have htext' : (right.2.union left.2).textAndNumber = true := by rw [hcomm, htext]
        rw [clash_iff hl hr htext, clash_iff hr hl htext']
        by_cases hsame : isNumericId env l = isNumericId env r
        · have houtcome := condRelop_same_numeric op hl hr htext hsame
          rw [houtcome, hsame]
          cases isNumericId env r <;> simp
        · cases hnl : isNumericId env l with
          | true =>
              have hnr : isNumericId env r = false := by
                simpa [hnl] using Ne.symm hsame
              obtain ⟨hrl, hlr⟩ := condRelop_one_numeric op hl hr htext hnl hnr
              rw [hrl, hlr, hnr]
              cases (valNumcmp left.1 right.1).toOption <;> simp
          | false =>
              have hnr : isNumericId env r = true := by
                simpa [hnl] using Ne.symm hsame
              obtain ⟨hlr, hrl⟩ := condRelop_one_numeric op.mirror hr hl htext' hnr hnl
              rw [op.mirror_mirror] at hlr
              rw [hrl, hlr, hnr]
              cases (valNumcmp right.1 left.1).toOption <;> simp
  · have hlr : ∀ left right, elemGetArg env l = .ok left → elemGetArg env r ≠ .ok right :=
      fun left right hl hr => hvalues ⟨left, right, hl, hr⟩
    have hrl : ∀ right left, elemGetArg env r = .ok right → elemGetArg env l ≠ .ok left :=
      fun right left hr hl => hvalues ⟨left, right, hl, hr⟩
    obtain ⟨hnone, hclash⟩ := condRelop_without_value op hlr
    obtain ⟨hnone', hclash'⟩ := condRelop_without_value op.mirror hrl
    rw [hnone, hnone']
    exact ⟨fun _ => ⟨hclash, hclash'⟩, fun _ => rfl⟩

/-- A variable `X` of the type `NUMERIC` and a variable `Y` of another type, both with the value 1. -/
def oneNumeric : Env where
  getVariable := fun _ => some ['1']
  tryGetVariable := fun _ => some ['1']
  getVariablePackage := fun _ => none
  getVariableComment := fun _ => none
  instanceOf := fun name => some ⟨name = ['X'], false⟩
  isVarWeak := fun _ => false
  getVariableSrc := fun _ => []
  vartypeGet := fun _ => none

/-- `X == Y` is true, and `Y == X` is rejected. -/
theorem condRelop_mirror_broken :
    ¬ ∀ (env : Env) (op : Relop) (l r : Elem),
      (condRelop env op.mirror r l).toOption = (condRelop env op l r).toOption := by
  intro h
  have hxy : (condRelop oneNumeric .equal (.id ['X']) (.id ['Y'])).toOption = some true := by
    rfl
  have hyx : (condRelop oneNumeric .equal (.id ['Y']) (.id ['X'])).toOption = none := by
    rfl
  have hmirror := h oneNumeric .equal (.id ['X']) (.id ['Y'])
  rw [hxy] at hmirror
  exact Option.some_ne_none true (hmirror.symm.trans hyx)

theorem condRelop_nonNumeric_num (op : Relop) {p : Elem} {arg : CString × ArgType} (val : CString)
    (harg : elemGetArg env p = .ok arg) (hid : arg.2.id = true) (hstring : arg.2.string = true)
    (hver : arg.2.ver = false) (hnot : isNumericId env p = false) :
    (condRelop env op p (.num val)).toOption = none ∧
      (condRelop env op (.num val) p).toOption = none := by
  have hnum : elemGetArg env (.num val) = .ok (val, { ArgType.none with num := true }) := by
    rw [elemGetArg]
  have hnumeric : isNumericId env (.num val) = false := by
    simp [isNumericId, elemGetNameType]
  have htext (t : ArgType) (ht : t.string = true) (hv : t.ver = false) :
      (t.union { ArgType.none with num := true }).textAndNumber = true := by
    simp [ArgType.union, ArgType.textAndNumber, ArgType.none, ht, hv]
  constructor
  · rw [condRelop_toOption op harg hnum,
      compareArgs_textAndNumber p arg _ (htext arg.2 hstring hver), hid, hnot]
    rfl
  · rw [condRelop_toOption op hnum harg, compareArgs_textAndNumber (.num val) _ arg
      (by rw [ArgType.union_comm]; exact htext arg.2 hstring hver), hid, hnumeric]
    simp

end Mirror

end Script
end Mkfli4l
