import Mathlib
import Mkfli4l.Var.TransientArray
import Mkfli4l.Var.LateArrays
import Mkfli4l.Var.NestedScopes

/-!
# Statements that produce arrays

The statements of check scripts that leave their results in an array (`libmkfli4l/tree.c`,
`libmkfli4l/parse.c`): `split`, `set` with an index, `=~` and `fgrep`.  They all work on weak
declarations of the global scope (`check_add_weak_declaration`, `libmkfli4l/check.c`), which they clear
or replace and then fill from the first element on.

The module also tells what such statements leave behind: whatever has been done to an array by them,
its bound and its elements can be overwritten by the next one (`ScriptArray`).
-/

namespace Mkfli4l

open Lib Exec

/-! ### The store as scripts see it -/

/-- The properties that `var_properties_create` begins with. -/
def scriptProps : VarProperties where
  optional := false
  weak := false
  condition := exprTrue
  defValue := none
  disValue := none

def varComputeDefaultValue (D : Defs) (lookup : CString → Option VarId) (var : Var) : Option Expr :=
  var.props.defValue.bind fun e =>
    (exprResolveVariableExpressions D lookup e).bind fun e =>
      if exprTypecheckExpression e = true then some e else none

/-- `regmatch_t`: where the text of a group begins and ends. -/
structure Regmatch where
  so : ℤ
  eo : ℤ
deriving DecidableEq, Repr

/-- The offsets of a group that takes no part in a match. -/
def Regmatch.none : Regmatch := ⟨-1, -1⟩

/-- Does the group take part in the match? -/
def Regmatch.participates (m : Regmatch) : Bool := m.so != -1

/-- The text of a group. -/
def Regmatch.text (m : Regmatch) (value : CString) : CString :=
  (value.drop m.so.toNat).take (m.eo - m.so).toNat

/-- The outcome of `regexp_user`, and of compiling and matching a regular expression, which gives the
offsets of the whole match and of all groups. -/
inductive RegexpResult
  | compileError
  | notMatched
  | matched (groups : List Regmatch)
deriving DecidableEq, Repr

/-- What POSIX says about the offsets: the whole match comes first, and groups lie inside the value. -/
def PosixOffsets (value : CString) (groups : List Regmatch) : Prop :=
  (∃ whole rest, groups = whole :: rest ∧ whole.participates = true) ∧
    ∀ m ∈ groups, m.participates = true → 0 ≤ m.so ∧ m.so ≤ m.eo ∧ m.eo ≤ value.length

/-- What scripts depend on: the definitions that belong to a graph, with the conditions and default
values that are computed from it, the predefined type that is matched by any value, the regular
expressions of the C library, and the depth of the call stack. -/
structure ScriptEnv where
  graphEnv : GraphEnv
  types : TypeSystem
  lookup : Graph → CString → Option VarId
  defs : Graph → Defs
  anything : VarTypeId
  regexec : CString → CString → RegexpResult
  room : ℕ
  defs_types : ∀ g, (defs g).types = types
  describes : ∀ g, g.Valid graphEnv → (defs g).Describes graphEnv g
  conditions : ∀ g, g.Valid graphEnv → ComputesConditions (defs g) (lookup g)
  defaults : ∀ g, g.Valid graphEnv → ∀ v var, g.vars v = some var →
    (defs g).defValue v = varComputeDefaultValue (defs g) (lookup g) var
  anything_matches : ∀ text, types.vartypeMatch anything text = true
  posix : ∀ expr value groups, regexec expr value = .matched groups → PosixOffsets value groups

/-- The functions that are called while there is room for three nested calls. -/
def ScriptEnv.callees (E : ScriptEnv) (g : Graph) : Callees := calls (E.defs g) (E.room + 3)

/-- The ways in which a statement fails to come back. -/
inductive Abort
  | fatalExit
  | fault (fault : Fault)
deriving DecidableEq, Repr

/-- Computations on a store. -/
abbrev ScriptExec (α : Type) := Exec Abort Store α

/-- A call that reads or writes values. -/
def onSlots {α : Type} (E : ScriptEnv) (x : Defs → Callees → SlotExec α) : ScriptExec α := fun st =>
  match x (E.defs st.graph) (E.callees st.graph) st.slots with
  | .ok (a, s) => .ok (a, ⟨st.graph, s⟩)
  | .error fault => .error (.fault fault)

/-- A call that changes the definitions. -/
def onGraph {α : Type} (change : Graph → α × Graph) : ScriptExec α := fun st =>
  .ok ((change st.graph).1, ⟨(change st.graph).2, st.slots.initFrom st.graph.nextId⟩)

/-- The type of a weak declaration: `TYPE_NUMERIC` or `TYPE_UNKNOWN`. -/
def ScriptEnv.scriptType (E : ScriptEnv) (numeric : Bool) : VarTypeId :=
  if numeric then E.graphEnv.arrayBoundType else E.anything

/-- The part of `check_add_weak_declaration` that defines the variable. -/
def addDeclaration (E : ScriptEnv) (upperName : CString) (numeric : Bool) : ScriptExec (Option VarId) :=
  onGraph (varAddWithArrayBound E.graphEnv
    ⟨upperName, E.scriptType numeric, .scriptTransient, scriptProps⟩ none)

def checkAddWeakDeclaration (E : ScriptEnv) (name : CString) (numeric remove : Bool) :
    ScriptExec (Option VarId) := do
  let upperName := name.map Char.toUpper
  let found ← onGraph (varTryGet E.graphEnv upperName)
  match found with
  | none => addDeclaration E upperName numeric
  | some v => do
      -- nobody looks at whether the array has been cleared
      let _ ← onSlots E fun D c => varInstanceClear D c ⟨v, []⟩ .weak .scriptTransient
      if remove then do
        let st ← get
        match st.graph.vars v with
        | none => throw (.fault .nullPointer)
        | some var =>
            if var.priority = .scriptTransient then do
              onGraph fun g => ((), varRemove g v)
              addDeclaration E upperName numeric
            else pure none
      else pure (some v)

/-! ### The statements -/

/-- One round of the loop of `split`: the text in front of the next delimiter, and what is left of the
string.  A blank stands for white space, all of which is skipped. -/
def splitOff (c : Char) (p : CString) : CString × CString :=
  if c = ' ' then
    (p.takeWhile fun a => !isSpaceC a, (p.dropWhile fun a => !isSpaceC a).dropWhile isSpaceC)
  else (p.takeWhile fun a => a != c, (p.dropWhile fun a => a != c).drop 1)

theorem splitOff_shorter (c a : Char) (p : CString) :
    (splitOff c (a :: p)).2.length < (a :: p).length := by
  have hdrop : ∀ (q : Char → Bool) (l : CString), (l.dropWhile q).length ≤ l.length :=
    fun q l => (List.dropWhile_sublist q).length_le
  unfold splitOff
  split
  · by_cases ha : isSpaceC a = true
    · have hle := hdrop isSpaceC p
      simpa [List.dropWhile_cons, ha] using Nat.lt_succ_of_le hle
    · have hle := hdrop isSpaceC (p.dropWhile fun a => !isSpaceC a)
      have hle' := hdrop (fun a => !isSpaceC a) p
      simp only [List.dropWhile_cons, ha, Bool.not_false, if_true, List.length_cons]
      omega
  · have hle := hdrop (fun d => d != c) (a :: p)
    simp only [List.length_drop, List.length_cons] at hle ⊢
    omega

/-- The texts that the loop of `split` stores. -/
def splitTexts (c : Char) : CString → List CString
  | [] => []
  | a :: p => (splitOff c (a :: p)).1 :: splitTexts c (splitOff c (a :: p)).2
termination_by p => p.length
decreasing_by exact splitOff_shorter c a p

def split (E : ScriptEnv) (name : CString) (numeric : Bool) (text : CString) (c : Char) :
    ScriptExec Unit := do
  let v ← checkAddWeakDeclaration E name numeric true
  match v with
  | none => throw .fatalExit
  | some v => onSlots E fun D callees => writeElements D callees v 0 (splitTexts c text)

/-- The array that `assign` works on. -/
def findOrDeclare (E : ScriptEnv) (name : CString) (numeric : Bool) : ScriptExec (Option VarId) := do
  let found ← onGraph (varTryGet E.graphEnv name)
  match found with
  | some v => pure (some v)
  | none => checkAddWeakDeclaration E name numeric false

/-- `assign` with an index. -/
def assignElement (E : ScriptEnv) (name : CString) (numeric : Bool) (index : CString)
    (numericIndex : Bool) (value : CString) : ScriptExec Unit := do
  let v ← findOrDeclare E name numeric
  match v with
  | none => throw .fatalExit
  | some v =>
      if numericIndex then onSlots E fun D callees => do
        let _ ← varInstanceSetAndCheckValue D callees ⟨v, [toUInt32 (atoi index) - 1]⟩ (some value) none
          .weak .scriptTransient
        pure ()
      else throw .fatalExit

def pmaxMatch : ℕ := 20

/-- `vartype_match_ext`: the offsets of the groups with an end mark behind them. -/
def vartypeMatchExt (E : ScriptEnv) (expr value : CString) : RegexpResult :=
  match E.regexec expr value with
  | .matched groups => .matched (groups ++ [.none])
  | result => result

/-- The loops of `regexp_user` over the offsets, as far as there is room for them. -/
def copyMatches : ℕ → List Regmatch → List Regmatch
  | 0, _ => []
  | nmatch + 1, [] => List.replicate (nmatch + 1) .none
  | nmatch + 1, m :: rest =>
      if m.participates then m :: copyMatches nmatch rest else List.replicate (nmatch + 1) .none

def regexpUser (E : ScriptEnv) (value expr : CString) (nmatch : ℕ) : RegexpResult :=
  match vartypeMatchExt E expr value with
  | .matched groups => .matched (copyMatches nmatch groups)
  | result => result

/-- The name of the array of `=~`. -/
def matchSetVar : CString := "MATCH_%".toList

/-- The name of the array of `fgrep`. -/
def fgrepSetVar : CString := "FGREP_MATCH_%".toList

def strStrmatch (E : ScriptEnv) (value expr : CString) : ScriptExec Bool := do
  let v ← checkAddWeakDeclaration E matchSetVar false false
  match v with
  | none => pure false
  | some v =>
      match regexpUser E value expr pmaxMatch with
      | .matched groups => do
          let texts := ((groups.drop 1).takeWhile Regmatch.participates).map fun m => m.text value
          onSlots E fun D callees => writeElements D callees v 0 texts
          pure true
      | .notMatched => pure false
      | .compileError => pure false

/-- `fgets` with room for `n` characters: the line, and what is left of the file. -/
def fgets : ℕ → CString → CString × CString
  | 0, s => ([], s)
  | _ + 1, [] => ([], [])
  | n + 1, c :: s => if c = '\n' then ([c], s) else (c :: (fgets n s).1, (fgets n s).2)

theorem fgets_shorter (n : ℕ) (c : Char) (s : CString) :
    (fgets (n + 1) (c :: s)).2.length < (c :: s).length := by
  have hle : ∀ (k : ℕ) (l : CString), (fgets k l).2.length ≤ l.length := by
    intro k l
    induction k, l using fgets.induct with
    | case1 l => exact le_refl _
    | case2 k => exact le_refl _
    | case3 k l => simp [fgets]
    | case4 k c l hc ih =>
        simp only [fgets, if_neg hc, List.length_cons]
        omega
  rw [fgets]
  split
  · simp
  · have hrest := hle n s
    show (fgets n s).2.length < s.length + 1
    omega

/-- Cut a line off at a newline or a carriage return. -/
def cutAt (buff : CString) (len : ℕ) : CString :=
  if buff[len]? = some '\n' ∨ buff[len]? = some '\r' then buff.take len else buff

/-- `if (len > 1) { --len; }` -/
def shorten (len : ℕ) : ℕ := if 1 < len then len - 1 else len

/-- The end of line characters that `parse_fgrep` removes. -/
def chompLine (line : CString) : CString :=
  let buff := line.takeWhile fun c => c != Char.ofNat 0
  let len := shorten buff.length
  cutAt (cutAt buff len) (shorten len)

/-- The lines of a file as `parse_fgrep` reads them into its buffer of 1024 characters. -/
def readLines : CString → List CString
  | [] => []
  | c :: s => chompLine (fgets 1023 (c :: s)).1 :: readLines (fgets 1023 (c :: s)).2
termination_by s => s.length
decreasing_by exact fgets_shorter 1022 c s

/-- The text that `parse_fgrep` takes out of its buffer. -/
def Regmatch.cutOut (m : Regmatch) (buff : CString) : CString :=
  (buff.take m.eo.toNat).drop m.so.toNat

/-- The loop of `parse_fgrep` over the lines. -/
def grepLines (E : ScriptEnv) (v : VarId) (expr : CString) : UInt32 → List CString → ScriptExec Unit
  | _, [] => pure ()
  | i, buff :: lines =>
      match regexpUser E buff expr pmaxMatch with
      | .matched groups => do
          let texts := (groups.takeWhile Regmatch.participates).map fun m => m.cutOut buff
          onSlots E fun D callees => writeElements D callees v i texts
          grepLines E v expr (i + UInt32.ofNat texts.length) lines
      | .notMatched => grepLines E v expr i lines
      | .compileError => throw .fatalExit

/-- `parse_fgrep`, with the contents of the files that the pattern stands for. -/
def parseFgrep (E : ScriptEnv) (files : List CString) (expr : CString) : ScriptExec Unit := do
  let v ← checkAddWeakDeclaration E fgrepSetVar false false
  match v with
  | none => throw .fatalExit
  | some v => grepLines E v expr 0 (files.flatMap readLines)

/-- The statements that produce arrays, with their arguments evaluated. -/
inductive ArrayStatement
  | split (name : CString) (numeric : Bool) (text : CString) (c : Char)
  | assign (name : CString) (numeric : Bool) (index : CString) (numericIndex : Bool) (value : CString)
  | strmatch (value expr : CString)
  | fgrep (files : List CString) (expr : CString)

namespace ArrayStatement

/-- The array that a statement works on. -/
def target : ArrayStatement → CString
  | split name _ _ _ => name.map Char.toUpper
  | assign name _ _ _ _ => name.map Char.toUpper
  | strmatch _ _ => matchSetVar
  | fgrep _ _ => fgrepSetVar

/-- Carry out a statement. -/
def exec (E : ScriptEnv) : ArrayStatement → ScriptExec Unit
  | split name numeric text c => Mkfli4l.split E name numeric text c
  | assign name numeric index numericIndex value => assignElement E name numeric index numericIndex value
  | strmatch value expr => do
      let _ ← strStrmatch E value expr
      pure ()
  | fgrep files expr => parseFgrep E files expr

end ArrayStatement

/-! ### The definitions of an array -/

/-- The name of an array with one index, and that of its bound. -/
structure ArrayName (name bound : CString) : Prop where
  valid : isVarName name = true
  placeholders : numPlaceholders name = 1
  computed : computedBoundName name = some bound
  validBound : isVarName bound = true

/-- No template makes variables of that name, in whichever case it is spelt. -/
def NoTemplate (E : GraphEnv) (g : Graph) (name : CString) : Prop :=
  ∀ tmpl ∈ g.templates, ∀ spelling, sameName name spelling = true → E.regexec tmpl.name spelling = false

/-- The variable object of an array. -/
def scriptVar (name : CString) (type : VarTypeId) (b : VarId) : Var where
  name := name
  type := type
  level := 1
  varN := some b
  varNClients := []
  priority := .scriptTransient
  props := scriptProps

/-- The variable object of the bound of an array. -/
def boundVar (E : GraphEnv) (bound : CString) (clients : List VarId) : Var where
  name := bound
  type := E.arrayBoundType
  level := 0
  varN := none
  varNClients := clients
  priority := .scriptTransient
  props := boundProps

/-- Neither the array nor its bound is there. -/
structure Graph.Lacks (g : Graph) (name bound : CString) : Prop where
  array : g.tryGetMember name = none
  bound : g.tryGetMember bound = none

/-- The bound `b` is there. -/
structure Graph.HasBound (E : GraphEnv) (g : Graph) (bound : CString) (b : VarId)
    (clients : List VarId) : Prop where
  member : g.tryGetMember bound = some (.var bound b)
  var : g.vars b = some (boundVar E bound clients)

/-- The array `v` and its bound `b` are there. -/
structure Graph.HasArray (E : GraphEnv) (g : Graph) (name bound : CString) (type : VarTypeId)
    (v b : VarId) : Prop where
  member : g.tryGetMember name = some (.var name v)
  array : g.vars v = some (scriptVar name type b)
  bound : g.HasBound E bound b [v]

variable {spelling : CString} {var : Var} {α : Type}

section graph

variable {E : GraphEnv} {g g' : Graph} {name bound : CString} {type : VarTypeId} {v b : VarId}

theorem ArrayName.boundPlaceholders (h : ArrayName name bound) : numPlaceholders bound = 0 := by
  have hone := numPlaceholders_computedBoundName h.computed
  rw [h.placeholders] at hone
  omega

theorem ArrayName.not_same (h : ArrayName name bound) : sameName bound name = false := by
  rw [Bool.eq_false_iff]
  intro hsame
  have hcount := numPlaceholders_of_sameName hsame
  rw [h.placeholders, h.boundPlaceholders] at hcount
  omega

theorem NoTemplate.varScopeTryGet (h : NoTemplate E g name)
    (hspelling : sameName name spelling = true) (hfree : g.tryGetMember spelling = none) (add : VarAdder) :
    varScopeTryGet E add spelling g = (none, g) := by
  have hnone : (E.visitOrder g.templates).find? (fun tmpl => E.regexec tmpl.name spelling) = none := by
    rw [List.find?_eq_none]
    intro tmpl hmem
    have hvisited : tmpl ∈ g.templates := (E.visitOrder_perm g.templates).mem_iff.mp hmem
    simp [h tmpl hvisited spelling hspelling]
  unfold Mkfli4l.varScopeTryGet
  rw [hfree]
  simp [varTemplateInstantiateFromString, hnone]

theorem NoTemplate.of_templates (h : NoTemplate E g name) (hsame : g'.templates = g.templates) :
    NoTemplate E g' name := by
  unfold NoTemplate
  rw [hsame]
  exact h

/-- The graph with one more variable. -/
def Graph.enrolled (g : Graph) (var : Var) : Graph :=
  { allocVar g var with members := g.members ++ [.var var.name g.nextId] }

theorem enrollVar_new (hfree : g.tryGetMember var.name = none) :
    enrollVar g var = (some g.nextId, g.enrolled var) := by
  have hmember : (allocVar g var).tryGetMember var.name = none := by
    unfold Graph.tryGetMember at hfree ⊢
    rw [allocVar_members]
    exact hfree
  unfold enrollVar varScopeAddVar
  rw [hmember, allocVar_members]
  rfl

theorem Graph.enrolled_templates (var : Var) : (g.enrolled var).templates = g.templates := by
  unfold Graph.templates Graph.enrolled
  rw [List.filterMap_append]
  simp

theorem Graph.enrolled_tryGetMember_of_not_same (hne : sameName var.name name = false) :
    (g.enrolled var).tryGetMember name = g.tryGetMember name := by
  unfold Graph.tryGetMember Graph.enrolled
  rw [List.find?_append]
  simp [ScopeMember.name, hne]

theorem Graph.enrolled_tryGetMember (hfree : g.tryGetMember var.name = none) :
    (g.enrolled var).tryGetMember var.name = some (.var var.name g.nextId) := by
  unfold Graph.tryGetMember at hfree
  unfold Graph.tryGetMember Graph.enrolled
  rw [List.find?_append, hfree]
  simp [ScopeMember.name, sameName_refl]

theorem Graph.HasBound.lt_nextId {clients : List VarId} (h : g.HasBound E bound b clients)
    (hvalid : g.Valid E) : b < g.nextId := by
  by_contra hge
  have hnone := hvalid.fresh b (Nat.not_lt.mp hge)
  rw [h.var] at hnone
  contradiction

theorem enrolled_hasArray (hname : ArrayName name bound) (hvalid : g.Valid E)
    (hfree : g.tryGetMember name = none) (hbound : g.HasBound E bound b []) (type : VarTypeId) :
    (g.enrolled (scriptVar name type b)).HasArray E name bound type g.nextId b := by
  have hlt := hbound.lt_nextId hvalid
  have hne : (scriptVar name type b).varN ≠ some g.nextId := by
    intro hsame
    exact Nat.ne_of_lt hlt (Option.some.inj hsame)
  refine ⟨Graph.enrolled_tryGetMember hfree, ?_, ?_, ?_⟩
  · show (allocVar g (scriptVar name type b)).vars g.nextId = _
    rw [allocVar_vars hne, if_pos rfl]
  · have hother : sameName (scriptVar name type b).name bound = false := by
      rw [Bool.eq_false_iff]
      intro hsame
      have hback : sameName bound name = true := sameName_symm hsame
      rw [hname.not_same] at hback
      contradiction
    rw [Graph.enrolled_tryGetMember_of_not_same hother]
    exact hbound.member
  · show (allocVar g (scriptVar name type b)).vars b = _
    rw [allocVar_vars hne, if_neg (Nat.ne_of_lt hlt), hbound.var]
    simp [Var.withClient, scriptVar, boundVar]

theorem enrolled_array_valid (hname : ArrayName name bound) (hvalid : g.Valid E)
    (hfree : g.tryGetMember name = none) (hbound : g.HasBound E bound b []) (type : VarTypeId) :
    (g.enrolled (scriptVar name type b)).Valid E :=
  hvalid.create hfree rfl hname.placeholders.symm
    ⟨boundVar E bound [], hbound.var, rfl, rfl, rfl, fun hoptional => nomatch hoptional⟩

theorem enrolled_hasBound (hfree : g.tryGetMember bound = none) :
    (g.enrolled (boundVar E bound [])).HasBound E bound g.nextId [] where
  member := Graph.enrolled_tryGetMember hfree
  var := by
    show (allocVar g (boundVar E bound [])).vars g.nextId = _
    rw [allocVar_vars (by simp [boundVar]), if_pos rfl]

theorem enrolled_bound_valid (hname : ArrayName name bound) (hvalid : g.Valid E)
    (hfree : g.tryGetMember bound = none) : (g.enrolled (boundVar E bound [])).Valid E :=
  hvalid.create hfree rfl hname.boundPlaceholders.symm rfl

/-- The request for the definition of an array. -/
def arraySpec (name : CString) (type : VarTypeId) : VarSpec :=
  ⟨name, type, .scriptTransient, scriptProps⟩

theorem varAddWithArrayBound_array (hname : ArrayName name bound) (type : VarTypeId) :
    varAddWithArrayBound E (arraySpec name type) none g =
      match varGetOrAddArrayBound E (varAdd E 0) bound scriptProps .scriptTransient g with
      | (none, g) => (none, g)
      | (some (b, _), g) => enrollVar g (scriptVar name type b) := by
  have hcomputed : computedBoundName (arraySpec name type).name = some bound := hname.computed
  have hplaceholders : numPlaceholders (arraySpec name type).name = 1 := hname.placeholders
  have hvalidName : isVarName (arraySpec name type).name = true := hname.valid
  simp only [varAddWithArrayBound, hplaceholders, varAdd, hvalidName, if_true, varCreate, hcomputed]
  rfl

theorem addArray_of_hasBound (hname : ArrayName name bound) (hfree : g.tryGetMember name = none)
    (hbound : g.HasBound E bound b []) (type : VarTypeId) :
    varAddWithArrayBound E (arraySpec name type) none g =
      (some g.nextId, g.enrolled (scriptVar name type b)) := by
  have hcheck : varCheckArrayBound E (boundVar E bound []) scriptProps .scriptTransient = true := by
    simp [varCheckArrayBound, boundVar, boundProps]
  have hget : varGetOrAddArrayBound E (varAdd E 0) bound scriptProps .scriptTransient g =
      (some (b, false), g) := by
    unfold varGetOrAddArrayBound varScopeTryGet
    simp only [hbound.member, hbound.var, hcheck, if_true]
  rw [varAddWithArrayBound_array hname, hget]
  exact enrollVar_new hfree

theorem addArray_of_lacks (hname : ArrayName name bound) (hlacks : g.Lacks name bound)
    (htemplate : NoTemplate E g bound) (type : VarTypeId) :
    varAddWithArrayBound E (arraySpec name type) none g =
      (some (g.nextId + 1),
        (g.enrolled (boundVar E bound [])).enrolled (scriptVar name type g.nextId)) := by
  have hmissing : varScopeTryGet E (varAdd E 0) bound g = (none, g) :=
    htemplate.varScopeTryGet (sameName_refl bound) hlacks.bound _
  have hscalar : computedBoundName bound = none := by
    cases hcomputed : computedBoundName bound with
    | none => rfl
    | some lower =>
        have hcount := numPlaceholders_computedBoundName hcomputed
        rw [hname.boundPlaceholders] at hcount
        omega
  have hadd : varAdd E 0 ⟨bound, E.arrayBoundType, .scriptTransient, boundProps⟩ g =
      (some g.nextId, g.enrolled (boundVar E bound [])) := by
    have henroll : enrollVar g (boundVar E bound []) = _ := enrollVar_new hlacks.bound
    simp only [varAdd, hname.validBound, if_true, varCreate, hscalar]
    exact henroll
  have hget : varGetOrAddArrayBound E (varAdd E 0) bound scriptProps .scriptTransient g =
      (some (g.nextId, true), g.enrolled (boundVar E bound [])) := by
    unfold varGetOrAddArrayBound
    rw [hmissing]
    simp only [hadd]
  have hfree : (g.enrolled (boundVar E bound [])).tryGetMember name = none := by
    rw [Graph.enrolled_tryGetMember_of_not_same hname.not_same]
    exact hlacks.array
  have hnext : (g.enrolled (boundVar E bound [])).nextId = g.nextId + 1 := allocVar_nextId
  rw [varAddWithArrayBound_array hname, hget]
  show enrollVar _ _ = _
  have henroll : enrollVar (g.enrolled (boundVar E bound [])) (scriptVar name type g.nextId) = _ :=
    enrollVar_new hfree
  rw [hnext] at henroll
  exact henroll

theorem Graph.HasArray.remove (h : g.HasArray E name bound type v b) (hvalid : g.Valid E) :
    (varRemove g v).tryGetMember name = none ∧ (varRemove g v).HasBound E bound b [] := by
  have hvalid' := hvalid.remove v
  have hbv : ¬ b = v := by
    rintro rfl
    have hsame := Option.some.inj (h.array.symm.trans h.bound.var)
    have hlevel := congrArg Var.level hsame
    exact absurd hlevel (by simp [scriptVar, boundVar])
  have hb : (varRemove g v).vars b = some (boundVar E bound []) := by
    rw [hvalid.varRemove_vars h.array, if_neg hbv, h.bound.var]
    simp [Var.withoutLinksTo, scriptVar, boundVar]
  refine ⟨?_, hvalid'.tryGetMember_name hb, hb⟩
  cases hfound : (varRemove g v).tryGetMember name with
  | none => rfl
  | some member =>
      obtain ⟨hmem, hsame⟩ := Graph.tryGetMember_some hfound
      rw [hvalid.varRemove_eq h.array, varDestroy_members] at hmem
      have hnodup : g.members.Nodup := by
        refine hvalid.names.imp fun hdiffer heq => ?_
        rw [heq, sameName_refl] at hdiffer
        contradiction
      obtain ⟨hne, hold⟩ := (List.Nodup.mem_erase_iff hnodup).mp hmem
      have harray : ScopeMember.var name v ∈ g.members := hvalid.live_member v _ h.array
      exact absurd (hvalid.member_unique hold harray hsame) hne

theorem filterMap_erase_of_none {β : Type} [BEq α] [LawfulBEq α] {f : α → Option β} {a : α}
    (ha : f a = none) (l : List α) : (l.erase a).filterMap f = l.filterMap f := by
  induction l with
  | nil => rfl
  | cons x l ih =>
      rw [List.erase_cons]
      split
      · next hx => rw [List.filterMap_cons, eq_of_beq hx, ha]
      · rw [List.filterMap_cons, List.filterMap_cons, ih]

theorem Graph.HasArray.remove_templates (h : g.HasArray E name bound type v b) (hvalid : g.Valid E) :
    (varRemove g v).templates = g.templates := by
  unfold Graph.templates
  rw [hvalid.varRemove_eq h.array, varDestroy_members]
  exact filterMap_erase_of_none rfl g.members

theorem Graph.HasArray.remove_nextId (h : g.HasArray E name bound type v b) (hvalid : g.Valid E) :
    (varRemove g v).nextId = g.nextId := by
  rw [hvalid.varRemove_eq h.array, varDestroy_nextId]

end graph

/-! ### What the statements leave behind -/

/-- The array is there, and the next statement can overwrite it. -/
structure Store.Overwritable (E : ScriptEnv) (name bound : CString) (type : VarTypeId) (v b : VarId)
    (st : Store) : Prop where
  defined : st.graph.HasArray E.graphEnv name bound type v b
  held : ∃ n, st.slots.BoundHolds b n
  low : st.slots.ElementsLow v

/-- A store in which an array of that name belongs to check scripts: it is not there yet, or statements
of check scripts have made it. -/
structure ScriptArray (E : ScriptEnv) (name bound : CString) (st : Store) : Prop where
  valid : st.graph.Valid E.graphEnv
  template : NoTemplate E.graphEnv st.graph name
  boundTemplate : NoTemplate E.graphEnv st.graph bound
  array : st.graph.Lacks name bound ∨ ∃ type v b, st.Overwritable E name bound type v b

/-- The array has just been declared: it has no elements, and its bound is zero. -/
structure Store.Declared (E : ScriptEnv) (name bound : CString) (type : VarTypeId) (v b : VarId)
    (st : Store) : Prop where
  valid : st.graph.Valid E.graphEnv
  template : NoTemplate E.graphEnv st.graph name
  boundTemplate : NoTemplate E.graphEnv st.graph bound
  defined : st.graph.HasArray E.graphEnv name bound type v b
  held : st.slots.BoundHolds b 0
  empty : st.slots.numSlots v [] = 0

section store

variable {E : ScriptEnv} {g : Graph} {st st' : Store} {name bound : CString} {type : VarTypeId}
  {v b : VarId} {n : ℕ}

theorem Graph.HasArray.transient (h : g.HasArray E.graphEnv name bound type v b)
    (hvalid : g.Valid E.graphEnv) :
    TransientArray (E.defs g) v b (scriptVar name type b) (boundVar E.graphEnv bound [v]) := by
  obtain ⟨hvars, htype⟩ := E.describes g hvalid
  have harray : (E.defs g).vars v = some (scriptVar name type b) := by
    rw [hvars]
    exact h.array
  have hbound : (E.defs g).vars b = some (boundVar E.graphEnv bound [v]) := by
    rw [hvars]
    exact h.bound.var
  have hcondition : (E.defs g).condition v = exprTrue := by
    rw [E.conditions g hvalid v _ harray]
    rfl
  refine ⟨harray, rfl, rfl, rfl, rfl, hbound, rfl, rfl, htype.symm, hcondition, ?_, ?_, ?_⟩
  · -- the condition of the only client is TRUE
    rw [E.conditions g hvalid b _ hbound]
    have hassembled : assembleCondition (boundVar E.graphEnv bound [v]).props.condition
        ((boundVar E.graphEnv bound [v]).varNClients.map (E.defs g).condition) = exprTrue := by
      simp [boundVar, boundProps, assembleCondition, hcondition, collectConditions, exprTrue, exprFalse]
    unfold varComputeCondition
    rw [hassembled]
    rfl
  · rw [E.defaults g hvalid v _ h.array]
    rfl
  · rw [E.defaults g hvalid b _ h.bound.var]
    rfl

variable {s : Slots} {next : VarId} {texts : List CString}

theorem Slots.BoundHolds.initFrom (hb : s.BoundHolds b n) (hlt : b < next) :
    (s.initFrom next).BoundHolds b n := by
  have hentry := Slots.initFrom_entry (s := s) hlt []
  obtain ⟨hsmall, hvalue, hcached, hidle, hpriority⟩ := hb
  rw [← hentry] at hvalue hcached hidle hpriority
  exact ⟨hsmall, hvalue, hcached, hidle, hpriority⟩

theorem Slots.initFrom_numSlots {w : VarId} (hlt : w < next) (p : List UInt32) :
    (s.initFrom next).numSlots w p = s.numSlots w p := by
  simp only [Slots.initFrom]
  rw [if_neg (Nat.not_le.mpr hlt)]

theorem Slots.boundHolds_initFrom (s : Slots) (hle : next ≤ b) :
    (s.initFrom next).BoundHolds b 0 := by
  have hentry := Slots.initFrom_entry_new (s := s) hle []
  refine ⟨Nat.zero_le _, ?_, ?_, ?_, ?_⟩
  · rw [hentry]
    exact .inr ⟨rfl, rfl⟩
  · rw [hentry]
    exact .inl rfl
  · rw [hentry]
    rfl
  · rw [hentry]
    decide

theorem Slots.ElementsLow.initFrom (hlow : s.ElementsLow v) (hlt : v < next) :
    (s.initFrom next).ElementsLow v := by
  intro j hj
  rw [Slots.initFrom_numSlots hlt] at hj
  rw [Slots.initFrom_entry hlt]
  exact hlow j hj

theorem Slots.HoldsTexts.initFrom {D : Defs}
    (ht : s.HoldsTexts D v b var texts) (hv : v < next) (hb : b < next) :
    (s.initFrom next).HoldsTexts D v b var texts where
  bound := ht.bound.initFrom hb
  numSlots := by
    rw [Slots.initFrom_numSlots hv]
    exact ht.numSlots
  entry := by
    intro j text hj
    rw [Slots.initFrom_entry hv]
    exact ht.entry j text hj

theorem Graph.HasArray.lt_nextId (h : g.HasArray E.graphEnv name bound type v b)
    (hvalid : g.Valid E.graphEnv) : v < g.nextId := by
  by_contra hge
  have hnone := hvalid.fresh v (Nat.not_lt.mp hge)
  rw [h.array] at hnone
  contradiction

theorem onSlots_ok {x : Defs → Callees → SlotExec α} {a : α}
    (h : x (E.defs st.graph) (E.callees st.graph) st.slots = .ok (a, s)) :
    onSlots E x st = .ok (a, ⟨st.graph, s⟩) := by
  unfold onSlots
  rw [h]

theorem onSlots_ok_iff {x : Defs → Callees → SlotExec α} {a : α} :
    onSlots E x st = .ok (a, st') ↔
      ∃ s, x (E.defs st.graph) (E.callees st.graph) st.slots = .ok (a, s) ∧ st' = ⟨st.graph, s⟩ := by
  unfold onSlots
  cases x (E.defs st.graph) (E.callees st.graph) st.slots with
  | error fault => simp
  | ok r =>
      obtain ⟨a', s⟩ := r
      simp only [Except.ok.injEq, Prod.mk.injEq]
      constructor
      · rintro ⟨rfl, rfl⟩
        exact ⟨s, ⟨rfl, rfl⟩, rfl⟩
      · rintro ⟨s', ⟨rfl, rfl⟩, rfl⟩
        exact ⟨rfl, rfl⟩

theorem onGraph_apply (change : Graph → α × Graph) (st : Store) :
    onGraph change st =
      .ok ((change st.graph).1, ⟨(change st.graph).2, st.slots.initFrom st.graph.nextId⟩) := rfl

theorem addDeclaration_of_lacks (hname : ArrayName name bound) (h : ScriptArray E name bound st)
    (hlacks : st.graph.Lacks name bound) (numeric : Bool) :
    ∃ v b st', addDeclaration E name numeric st = .ok (some v, st') ∧
      st'.Declared E name bound (E.scriptType numeric) v b := by
  have hadd : varAddWithArrayBound E.graphEnv
      ⟨name, E.scriptType numeric, .scriptTransient, scriptProps⟩ none st.graph = _ :=
    addArray_of_lacks hname hlacks h.boundTemplate (E.scriptType numeric)
  have hvalid := enrolled_bound_valid hname h.valid hlacks.bound
  have hbound := enrolled_hasBound (E := E.graphEnv) hlacks.bound
  have hfree : (st.graph.enrolled (boundVar E.graphEnv bound [])).tryGetMember name = none := by
    rw [Graph.enrolled_tryGetMember_of_not_same hname.not_same]
    exact hlacks.array
  have hnext : (st.graph.enrolled (boundVar E.graphEnv bound [])).nextId = st.graph.nextId + 1 :=
    allocVar_nextId
  have harray := enrolled_hasArray hname hvalid hfree hbound (E.scriptType numeric)
  rw [hnext] at harray
  refine ⟨st.graph.nextId + 1, st.graph.nextId, _,
    (onGraph_apply _ st).trans (by rw [hadd]), ?_, ?_, ?_, harray, ?_, ?_⟩
  · exact enrolled_array_valid hname hvalid hfree hbound _
  · refine h.template.of_templates ?_
    rw [Graph.enrolled_templates, Graph.enrolled_templates]
  · refine h.boundTemplate.of_templates ?_
    rw [Graph.enrolled_templates, Graph.enrolled_templates]
  · exact Slots.boundHolds_initFrom _ (le_refl _)
  · simp [Slots.initFrom]

theorem addDeclaration_of_hasBound (hname : ArrayName name bound) (hvalid : st.graph.Valid E.graphEnv)
    (htemplate : NoTemplate E.graphEnv st.graph name)
    (hboundTemplate : NoTemplate E.graphEnv st.graph bound) (hfree : st.graph.tryGetMember name = none)
    (hbound : st.graph.HasBound E.graphEnv bound b []) (hheld : st.slots.BoundHolds b 0) (numeric : Bool) :
    ∃ v st', addDeclaration E name numeric st = .ok (some v, st') ∧
      st'.Declared E name bound (E.scriptType numeric) v b := by
  have hadd : varAddWithArrayBound E.graphEnv
      ⟨name, E.scriptType numeric, .scriptTransient, scriptProps⟩ none st.graph = _ :=
    addArray_of_hasBound hname hfree hbound (E.scriptType numeric)
  refine ⟨st.graph.nextId, _, (onGraph_apply _ st).trans (by rw [hadd]), ?_, ?_, ?_, ?_, ?_, ?_⟩
  · exact enrolled_array_valid hname hvalid hfree hbound _
  · exact htemplate.of_templates (Graph.enrolled_templates _)
  · exact hboundTemplate.of_templates (Graph.enrolled_templates _)
  · exact enrolled_hasArray hname hvalid hfree hbound _
  · exact hheld.initFrom (hbound.lt_nextId hvalid)
  · simp [Slots.initFrom]

/-- The type that a declaration leaves behind: without a removal it is the one that is there. -/
def ScriptEnv.typeAfter (E : ScriptEnv) (g : Graph) (name : CString) (numeric remove : Bool) : VarTypeId :=
  match remove, g.tryGetMember name with
  | false, some (.var _ v) => ((g.vars v).map Var.type).getD (E.scriptType numeric)
  | _, _ => E.scriptType numeric

theorem varTryGet_of_member {key : CString}
    (hmember : st.graph.tryGetMember spelling = some (.var key v)) :
    varTryGet E.graphEnv spelling st.graph = (some v, st.graph) := by
  unfold varTryGet varScopeTryGet
  rw [hmember]

/-- A statement begins with an array that has no elements. -/
theorem checkAddWeakDeclaration_declared (hname : ArrayName name bound) (h : ScriptArray E name bound st)
    (hspelling : spelling.map Char.toUpper = name) (numeric remove : Bool) :
    ∃ v b st', checkAddWeakDeclaration E spelling numeric remove st = .ok (some v, st') ∧
      st'.Declared E name bound (E.typeAfter st.graph name numeric remove) v b := by
  unfold checkAddWeakDeclaration
  simp only [hspelling]
  rcases h.array with hlacks | ⟨type, v, b, ⟨hdefined, ⟨n, hheld⟩, hlow⟩⟩
  · have hmissing : varTryGet E.graphEnv name st.graph = (none, st.graph) :=
      h.template.varScopeTryGet (sameName_refl name) hlacks.array _
    have hfound : onGraph (varTryGet E.graphEnv name) st =
        .ok (none, ⟨st.graph, st.slots.initFrom st.graph.nextId⟩) := by
      rw [onGraph_apply, hmissing]
    have htype : E.typeAfter st.graph name numeric remove = E.scriptType numeric := by
      unfold ScriptEnv.typeAfter
      rw [hlacks.array]
      cases remove with
      | false => rfl
      | true => rfl
    rw [bind_of_ok hfound, htype]
    have h' : ScriptArray E name bound ⟨st.graph, st.slots.initFrom st.graph.nextId⟩ :=
      ⟨h.valid, h.template, h.boundTemplate, .inl hlacks⟩
    exact addDeclaration_of_lacks hname h' hlacks numeric
  · have hmember : varTryGet E.graphEnv name st.graph = (some v, st.graph) :=
      varTryGet_of_member hdefined.member
    have hfound : onGraph (varTryGet E.graphEnv name) st =
        .ok (some v, ⟨st.graph, st.slots.initFrom st.graph.nextId⟩) := by
      rw [onGraph_apply, hmember]
    have hv := hdefined.lt_nextId h.valid
    have hb := hdefined.bound.lt_nextId h.valid
    obtain ⟨s', hclear, hheld', hempty⟩ := varInstanceClear_array (hdefined.transient h.valid)
      (hheld.initFrom hb) (hlow.initFrom hv) E.room
    have hcleared : onSlots E (fun D c => varInstanceClear D c ⟨v, []⟩ .weak .scriptTransient)
        ⟨st.graph, st.slots.initFrom st.graph.nextId⟩ = .ok (true, ⟨st.graph, s'⟩) :=
      onSlots_ok hclear
    rw [bind_of_ok hfound]
    simp only
    rw [bind_of_ok hcleared]
    cases remove with
    | false =>
        have htype : E.typeAfter st.graph name numeric false = type := by
          unfold ScriptEnv.typeAfter
          rw [hdefined.member]
          simp [hdefined.array, scriptVar]
        rw [htype]
        exact ⟨v, b, ⟨st.graph, s'⟩, rfl, h.valid, h.template, h.boundTemplate, hdefined, hheld', hempty⟩
    | true =>
        have hpriority : (scriptVar name type b).priority = .scriptTransient := rfl
        have hremoved : onGraph (fun g => ((), varRemove g v)) ⟨st.graph, s'⟩ =
            .ok ((), ⟨varRemove st.graph v, s'.initFrom st.graph.nextId⟩) := rfl
        obtain ⟨hfree, hbound⟩ := hdefined.remove h.valid
        have htemplates := hdefined.remove_templates h.valid
        have hcleared : (Store.mk (varRemove st.graph v)
            (s'.initFrom st.graph.nextId)).slots.BoundHolds b 0 := hheld'.initFrom hb
        obtain ⟨v', st', hadd, hdeclared⟩ := addDeclaration_of_hasBound (E := E) hname (h.valid.remove v)
          (h.template.of_templates htemplates) (h.boundTemplate.of_templates htemplates) hfree hbound
          hcleared numeric
        refine ⟨v', b, st', ?_, hdeclared⟩
        simp only [if_true, bind_apply, get_apply, hdefined.array, hpriority, hremoved]
        exact hadd

theorem Store.Declared.transient (h : st.Declared E name bound type v b) :
    TransientArray (E.defs st.graph) v b (scriptVar name type b) (boundVar E.graphEnv bound [v]) :=
  h.defined.transient h.valid

theorem Store.Declared.holdsTexts (h : st.Declared E name bound type v b) :
    st.slots.HoldsTexts (E.defs st.graph) v b (scriptVar name type b) [] :=
  .nil h.held h.empty

theorem Store.Overwritable.writeElements (h : st.Overwritable E name bound type v b)
    (hvalid : st.graph.Valid E.graphEnv) {i : UInt32}
    (hrun : onSlots E (fun D c => Mkfli4l.writeElements D c v i texts) st = .ok ((), st')) :
    st'.graph = st.graph ∧ st'.Overwritable E name bound type v b := by
  obtain ⟨s, hwrites, rfl⟩ := onSlots_ok_iff.mp hrun
  obtain ⟨n, hheld⟩ := h.held
  obtain ⟨hheld', hlow'⟩ := writeElements_low (h.defined.transient hvalid) hheld h.low hwrites
  exact ⟨rfl, h.defined, hheld', hlow'⟩

theorem Store.Overwritable.grepLines (h : st.Overwritable E name bound type v b)
    (hvalid : st.graph.Valid E.graphEnv) {expr : CString} {lines : List CString} {i : UInt32}
    (hrun : Mkfli4l.grepLines E v expr i lines st = .ok ((), st')) :
    st'.graph = st.graph ∧ st'.Overwritable E name bound type v b := by
  induction lines generalizing i st with
  | nil =>
      obtain ⟨-, rfl⟩ := pure_ok_iff.mp hrun
      exact ⟨rfl, h⟩
  | cons buff lines ih =>
      rw [Mkfli4l.grepLines] at hrun
      cases hresult : regexpUser E buff expr pmaxMatch with
      | matched groups =>
          simp only [hresult] at hrun
          obtain ⟨_, st₁, hwrites, hrest⟩ := bind_ok_iff.mp hrun
          obtain ⟨hgraph, h₁⟩ := h.writeElements hvalid hwrites
          obtain ⟨hgraph', h'⟩ := ih h₁ (by rw [hgraph]; exact hvalid) hrest
          exact ⟨hgraph'.trans hgraph, h'⟩
      | notMatched =>
          simp only [hresult] at hrun
          exact ih h hvalid hrun
      | compileError =>
          simp only [hresult] at hrun
          exact (throw_ok_iff.mp hrun).elim

theorem Store.Declared.overwritable (h : st.Declared E name bound type v b) :
    st.Overwritable E name bound type v b :=
  ⟨h.defined, ⟨0, h.held⟩, h.holdsTexts.elementsLow⟩

theorem ScriptArray.of_overwritable (hvalid : st.graph.Valid E.graphEnv)
    (htemplate : NoTemplate E.graphEnv st.graph name)
    (hboundTemplate : NoTemplate E.graphEnv st.graph bound) (hgraph : st'.graph = st.graph)
    (h : st'.Overwritable E name bound type v b) : ScriptArray E name bound st' := by
  refine ⟨?_, ?_, ?_, .inr ⟨type, v, b, h⟩⟩
  · rw [hgraph]
    exact hvalid
  · exact htemplate.of_templates (by rw [hgraph])
  · exact hboundTemplate.of_templates (by rw [hgraph])

theorem sameName_of_upper (h : spelling.map Char.toUpper = name) :
    sameName name spelling = true := by
  subst h
  unfold sameName
  rw [beq_iff_eq, List.map_map]
  refine List.map_congr_left fun c _ => ?_
  exact Char.toLower_toUpper_eq_toLower c

theorem Graph.tryGetMember_congr {a c : CString} (h : sameName a c = true) :
    g.tryGetMember c = g.tryGetMember a := by
  unfold Graph.tryGetMember
  congr 1
  funext member
  exact (sameName_congr h).symm

theorem Store.Overwritable.initFrom (h : st.Overwritable E name bound type v b)
    (hvalid : st.graph.Valid E.graphEnv) :
    (Store.mk st.graph (st.slots.initFrom st.graph.nextId)).Overwritable E name bound type v b := by
  obtain ⟨n, hheld⟩ := h.held
  exact ⟨h.defined, ⟨n, hheld.initFrom (h.defined.bound.lt_nextId hvalid)⟩,
    h.low.initFrom (h.defined.lt_nextId hvalid)⟩

theorem strStrmatch_overwritable {value expr : CString} {matched : Bool} {st₁ : Store}
    (hdeclare : checkAddWeakDeclaration E matchSetVar false false st = .ok (some v, st₁))
    (hdeclared : st₁.Declared E name bound type v b)
    (hrun : strStrmatch E value expr st = .ok (matched, st')) :
    st'.graph = st₁.graph ∧ st'.Overwritable E name bound type v b := by
  unfold strStrmatch at hrun
  rw [bind_of_ok hdeclare] at hrun
  cases hresult : regexpUser E value expr pmaxMatch with
  | matched groups =>
      simp only [hresult] at hrun
      obtain ⟨_, st₂, hwrites, hrest⟩ := bind_ok_iff.mp hrun
      obtain ⟨-, rfl⟩ := pure_ok_iff.mp hrest
      exact hdeclared.overwritable.writeElements hdeclared.valid hwrites
  | notMatched | compileError =>
      simp only [hresult] at hrun
      obtain ⟨-, rfl⟩ := pure_ok_iff.mp hrun
      exact ⟨rfl, hdeclared.overwritable⟩

theorem findOrDeclare_overwritable (hname : ArrayName name bound) (h : ScriptArray E name bound st)
    (hspelling : spelling.map Char.toUpper = name) (numeric : Bool) :
    ∃ type v b st', findOrDeclare E spelling numeric st = .ok (some v, st') ∧
      st'.Overwritable E name bound type v b ∧ ScriptArray E name bound st' := by
  have hsame := sameName_of_upper hspelling
  unfold findOrDeclare
  rcases h.array with hlacks | ⟨type, v, b, hover⟩
  · have hfree : st.graph.tryGetMember spelling = none := by
      rw [Graph.tryGetMember_congr hsame]
      exact hlacks.array
    have hmissing : varTryGet E.graphEnv spelling st.graph = (none, st.graph) :=
      h.template.varScopeTryGet hsame hfree _
    have hfound : onGraph (varTryGet E.graphEnv spelling) st =
        .ok (none, ⟨st.graph, st.slots.initFrom st.graph.nextId⟩) := by
      rw [onGraph_apply, hmissing]
    have h' : ScriptArray E name bound ⟨st.graph, st.slots.initFrom st.graph.nextId⟩ :=
      ⟨h.valid, h.template, h.boundTemplate, .inl hlacks⟩
    obtain ⟨v, b, st₁, hdeclare, hdeclared⟩ :=
      checkAddWeakDeclaration_declared hname h' hspelling numeric false
    refine ⟨_, v, b, st₁, ?_, hdeclared.overwritable, ?_⟩
    · rw [bind_of_ok hfound]
      exact hdeclare
    · exact .of_overwritable hdeclared.valid hdeclared.template hdeclared.boundTemplate rfl
        hdeclared.overwritable
  · have hmember : st.graph.tryGetMember spelling = some (.var name v) := by
      rw [Graph.tryGetMember_congr hsame]
      exact hover.defined.member
    have hfound : onGraph (varTryGet E.graphEnv spelling) st =
        .ok (some v, ⟨st.graph, st.slots.initFrom st.graph.nextId⟩) := by
      rw [onGraph_apply, varTryGet_of_member hmember]
    have hover' := hover.initFrom h.valid
    refine ⟨type, v, b, ⟨st.graph, st.slots.initFrom st.graph.nextId⟩, ?_, hover', ?_⟩
    · rw [bind_of_ok hfound]
      rfl
    · exact ⟨h.valid, h.template, h.boundTemplate, .inr ⟨type, v, b, hover'⟩⟩

theorem assignElement_scriptArray (hname : ArrayName name bound) (h : ScriptArray E name bound st)
    {index value : CString} {numeric numericIndex : Bool} (hspelling : spelling.map Char.toUpper = name)
    (hrun : assignElement E spelling numeric index numericIndex value st = .ok ((), st')) :
    ScriptArray E name bound st' := by
  obtain ⟨type, v, b, st₁, hfind, hover, h₁⟩ := findOrDeclare_overwritable hname h hspelling numeric
  unfold assignElement at hrun
  rw [bind_of_ok hfind] at hrun
  simp only at hrun
  split at hrun
  · obtain ⟨s, hwrites, rfl⟩ := onSlots_ok_iff.mp hrun
    obtain ⟨r, s₁, hwrite, hrest⟩ := bind_ok_iff.mp hwrites
    obtain ⟨-, rfl⟩ := pure_ok_iff.mp hrest
    obtain ⟨n, hheld⟩ := hover.held
    obtain ⟨hheld', hlow'⟩ := setElement_low (hover.defined.transient h₁.valid) hheld hover.low hwrite
    exact ⟨h₁.valid, h₁.template, h₁.boundTemplate, .inr ⟨type, v, b, hover.defined, hheld', hlow'⟩⟩
  · exact (throw_ok_iff.mp hrun).elim

theorem ArrayStatement.exec_scriptArray (hname : ArrayName name bound) (h : ScriptArray E name bound st)
    {statement : ArrayStatement} (htarget : statement.target = name)
    (hrun : statement.exec E st = .ok ((), st')) : ScriptArray E name bound st' := by
  cases statement with
  | split spelling numeric text c =>
      obtain ⟨v, b, st₁, hdeclare, hdeclared⟩ := checkAddWeakDeclaration_declared hname h htarget numeric true
      have hrest : Mkfli4l.split E spelling numeric text c st = .ok ((), st') := hrun
      unfold Mkfli4l.split at hrest
      rw [bind_of_ok hdeclare] at hrest
      obtain ⟨hgraph, h'⟩ := hdeclared.overwritable.writeElements hdeclared.valid hrest
      exact .of_overwritable hdeclared.valid hdeclared.template hdeclared.boundTemplate hgraph h'
  | assign spelling numeric index numericIndex value =>
      exact assignElement_scriptArray hname h htarget hrun
  | strmatch value expr =>
      have hspelling : matchSetVar.map Char.toUpper = matchSetVar := by decide
      obtain ⟨v, b, st₁, hdeclare, hdeclared⟩ :=
        checkAddWeakDeclaration_declared hname h (hspelling.trans htarget) false false
      obtain ⟨matched, st₂, hmatch, hrest⟩ := bind_ok_iff.mp hrun
      obtain ⟨-, rfl⟩ := pure_ok_iff.mp hrest
      obtain ⟨hgraph, h'⟩ := strStrmatch_overwritable hdeclare hdeclared hmatch
      exact .of_overwritable hdeclared.valid hdeclared.template hdeclared.boundTemplate hgraph h'
  | fgrep files expr =>
      have hspelling : fgrepSetVar.map Char.toUpper = fgrepSetVar := by decide
      obtain ⟨v, b, st₁, hdeclare, hdeclared⟩ :=
        checkAddWeakDeclaration_declared hname h (hspelling.trans htarget) false false
      have hrest : parseFgrep E files expr st = .ok ((), st') := hrun
      unfold parseFgrep at hrest
      rw [bind_of_ok hdeclare] at hrest
      obtain ⟨hgraph, h'⟩ := hdeclared.overwritable.grepLines hdeclared.valid hrest
      exact .of_overwritable hdeclared.valid hdeclared.template hdeclared.boundTemplate hgraph h'

/-- Statements that come back, one after the other, on one array. -/
abbrev StatementRun (E : ScriptEnv) (name : CString) : Store → Store → Prop :=
  Relation.ReflTransGen fun st st' =>
    ∃ statement : ArrayStatement, statement.target = name ∧ statement.exec E st = .ok ((), st')

theorem StatementRun.scriptArray (hname : ArrayName name bound) (hrun : StatementRun E name st st')
    (h : ScriptArray E name bound st) : ScriptArray E name bound st' := by
  induction hrun with
  | refl => exact h
  | tail _ hstep ih =>
      obtain ⟨statement, htarget, hexec⟩ := hstep
      exact statement.exec_scriptArray hname ih htarget hexec

/-- A store in which the names of an array and of its bound are not used, neither by variables nor by
templates. -/
structure Store.Unused (E : ScriptEnv) (name bound : CString) (st : Store) : Prop where
  valid : st.graph.Valid E.graphEnv
  template : NoTemplate E.graphEnv st.graph name
  boundTemplate : NoTemplate E.graphEnv st.graph bound
  lacks : st.graph.Lacks name bound

theorem Store.Unused.scriptArray (h : st.Unused E name bound) : ScriptArray E name bound st :=
  ⟨h.valid, h.template, h.boundTemplate, .inl h.lacks⟩

/-! ### What scripts read -/

/-- Scripts find the array, and it reads exactly as the texts. -/
def ArrayReads (E : ScriptEnv) (name bound : CString) (texts : List CString) (st : Store) : Prop :=
  ∃ v b, st.graph.tryGetMember name = some (.var name v) ∧
    st.graph.tryGetMember bound = some (.var bound b) ∧
    ReadsExactly (E.defs st.graph) (E.callees st.graph) v b texts st.slots

theorem Store.Declared.fill_reads (h : st.Declared E name bound type v b)
    (hlen : texts.length ≤ 2147483647)
    (hmatch : ∀ text ∈ texts, E.types.vartypeMatch type text = true) :
    ∃ st', onSlots E (fun D c => Mkfli4l.writeElements D c v 0 texts) st = .ok ((), st') ∧
      ArrayReads E name bound texts st' := by
  have hfirst : (0 : UInt32).toNat = ([] : List CString).length := rfl
  have hroom : ([] : List CString).length + texts.length < 4294967296 := by
    rw [List.length_nil]
    omega
  obtain ⟨s, hwrites, hholds⟩ := writeElements_holds h.transient E.room h.holdsTexts hfirst hroom
  rw [← E.defs_types st.graph] at hmatch
  exact ⟨⟨st.graph, s⟩, onSlots_ok hwrites, v, b, h.defined.member, h.defined.bound.member,
    Slots.HoldsTexts.readsExactly hholds h.transient hlen hmatch E.room⟩

theorem Store.Declared.of_fill_reads (h : st.Declared E name bound type v b) {expected : List CString}
    (hrun : onSlots E (fun D c => Mkfli4l.writeElements D c v 0 texts) st = .ok ((), st'))
    (hreads : ArrayReads E name bound expected st') :
    expected = texts.take 2147483647 ∧ ∀ text ∈ expected, E.types.vartypeMatch type text = true := by
  obtain ⟨s, hwrites, rfl⟩ := onSlots_ok_iff.mp hrun
  obtain ⟨v', b', hmember, hboundMember, hexact⟩ := hreads
  obtain rfl : v = v' := (ScopeMember.var.inj (Option.some.inj (h.defined.member.symm.trans hmember))).2
  obtain rfl : b = b' :=
    (ScopeMember.var.inj (Option.some.inj (h.defined.bound.member.symm.trans hboundMember))).2
  have hfirst : (0 : UInt32).toNat = ([] : List CString).length := rfl
  have hroom : ([] : List CString).length + texts.length < 4294967296 := by
    by_contra hmany
    exact writeElements_wraps h.transient E.room h.holdsTexts hfirst (Nat.not_lt.mp hmany) hwrites
  obtain ⟨s', hwrites', hholds⟩ := writeElements_holds h.transient E.room h.holdsTexts hfirst hroom
  have hwrites'' : writeElements (E.defs st.graph) (E.callees st.graph) v 0 texts st.slots =
      .ok ((), s') := hwrites'
  rw [hwrites] at hwrites''
  obtain ⟨-, rfl⟩ := Prod.mk.inj (Except.ok.inj hwrites'')
  rw [← E.defs_types st.graph]
  exact Slots.HoldsTexts.of_readsExactly hholds h.transient hexact

end store

end Mkfli4l
