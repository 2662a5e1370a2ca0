import Mkfli4l.Var.SlotArray

/-!
# From names to variable instances

A name denotes a variable instance.  `var_instance_create_from_string` takes the
classic notation `X_1_Y_2` apart; the reader of configuration files scans and parses
targets such as `X[1].Y[]` (`grammar/varass_scanner.l`, `grammar/varass_parser.y`) and
resolves their indices when the assignment is processed (`libmkfli4l/var.c`).

Looking up a variable by name is a parameter of both.  The scanner covers the
characters of targets; comments and byte order marks are left out, and whether an
identifier is well formed does not matter here, since assignments with malformed
identifiers are reported and processed.

Indices are one-based in names and zero-based in instances.  The module characterises
the names with an index that wraps to the largest `unsigned` number.
-/

namespace Mkfli4l

open Lib

/-! ### The classic notation -/

/-- `isdigit` of the first character. -/
def startsWithDigit : CString → Bool
  | c :: _ => c.isDigit
  | [] => false

/-- The loop of `var_instance_create_from_string`: every number behind a separator is replaced
by a placeholder.  The flag tells that a number is being skipped. -/
def splitIndices : Bool → CString → CString × List UInt32
  | _, [] => ([], [])
  | skip, c :: rest =>
      if skip && c.isDigit then splitIndices true rest
      else if c = '_' ∧ startsWithDigit rest = true then
        let tail := splitIndices true rest
        (c :: '%' :: tail.1, toUInt32 (atoi rest - 1) :: tail.2)
      else
        let tail := splitIndices false rest
        (c :: tail.1, tail.2)

def varInstanceCreateFromString (lookup : CString → Option VarId) (name : CString) :
    Option VarInstance :=
  match lookup name with
  | some v => some ⟨v, []⟩
  | none =>
      let split := splitIndices false name
      (lookup split.1).map fun v => ⟨v, split.2⟩

/-- The name has an index that reads as zero. -/
def HasZeroIndex (name : CString) : Prop :=
  ∃ rest, ('_' :: rest) <:+ name ∧ startsWithDigit rest = true ∧ atoi rest = 0

/-! ### Targets of assignments -/

inductive VarassIndex
  | absolute (number : UInt32)
  | nextFree
deriving DecidableEq, Repr

/-- `struct varass_target_t`.  The outermost target of a nested assignment has no name. -/
inductive VarassTarget
  | topLevel (id : Option CString)
  | structMember (parent : VarassTarget) (member : CString)
  | arrayMember (parent : VarassTarget) (index : VarassIndex)
deriving DecidableEq, Repr

/-- The tokens of a target. -/
inductive VarassToken
  | id (name : CString)
  | absoluteIndex (number : UInt32)
  | dot
  | lbracket
  | rbracket
  | unknown (c : Char)
deriving DecidableEq, Repr

/-- The token that the scanner is in the middle of, with its text so far. -/
inductive PendingToken
  | none
  | id (text : CString)
  | absoluteIndex (text : CString)
deriving DecidableEq, Repr

namespace PendingToken

/-- Does the character belong to the token? -/
def continues (c : Char) : PendingToken → Bool
  | none => false
  | id _ => c.isAlphanum || c == '_' || c == '%'
  | absoluteIndex _ => c.isDigit

/-- Add a character to the token. -/
def push (c : Char) : PendingToken → PendingToken
  | none => none
  | id text => id (text ++ [c])
  | absoluteIndex text => absoluteIndex (text ++ [c])

/-- The token that has been read. -/
def flush : PendingToken → List VarassToken
  | none => []
  | id text => [.id text]
  | absoluteIndex text => [.absoluteIndex (toUInt32 (atoi text))]

/-- What a character stands for between two tokens: a token of its own or the beginning of
one.  White space is skipped. -/
def start (c : Char) : List VarassToken × PendingToken :=
  if c = ' ' ∨ c = '\t' ∨ c = '\x0b' ∨ c = '\r' ∨ c = '\n' then ([], none)
  else if c = '.' then ([.dot], none)
  else if c = '[' then ([.lbracket], none)
  else if c = ']' then ([.rbracket], none)
  else if c.isDigit ∧ c ≠ '0' then ([], absoluteIndex [c])
  else if c.isAlpha then ([], id [c])
  else ([.unknown c], none)

end PendingToken

/-- The scanner. -/
def scanTarget : PendingToken → CString → List VarassToken
  | pending, [] => pending.flush
  | pending, c :: rest =>
      if pending.continues c then scanTarget (pending.push c) rest
      else pending.flush ++ (PendingToken.start c).1 ++ scanTarget (PendingToken.start c).2 rest

/-- The members and indices behind the first part of a target. -/
def parseTargetTail : VarassTarget → List VarassToken → Option VarassTarget
  | target, [] => some target
  | target, .dot :: .id member :: rest => parseTargetTail (.structMember target member) rest
  | target, .lbracket :: .absoluteIndex number :: .rbracket :: rest =>
      parseTargetTail (.arrayMember target (.absolute number)) rest
  | target, .lbracket :: .rbracket :: rest => parseTargetTail (.arrayMember target .nextFree) rest
  | _, _ => none

/-- The nonterminals `target` and `nested_target`. -/
def parseTarget (nested : Bool) : List VarassToken → Option VarassTarget
  | .id name :: rest =>
      if nested then parseTargetTail (.structMember (.topLevel none) name) rest
      else parseTargetTail (.topLevel (some name)) rest
  | .lbracket :: rest =>
      if nested then parseTargetTail (.topLevel none) (.lbracket :: rest) else none
  | _ => none

/-- `struct varass_eval_index_t`; an index without `absIndex` is not resolved yet. -/
structure VarassEvalIndex where
  index : VarassIndex
  absIndex : Option UInt32
deriving DecidableEq, Repr

def configProcessTargetPart : VarassTarget → CString × List VarassEvalIndex →
    CString × List VarassEvalIndex
  | .topLevel (some id), part => (part.1 ++ id, part.2)
  | .topLevel none, part => part
  | .structMember parent member, part =>
      let outer := configProcessTargetPart parent part
      (outer.1 ++ ['_'] ++ member, outer.2)
  | .arrayMember parent index, part =>
      let outer := configProcessTargetPart parent part
      (outer.1 ++ ['_', '%'], outer.2 ++ [⟨index, none⟩])

def varInstanceGetNextFreeIndex (s : Slots) (var : Var) (inst : VarInstance) : UInt32 :=
  if var.level ≤ inst.indices.length then 0
  else if s.has inst.var inst.indices then s.numSlots inst.var inst.indices
  else 0

/-- The absolute index of an array member, given the indices before it. -/
def VarassEvalIndex.resolve (s : Slots) (var : Var) (v : VarId) (done : List UInt32)
    (e : VarassEvalIndex) : UInt32 :=
  match e.absIndex, e.index with
  | some i, _ => i
  | none, .absolute number => number - 1
  | none, .nextFree => varInstanceGetNextFreeIndex s var ⟨v, done⟩

/-- The loop of `config_create_var_instance` over the indices. -/
def resolveIndices (s : Slots) (var : Var) (v : VarId) :
    List UInt32 → List VarassEvalIndex → List UInt32
  | done, [] => done
  | done, e :: rest => resolveIndices s var v (done ++ [e.resolve s var v done]) rest

def configCreateVarInstance (D : Defs) (lookup : CString → Option VarId) (s : Slots)
    (varName : CString) (indices : List VarassEvalIndex) : Option VarInstance :=
  match lookup varName with
  | none => varInstanceCreateFromString lookup varName
  | some v => (D.vars v).map fun var => ⟨v, resolveIndices s var v [] indices⟩

/-! ### Routes from text to an instance -/

/-- The ways in which text becomes a variable instance: a name in classic notation, or the
target of an assignment.  A nested assignment continues the name and the indices of the
assignments around it, some of which may have been resolved. -/
inductive NameRoute
  | classic (name : CString)
  | target (text : CString)
  | nestedTarget (outerName : CString) (outerIndices : List VarassEvalIndex) (text : CString)
deriving DecidableEq, Repr

namespace NameRoute

/-- The name and the indices that a target stands for. -/
def targetPart : NameRoute → Option (CString × List VarassEvalIndex)
  | classic _ => none
  | target text =>
      (parseTarget false (scanTarget .none text)).map fun t => configProcessTargetPart t ([], [])
  | nestedTarget outerName outerIndices text =>
      (parseTarget true (scanTarget .none text)).map fun t =>
        configProcessTargetPart t (outerName, outerIndices)

/-- The variable instance, if the text is accepted. -/
def varInstance (D : Defs) (lookup : CString → Option VarId) (s : Slots) (route : NameRoute) :
    Option VarInstance :=
  match route with
  | classic name => varInstanceCreateFromString lookup name
  | _ => route.targetPart.bind fun part => configCreateVarInstance D lookup s part.1 part.2

end NameRoute

/-! ### Indices that wrap -/

/-- The number of an index is a multiple of `2^32`, or all entries of the array are taken. -/
def VarassEvalIndex.Wraps (s : Slots) (var : Var) (v : VarId) (done : List UInt32)
    (e : VarassEvalIndex) : Prop :=
  match e.absIndex, e.index with
  | some i, _ => i = uintMax
  | none, .absolute number => number = 0
  | none, .nextFree =>
      done.length < var.level ∧ s.has v done = true ∧ s.numSlots v done = uintMax

/-- Some index of a target wraps. -/
def IndicesWrap (s : Slots) (var : Var) (v : VarId) :
    List UInt32 → List VarassEvalIndex → Prop
  | _, [] => False
  | done, e :: rest =>
      e.Wraps s var v done ∨ IndicesWrap s var v (done ++ [e.resolve s var v done]) rest

/-- Some index of a name wraps when it is converted. -/
def NameWraps (lookup : CString → Option VarId) (name : CString) : Prop :=
  lookup name = none ∧ HasZeroIndex name

/-- Some index of the text wraps when it is converted. -/
def NameRoute.Wraps (D : Defs) (lookup : CString → Option VarId) (s : Slots) :
    NameRoute → Prop
  | .classic name => NameWraps lookup name
  | route =>
      ∃ part, route.targetPart = some part ∧
        (NameWraps lookup part.1 ∨
          ∃ v var, lookup part.1 = some v ∧ D.vars v = some var ∧
            IndicesWrap s var v [] part.2)

theorem mem_splitIndices {skip : Bool} {name : CString} {i : UInt32} :
    i ∈ (splitIndices skip name).2 ↔
      ∃ rest, ('_' :: rest) <:+ name ∧ startsWithDigit rest = true ∧
        i = toUInt32 (atoi rest - 1) := by
  induction name generalizing skip with
  | nil => simp [splitIndices]
  | cons c name ih =>
      have hcons : (∃ rest, ('_' :: rest) <:+ (c :: name) ∧ startsWithDigit rest = true ∧
          i = toUInt32 (atoi rest - 1)) ↔
          ((c = '_' ∧ startsWithDigit name = true ∧ i = toUInt32 (atoi name - 1)) ∨
            ∃ rest, ('_' :: rest) <:+ name ∧ startsWithDigit rest = true ∧
              i = toUInt32 (atoi rest - 1)) := by
        constructor
        · rintro ⟨rest, hsuffix, hdigit, hi⟩
          rcases List.suffix_cons_iff.mp hsuffix with heq | hsuffix
          · obtain ⟨rfl, rfl⟩ := List.cons.inj heq
            exact Or.inl ⟨rfl, hdigit, hi⟩
          · exact Or.inr ⟨rest, hsuffix, hdigit, hi⟩
        · rintro (⟨rfl, hdigit, hi⟩ | ⟨rest, hsuffix, hdigit, hi⟩)
          · exact ⟨name, List.suffix_rfl, hdigit, hi⟩
          · exact ⟨rest, hsuffix.trans (List.suffix_cons c name), hdigit, hi⟩
      rw [hcons, splitIndices]
      by_cases hskip : (skip && c.isDigit) = true
      · rw [if_pos hskip, ih]
        have hne : c ≠ '_' := by
          rintro rfl
          simp at hskip
        simp [hne]
      · rw [if_neg hskip]
        by_cases hindex : c = '_' ∧ startsWithDigit name = true
        · rw [if_pos hindex]
          simp [hindex.1, hindex.2, ih]
        · rw [if_neg hindex]
          simp only [ih]
          constructor
          · exact Or.inr
          · rintro (⟨hc, hdigit, -⟩ | hrest)
            · exact absurd ⟨hc, hdigit⟩ hindex
            · exact hrest

theorem toUInt32_atoi_sub_one_eq_uintMax {text : CString} :
    toUInt32 (atoi text - 1) = uintMax ↔ atoi text = 0 := by
  have hrange : -2147483648 ≤ atoi text ∧ atoi text < 2147483648 := by
    unfold atoi toInt32
    split <;> omega
  rw [← UInt32.toNat_inj]
  have hmax : uintMax.toNat = 4294967295 := rfl
  rw [hmax, toUInt32, UInt32.toNat_ofNat']
  omega

theorem splitIndices_uintMax {name : CString} :
    uintMax ∈ (splitIndices false name).2 ↔ HasZeroIndex name := by
  rw [mem_splitIndices]
  constructor
  · rintro ⟨rest, hsuffix, hdigit, hi⟩
    exact ⟨rest, hsuffix, hdigit, toUInt32_atoi_sub_one_eq_uintMax.mp hi.symm⟩
  · rintro ⟨rest, hsuffix, hdigit, hzero⟩
    exact ⟨rest, hsuffix, hdigit, (toUInt32_atoi_sub_one_eq_uintMax.mpr hzero).symm⟩

theorem varInstanceCreateFromString_uintMax {lookup : CString → Option VarId} {name : CString}
    {inst : VarInstance} (h : varInstanceCreateFromString lookup name = some inst) :
    uintMax ∈ inst.indices ↔ NameWraps lookup name := by
  unfold varInstanceCreateFromString at h
  cases hfound : lookup name with
  | some v =>
      rw [hfound] at h
      obtain rfl := Option.some.inj h
      simp [NameWraps, hfound]
  | none =>
      rw [hfound] at h
      obtain ⟨v, -, rfl⟩ := Option.map_eq_some_iff.mp h
      rw [splitIndices_uintMax]
      simp [NameWraps, hfound]

theorem VarassEvalIndex.resolve_eq_uintMax {s : Slots} {var : Var} {v : VarId}
    {done : List UInt32} {e : VarassEvalIndex} :
    e.resolve s var v done = uintMax ↔ e.Wraps s var v done := by
  obtain ⟨index, absIndex⟩ := e
  cases absIndex with
  | some i => exact Iff.rfl
  | none =>
      cases index with
      | absolute number =>
          change number - 1 = uintMax ↔ number = 0
          constructor
          · intro h
            have hadd : number - 1 + 1 = uintMax + 1 := by rw [h]
            rwa [UInt32.sub_add_cancel, uintMax_add_one] at hadd
          · rintro rfl
            decide
      | nextFree =>
          change varInstanceGetNextFreeIndex s var ⟨v, done⟩ = uintMax ↔
            done.length < var.level ∧ s.has v done = true ∧ s.numSlots v done = uintMax
          have hzero : (0 : UInt32) ≠ uintMax := by decide
          unfold varInstanceGetNextFreeIndex
          by_cases hlevel : var.level ≤ done.length
          · simp [hlevel, hzero, Nat.not_lt.mpr hlevel]
          · by_cases hhas : s.has v done = true
            · simp [hlevel, hhas, Nat.not_le.mp hlevel]
            · simp [hlevel, hhas, hzero]

theorem mem_resolveIndices_uintMax {s : Slots} {var : Var} {v : VarId} {done : List UInt32}
    {indices : List VarassEvalIndex} :
    uintMax ∈ resolveIndices s var v done indices ↔
      uintMax ∈ done ∨ IndicesWrap s var v done indices := by
  induction indices generalizing done with
  | nil => simp [resolveIndices, IndicesWrap]
  | cons e indices ih =>
      rw [resolveIndices, ih, IndicesWrap, List.mem_append, List.mem_singleton,
        ← VarassEvalIndex.resolve_eq_uintMax, or_assoc, eq_comm]

/-- Whatever route text takes to an instance, the largest index comes from an index that
wraps. -/
theorem NameRoute.uintMax_mem_iff {D : Defs} {lookup : CString → Option VarId} {s : Slots}
    {route : NameRoute} {inst : VarInstance}
    (h : route.varInstance D lookup s = some inst) :
    uintMax ∈ inst.indices ↔ route.Wraps D lookup s := by
  have htarget : ∀ part : CString × List VarassEvalIndex,
      configCreateVarInstance D lookup s part.1 part.2 = some inst →
      (uintMax ∈ inst.indices ↔ (NameWraps lookup part.1 ∨
        ∃ v var, lookup part.1 = some v ∧ D.vars v = some var ∧
          IndicesWrap s var v [] part.2)) := by
    intro part hpart
    unfold configCreateVarInstance at hpart
    cases hfound : lookup part.1 with
    | none =>
        rw [hfound] at hpart
        rw [varInstanceCreateFromString_uintMax hpart]
        simp
    | some v =>
        rw [hfound] at hpart
        obtain ⟨var, hvar, rfl⟩ := Option.map_eq_some_iff.mp hpart
        rw [mem_resolveIndices_uintMax]
        simp [NameWraps, hfound, hvar]
  cases route with
  | classic name => exact varInstanceCreateFromString_uintMax h
  | target text =>
      obtain ⟨part, hpart, hinst⟩ := Option.bind_eq_some_iff.mp h
      rw [htarget part hinst]
      simp only [NameRoute.Wraps, hpart, Option.some.injEq, exists_eq_left']
  | nestedTarget outerName outerIndices text =>
      obtain ⟨part, hpart, hinst⟩ := Option.bind_eq_some_iff.mp h
      rw [htarget part hinst]
      simp only [NameRoute.Wraps, hpart, Option.some.injEq, exists_eq_left']

end Mkfli4l
