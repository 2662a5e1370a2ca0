import Mkfli4l.Lib.Exec
import Mkfli4l.Expression.Syntax

/-!
# Variables, definitions and slots

The data model of the variable subsystem (`var.h`, `var/core.h`, `var/slot.h`).

* `Var` is a variable object without its slots: name, type, level, array bound
  variable, clients, base priority and properties.
* `Defs` is what stays fixed while values are read and written: the live variable
  objects, the type system, and the condition and the default value expression
  that `var_get_condition` and `var_get_default_value` return for each of them.
  Its field `boundGraph` states the consistency of the links between arrays and
  their bounds.
* `Slots` holds the slots of all variables.  The slot of a variable `v` that is
  reached from `v->slot` by the indices `p` has the address `(v, p)`.  On a level
  below the level of the variable it is an array slot and `numSlots v p` is its
  `num_slots`; on the level of the variable it is an entry slot and `entry v p` is
  its content.  Two counters record events that leave no other trace: dependency
  cycles that were reported and arrays that were cleared.
-/

namespace Mkfli4l

open Lib

/-- `enum var_access_mode_t`. -/
inductive AccessMode
  | tentative
  | weak
  | strong
deriving DecidableEq, Repr

/-- `enum var_priority_t`. -/
inductive Priority
  | undefined
  | arrayBound
  | scriptTransient
  | configuration
  | supersede
  | scriptPersistent
deriving DecidableEq, Repr

namespace Priority

/-- The number behind the enumerator. -/
def toInt : Priority → Int
  | undefined => -1
  | arrayBound => 0
  | scriptTransient => 1
  | configuration => 2
  | supersede => 3
  | scriptPersistent => 4

theorem toInt_injective : Function.Injective toInt := by
  intro p q h
  cases p <;> cases q <;> first | rfl | (simp [toInt] at h)

instance : LinearOrder Priority := LinearOrder.lift' toInt toInt_injective

theorem undefined_le (p : Priority) : undefined ≤ p := by
  cases p <;> decide

end Priority

/-- `enum var_value_kind_t`. -/
inductive ValueKind
  | none
  | normal
  | default
  | disabled
deriving DecidableEq, Repr

/-- The extra data that the program attaches to slots (`slot_flags_t`). -/
structure SlotExtra where
  requested : Bool
  copied : Bool
deriving DecidableEq, Repr

/-- A variable type (`struct vartype_t *`). -/
abbrev VarTypeId := Nat

/-- The outcome of matching a value against a regular expression given as text:
an invalid expression, no match, or the text of the groups in front of the first
one that takes no part in the match. -/
inductive RegexResult
  | invalid
  | noMatch
  | groups (texts : List CString)
deriving DecidableEq, Repr

/-- What the variable subsystem uses of the type system (`vartype/`): matching a
value against a compiled type, the expression type of a type, the type of array
bounds, and matching against a temporary type.  The array bound type is the
predefined `0|[1-9][0-9]*`, which is compiled when it is created and can therefore
never be extended; of the texts that `%d` prints it accepts those without a sign. -/
structure TypeSystem where
  vartypeMatch : VarTypeId → CString → Bool
  vartypeGetExpressionType : VarTypeId → ExprType
  arrayBoundType : VarTypeId
  regexMatch : CString → CString → RegexResult
  arrayBoundType_formatInt : ∀ n : Int,
    vartypeMatch arrayBoundType (formatInt n) = decide (0 ≤ n)

/-- `struct var_properties_t`, without the comment and the user-defined data. -/
structure VarProperties where
  optional : Bool
  weak : Bool
  condition : Expr
  defValue : Option Expr
  disValue : Option CString
deriving DecidableEq, Repr

/-- The properties of an array bound variable that is created implicitly: it is weak and not
optional, and it is zero by default and when it is disabled. -/
def boundProps : VarProperties where
  optional := false
  weak := true
  condition := .literal (.boolean true)
  defValue := some (.literal (.integer 0))
  disValue := some ['0']

/-- `struct var_t` without slots, instances, template and cached expressions. -/
structure Var where
  name : CString
  type : VarTypeId
  level : Nat
  varN : Option VarId
  varNClients : List VarId
  priority : Priority
  props : VarProperties
deriving DecidableEq, Repr

/-- The consistency of the links between arrays and array bound variables. -/
structure BoundGraph (arrayBoundType : VarTypeId) (vars : VarId → Option Var) : Prop where
  bound : ∀ {v : VarId} {var : Var} {b : VarId}, vars v = some var → var.varN = some b →
    ∃ varN, vars b = some varN ∧ varN.level + 1 = var.level ∧ varN.type = arrayBoundType ∧
      varN.priority = var.priority ∧ varN.varNClients.count v = 1
  client : ∀ {b : VarId} {varN : Var} {v : VarId}, vars b = some varN → v ∈ varN.varNClients →
    ∃ var, vars v = some var ∧ var.varN = some b

/-- The consistency of the links of a list of variables, by evaluation. -/
def boundLinksOk (arrayBoundType : VarTypeId) (vars : List Var) : Bool :=
  (List.range vars.length).all fun v =>
    match vars[v]? with
    | none => true
    | some var =>
        (match var.varN with
          | none => true
          | some b =>
              match vars[b]? with
              | none => false
              | some varN =>
                  varN.level + 1 == var.level && varN.type == arrayBoundType &&
                    varN.priority == var.priority && varN.varNClients.count v == 1) &&
          var.varNClients.all fun c =>
            match vars[c]? with
            | none => false
            | some client => client.varN == some v

theorem BoundGraph.of_list {arrayBoundType : VarTypeId} {vars : List Var}
    (h : boundLinksOk arrayBoundType vars = true) :
    BoundGraph arrayBoundType fun v => vars[v]? := by
  have hat : ∀ {v : VarId} {var : Var}, vars[v]? = some var → v ∈ List.range vars.length := by
    intro v var hvar
    exact List.mem_range.mpr (List.getElem?_eq_some_iff.mp hvar).1
  rw [boundLinksOk, List.all_eq_true] at h
  constructor
  · intro v var b hvar hb
    have hv := h v (hat hvar)
    simp only [hvar, hb, Bool.and_eq_true] at hv
    cases hvarN : vars[b]? with
    | none => simp [hvarN] at hv
    | some varN =>
        simp only [hvarN, Bool.and_eq_true, beq_iff_eq] at hv
        exact ⟨varN, rfl, hv.1.1.1.1, hv.1.1.1.2, hv.1.1.2, hv.1.2⟩
  · intro b varN v hvarN hv
    have hb := h b (hat hvarN)
    simp only [hvarN, Bool.and_eq_true, List.all_eq_true] at hb
    have hclient := hb.2 v hv
    cases hvar : vars[v]? with
    | none => simp [hvar] at hclient
    | some var => exact ⟨var, rfl, by simpa [hvar] using hclient⟩

/-- Definitions that stay fixed while values are read and written. -/
structure Defs where
  types : TypeSystem
  vars : VarId → Option Var
  condition : VarId → Expr
  defValue : VarId → Option Expr
  matchArray : Option VarId
  boundGraph : BoundGraph types.arrayBoundType vars

/-- No condition and no default value contains a regular expression match. -/
def Defs.MatchFree (D : Defs) : Prop :=
  (∀ v, (D.condition v).matchFree = true) ∧
    ∀ v e, D.defValue v = some e → e.matchFree = true

/-- The entry part of `union varslot_t`. -/
structure SlotEntry where
  value : Option CString
  defValue : Option CString
  extra : Option SlotExtra
  priority : Priority
  readActive : Bool
deriving DecidableEq, Repr

/-- `var_slot_init` of an entry slot. -/
def SlotEntry.init : SlotEntry where
  value := none
  defValue := none
  extra := none
  priority := .undefined
  readActive := false

/-- The slots of all variables, by address. -/
structure Slots where
  numSlots : VarId → List UInt32 → UInt32
  entry : VarId → List UInt32 → SlotEntry
  cycles : Nat
  clears : Nat

namespace Slots

/-- The slots of variables that have been defined but never written. -/
def init : Slots where
  numSlots := fun _ _ => 0
  entry := fun _ _ => SlotEntry.init
  cycles := 0
  clears := 0

/-- Do the indices `rest` lead from the slot `(v, done)` to an allocated slot? -/
def reaches (s : Slots) (v : VarId) : List UInt32 → List UInt32 → Bool
  | _, [] => true
  | done, i :: rest => decide (i < s.numSlots v done) && s.reaches v (done ++ [i]) rest

/-- Is there an allocated slot at `(v, p)`? -/
def has (s : Slots) (v : VarId) (p : List UInt32) : Bool := s.reaches v [] p

/-- Overwrite the number of entries of an array slot. -/
def setNumSlots (s : Slots) (v : VarId) (p : List UInt32) (n : UInt32) : Slots :=
  { s with numSlots := fun u q => if u = v ∧ q = p then n else s.numSlots u q }

/-- Overwrite the content of an entry slot. -/
def setEntry (s : Slots) (v : VarId) (p : List UInt32) (e : SlotEntry) : Slots :=
  { s with entry := fun u q => if u = v ∧ q = p then e else s.entry u q }

/-- Change the content of an entry slot. -/
def updateEntry (s : Slots) (v : VarId) (p : List UInt32) (f : SlotEntry → SlotEntry) : Slots :=
  s.setEntry v p (f (s.entry v p))

/-- Count a dependency cycle that has been reported. -/
def reportCycle (s : Slots) : Slots := { s with cycles := s.cycles + 1 }

section setters

variable (s : Slots) (v : VarId) (p : List UInt32)

@[simp] theorem setNumSlots_entry (n : UInt32) : (s.setNumSlots v p n).entry = s.entry := rfl
@[simp] theorem setNumSlots_cycles (n : UInt32) : (s.setNumSlots v p n).cycles = s.cycles := rfl
@[simp] theorem setNumSlots_clears (n : UInt32) : (s.setNumSlots v p n).clears = s.clears := rfl
@[simp] theorem setEntry_numSlots (e : SlotEntry) : (s.setEntry v p e).numSlots = s.numSlots := rfl
@[simp] theorem setEntry_cycles (e : SlotEntry) : (s.setEntry v p e).cycles = s.cycles := rfl
@[simp] theorem setEntry_clears (e : SlotEntry) : (s.setEntry v p e).clears = s.clears := rfl

@[simp] theorem setNumSlots_numSlots (n : UInt32) (u : VarId) (q : List UInt32) :
    (s.setNumSlots v p n).numSlots u q = if u = v ∧ q = p then n else s.numSlots u q := rfl

@[simp] theorem setEntry_entry (e : SlotEntry) (u : VarId) (q : List UInt32) :
    (s.setEntry v p e).entry u q = if u = v ∧ q = p then e else s.entry u q := rfl

@[simp] theorem updateEntry_numSlots (f : SlotEntry → SlotEntry) :
    (s.updateEntry v p f).numSlots = s.numSlots := rfl
@[simp] theorem updateEntry_cycles (f : SlotEntry → SlotEntry) :
    (s.updateEntry v p f).cycles = s.cycles := rfl
@[simp] theorem updateEntry_clears (f : SlotEntry → SlotEntry) :
    (s.updateEntry v p f).clears = s.clears := rfl

@[simp] theorem updateEntry_entry (f : SlotEntry → SlotEntry) (u : VarId) (q : List UInt32) :
    (s.updateEntry v p f).entry u q =
      if u = v ∧ q = p then f (s.entry v p) else s.entry u q := rfl

end setters

/-! ### Allocated addresses -/

variable {s s' : Slots} {v : VarId}

@[simp] theorem has_nil : s.has v [] = true := rfl

theorem reaches_append (done p q : List UInt32) :
    s.reaches v done (p ++ q) = (s.reaches v done p && s.reaches v (done ++ p) q) := by
  induction p generalizing done with
  | nil => simp [reaches]
  | cons i p ih =>
      rw [List.cons_append, reaches, reaches, ih, Bool.and_assoc]
      simp

theorem has_append (p q : List UInt32) :
    s.has v (p ++ q) = (s.has v p && s.reaches v p q) := by
  simp [has, reaches_append]

/-- A sub-slot is allocated when its array slot is and its index is below `num_slots`. -/
@[simp] theorem has_concat_iff (p : List UInt32) (i : UInt32) :
    s.has v (p ++ [i]) = true ↔ s.has v p = true ∧ i < s.numSlots v p := by
  simp [has_append, reaches]

theorem has_of_append {p q : List UInt32} (h : s.has v (p ++ q) = true) : s.has v p = true := by
  rw [has_append] at h
  exact (Bool.and_eq_true_iff.mp h).1

theorem has_take {p : List UInt32} (h : s.has v p = true) (k : Nat) :
    s.has v (p.take k) = true := by
  have happ : p.take k ++ p.drop k = p := List.take_append_drop k p
  rw [← happ] at h
  exact has_of_append h

theorem has_of_numSlots_le
    (hle : ∀ q, s.has v q = true → s.numSlots v q ≤ s'.numSlots v q) {p : List UInt32}
    (h : s.has v p = true) : s'.has v p = true := by
  induction p using List.reverseRecOn with
  | nil => exact has_nil
  | append_singleton p i ih =>
      rw [has_concat_iff] at h ⊢
      exact ⟨ih h.1, UInt32.lt_of_lt_of_le h.2 (hle p h.1)⟩

theorem has_congr (h : ∀ q, s.numSlots v q = s'.numSlots v q) (p : List UInt32) :
    s.has v p = s'.has v p := by
  have hreach : ∀ done, s.reaches v done p = s'.reaches v done p := by
    induction p with
    | nil => intro done; rfl
    | cons i p ih => intro done; rw [reaches, reaches, h, ih]
  exact hreach []

@[simp] theorem reportCycle_has (p : List UInt32) : s.reportCycle.has v p = s.has v p := by
  apply has_congr
  intro _
  rfl

@[simp] theorem updateEntry_has (u : VarId) (q p : List UInt32) (f : SlotEntry → SlotEntry) :
    (s.updateEntry u q f).has v p = s.has v p := by
  apply has_congr
  intro _
  rfl

end Slots

structure VarValue where
  value : Option CString
  kind : ValueKind
  extra : Option SlotExtra
  priority : Priority
deriving DecidableEq, Repr

def varValueConvertToInteger (value : CString) : Option Int :=
  let r := strtol 0 value
  if r.erange = false ∧ r.rest = [] then some (toInt32 r.value) else none

def varValueConvertToBoolean (value : CString) : Option Bool :=
  if value = Literal.boolText true then some true
  else if value = Literal.boolText false then some false
  else none

/-- The ways in which a call fails to come back. -/
inductive Fault
  /-- A slot outside its array is dereferenced or overwritten. -/
  | outOfBounds
  /-- A NULL pointer or a destroyed object is dereferenced. -/
  | nullPointer
  /-- The call stack is exhausted. -/
  | stackOverflow
  /-- The call adds a variable, which leaves the fixed definitions. -/
  | definitionAdded
  /-- A signed integer overflows. -/
  | signedOverflow
  /-- A loop takes more rounds than the caller provides for. -/
  | roundsExhausted
deriving DecidableEq, Repr

/-- Computations on slots. -/
abbrev SlotExec (α : Type) := Exec Fault Slots α

/-- Dereference a variable pointer. -/
def Defs.deref (D : Defs) (v : VarId) : SlotExec Var :=
  match D.vars v with
  | some var => pure var
  | none => throw .nullPointer

/-- Dereference the slot at an address. -/
def derefSlot (v : VarId) (p : List UInt32) : SlotExec Unit := do
  let s ← get
  if s.has v p then pure () else throw .outOfBounds

end Mkfli4l
