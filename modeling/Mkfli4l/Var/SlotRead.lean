import Mkfli4l.Var.SlotArray

/-!
# Reading variable slots

The functions of `var/slot_read.c`, `var/slot.c` and `var/inst.c` that read a
variable instance.  Reading evaluates the condition and the default value of the
variable, evaluating an expression reads other variables, and evaluating a regular
expression match writes the array of matched groups; writing in turn reads and
writes array bounds.  The functions of this cycle are written against a record of
the functions they call, and `calls` ties the knot.

Messages to the log are not modelled.
-/

namespace Mkfli4l

open Lib Exec

/-- The arguments of `var_instance_do_set_value`. -/
structure SetRequest where
  inst : VarInstance
  value : Option CString
  extra : Option SlotExtra
  mode : AccessMode
  priority : Priority
  check : Bool
  ignoreBasePriority : Bool
deriving DecidableEq, Repr

/-- The outcome of `var_instance_do_set_value`: the value has been written (TRUE), a
tentative write has been ignored (TRUE), or the call has failed (FALSE). -/
inductive WriteResult
  | written
  | ignored
  | failed
deriving DecidableEq, Repr

/-- The functions that are called recursively, with the depth of the call stack that is
left for resizing arrays. -/
structure Callees where
  depth : Nat
  exprEvaluate : Expr → VarInstance → SlotExec Literal
  tryGetValue : VarInstance → SlotExec (Option VarValue)
  doSetValue : SetRequest → SlotExec WriteResult

/-- `var_instance_get_slot_for_reading`: the address of the slot, if there is one. -/
def varInstanceGetSlotForReading (s : Slots) (var : Var) (inst : VarInstance) :
    Option (List UInt32) :=
  if var.level < inst.indices.length then none
  else if s.has inst.var inst.indices then some inst.indices
  else none

theorem varInstanceGetSlotForReading_eq_some {s : Slots} {var : Var} {inst : VarInstance}
    {p : List UInt32} :
    varInstanceGetSlotForReading s var inst = some p ↔
      inst.indices.length ≤ var.level ∧ s.has inst.var inst.indices = true ∧
        inst.indices = p := by
  unfold varInstanceGetSlotForReading
  by_cases hlen : var.level < inst.indices.length
  · simp only [if_pos hlen, reduceCtorEq, false_iff, not_and]
    omega
  · by_cases hhas : s.has inst.var inst.indices = true
    · simp [hlen, hhas, Nat.not_lt.mp hlen]
    · simp [hlen, hhas]

/-- The instance of the array bound variable that an instance is checked against. -/
def boundInstance (D : Defs) (inst : VarInstance) : Option VarId → SlotExec VarInstance
  | none => throw .nullPointer
  | some b => do
      let varN ← D.deref b
      if inst.indices.length < varN.level then throw .outOfBounds
      else pure ⟨b, inst.indices.take varN.level⟩

/-- The conversion of a value that has been read to an integer. -/
def integerOfValue : Option VarValue → SlotExec (Option Int)
  | none => pure (some 0)
  | some ⟨none, _, _, _⟩ => throw .nullPointer
  | some ⟨some text, _, _, _⟩ => pure (varValueConvertToInteger text)

/-- Read an array bound and convert it to an integer.  An unset bound counts as zero;
`none` is a value that is not an integer. -/
def readArrayBound (c : Callees) (instN : VarInstance) : SlotExec (Option Int) := do
  let value ← c.tryGetValue instN
  integerOfValue value

def varCheckArrayBounds (D : Defs) (c : Callees) (var : Var) (inst : VarInstance) :
    SlotExec Bool := do
  let instN ← boundInstance D inst var.varN
  let bound ← readArrayBound c instN
  match bound, inst.indices[var.level - 1]? with
  | none, _ => pure false
  | some bound, some index => pure (decide (uint32ToInt index < bound))
  | some _, none => throw .outOfBounds

def varInstanceIsEnabled (D : Defs) (c : Callees) (inst : VarInstance) : SlotExec Bool := do
  let result ← c.exprEvaluate (D.condition inst.var) inst
  pure ((exprGetBooleanValue result).getD false)

/-- The part of `var_slot_get_value` that evaluates the default value of a slot and
caches it. -/
def cacheDefault (D : Defs) (c : Callees) (inst : VarInstance) : SlotExec Unit :=
  match D.defValue inst.var with
  | none => pure ()
  | some defValue => do
      let result ← c.exprEvaluate defValue inst
      derefSlot inst.var inst.indices
      match exprGetStringValue result with
      | some text =>
          modify fun s =>
            s.updateEntry inst.var inst.indices fun e => { e with defValue := some text }
      | none => pure ()

/-- The default value of a slot, which is evaluated once. -/
def slotDefaultValue (D : Defs) (c : Callees) (inst : VarInstance) : SlotExec (Option CString) := do
  let s ← get
  match (s.entry inst.var inst.indices).defValue with
  | some text => pure (some text)
  | none => do
      cacheDefault D c inst
      let s ← get
      pure (s.entry inst.var inst.indices).defValue

def varSlotGetValue (D : Defs) (c : Callees) (inst : VarInstance) : SlotExec VarValue := do
  let s ← get
  match (s.entry inst.var inst.indices).value with
  | some text =>
      pure ⟨some text, .normal, (s.entry inst.var inst.indices).extra,
        (s.entry inst.var inst.indices).priority⟩
  | none => do
      let text ← slotDefaultValue D c inst
      pure ⟨text, text.elim .none fun _ => .default, (s.entry inst.var inst.indices).extra,
        (s.entry inst.var inst.indices).priority⟩

/-- Set `read_active` of a slot. -/
def setReadActive (inst : VarInstance) (active : Bool) : SlotExec Unit :=
  modify fun s => s.updateEntry inst.var inst.indices fun e => { e with readActive := active }

/-- What `var_instance_read_value` returns for a slot with the given content. -/
def presentValue (var : Var) (enabled : Bool) (result : VarValue) : VarValue :=
  if enabled then result
  else { result with kind := .disabled, value := var.props.disValue }

/-- The part of `var_instance_read_value` behind the check of the indices. -/
def readCheckedValue (D : Defs) (c : Callees) (var : Var) (inst : VarInstance) :
    SlotExec (Option VarValue) := do
  derefSlot inst.var inst.indices
  let s ← get
  if (s.entry inst.var inst.indices).readActive then do
    -- the dependency cycle is reported
    modify Slots.reportCycle
    pure none
  else do
    setReadActive inst true
    let enabled ← varInstanceIsEnabled D c inst
    derefSlot inst.var inst.indices
    let result ← varSlotGetValue D c inst
    setReadActive inst false
    pure (some (presentValue var enabled result))

/-- The check of the indices in `var_instance_read_value`. -/
def indicesInBounds (D : Defs) (c : Callees) (var : Var) (inst : VarInstance) : SlotExec Bool :=
  if 0 < var.level then varCheckArrayBounds D c var inst else pure true

def varInstanceReadValue (D : Defs) (c : Callees) (inst : VarInstance) :
    SlotExec (Option VarValue) := do
  let var ← D.deref inst.var
  let inside ← indicesInBounds D c var inst
  if inside then readCheckedValue D c var inst else pure none

/-- A value without text counts as missing. -/
def dropUnset : Option VarValue → Option VarValue
  | some value => if value.value = none then none else some value
  | none => none

/-- `var_instance_do_get_value`, and thereby `var_instance_get_value` and
`var_instance_try_get_value`, which differ in what they log. -/
def varInstanceDoGetValue (D : Defs) (c : Callees) (inst : VarInstance) :
    SlotExec (Option VarValue) := do
  let var ← D.deref inst.var
  if inst.indices.length < var.level then pure none
  else do
    let s ← get
    match varInstanceGetSlotForReading s var inst with
    | none => pure none
    | some _ => do
        let result ← varInstanceReadValue D c inst
        pure (dropUnset result)

/-! ### What a read consists of -/

section cases

variable {D : Defs} {c : Callees} {inst : VarInstance} {s s' : Slots}

theorem cacheDefault_cases {u : Unit} (h : cacheDefault D c inst s = .ok (u, s')) :
    (D.defValue inst.var = none ∧ s' = s) ∨
      ∃ e lit s₁, D.defValue inst.var = some e ∧ c.exprEvaluate e inst s = .ok (lit, s₁) ∧
        s₁.has inst.var inst.indices = true ∧
        ((exprGetStringValue lit = none ∧ s' = s₁) ∨
          ∃ text, exprGetStringValue lit = some text ∧
            s' = s₁.updateEntry inst.var inst.indices
              fun e => { e with defValue := some text }) := by
  unfold cacheDefault at h
  cases hdef : D.defValue inst.var with
  | none =>
      rw [hdef] at h
      obtain ⟨-, rfl⟩ := pure_ok_iff.mp h
      exact Or.inl ⟨rfl, rfl⟩
  | some e =>
      rw [hdef] at h
      obtain ⟨lit, s₁, heval, hrun⟩ := bind_ok_iff.mp h
      obtain ⟨_, s₂, hslot, hrun⟩ := bind_ok_iff.mp hrun
      obtain ⟨hhas, rfl⟩ := derefSlot_ok_iff.mp hslot
      refine Or.inr ⟨e, lit, s₁, rfl, heval, hhas, ?_⟩
      cases htext : exprGetStringValue lit with
      | none =>
          rw [htext] at hrun
          exact Or.inl ⟨rfl, (pure_ok_iff.mp hrun).2.symm⟩
      | some text =>
          rw [htext] at hrun
          exact Or.inr ⟨text, rfl, (modify_ok_iff.mp hrun).symm⟩

theorem readCheckedValue_cases {var : Var} {r : Option VarValue}
    (h : readCheckedValue D c var inst s = .ok (r, s')) :
    s.has inst.var inst.indices = true ∧
      (((s.entry inst.var inst.indices).readActive = true ∧ r = none ∧ s' = s.reportCycle) ∨
        (s.entry inst.var inst.indices).readActive = false ∧
        ∃ enabled value s₁ s₂,
          varInstanceIsEnabled D c inst
            (s.updateEntry inst.var inst.indices fun e => { e with readActive := true }) =
              .ok (enabled, s₁) ∧
          varSlotGetValue D c inst s₁ = .ok (value, s₂) ∧
          r = some (presentValue var enabled value) ∧
          s' = s₂.updateEntry inst.var inst.indices fun e => { e with readActive := false }) := by
  obtain ⟨_, s₁, hslot, hrun⟩ := bind_ok_iff.mp h
  obtain ⟨hhas, rfl⟩ := derefSlot_ok_iff.mp hslot
  obtain ⟨t, s₁, hget, hrun⟩ := bind_ok_iff.mp hrun
  obtain ⟨rfl, rfl⟩ := get_ok_iff.mp hget
  refine ⟨hhas, ?_⟩
  split at hrun
  · next hactive =>
      obtain ⟨_, s₂, hcycle, hrun⟩ := bind_ok_iff.mp hrun
      obtain rfl := modify_ok_iff.mp hcycle
      obtain ⟨rfl, rfl⟩ := pure_ok_iff.mp hrun
      exact Or.inl ⟨hactive, rfl, rfl⟩
  · next hactive =>
      obtain ⟨_, s₁, hset, hrun⟩ := bind_ok_iff.mp hrun
      obtain rfl := modify_ok_iff.mp hset
      obtain ⟨enabled, s₂, henabled, hrun⟩ := bind_ok_iff.mp hrun
      obtain ⟨_, s₃, hslot', hrun⟩ := bind_ok_iff.mp hrun
      obtain ⟨-, rfl⟩ := derefSlot_ok_iff.mp hslot'
      obtain ⟨value, s₃, hvalue, hrun⟩ := bind_ok_iff.mp hrun
      obtain ⟨_, s₄, hreset, hrun⟩ := bind_ok_iff.mp hrun
      obtain rfl := modify_ok_iff.mp hreset
      obtain ⟨rfl, rfl⟩ := pure_ok_iff.mp hrun
      exact Or.inr ⟨Bool.eq_false_iff.mpr hactive, enabled, value, s₂, s₃, henabled, hvalue,
        rfl, rfl⟩

theorem slotDefaultValue_eq {text : Option CString}
    (h : slotDefaultValue D c inst s = .ok (text, s')) :
    text = (s'.entry inst.var inst.indices).defValue := by
  obtain ⟨t, s₁, hget, hrun⟩ := bind_ok_iff.mp h
  obtain ⟨rfl, rfl⟩ := get_ok_iff.mp hget
  cases hdef : (s.entry inst.var inst.indices).defValue with
  | some cached =>
      rw [hdef] at hrun
      obtain ⟨rfl, rfl⟩ := pure_ok_iff.mp hrun
      exact hdef.symm
  | none =>
      rw [hdef] at hrun
      obtain ⟨_, s₂, -, hrun⟩ := bind_ok_iff.mp hrun
      obtain ⟨t, s₃, hget, hrun⟩ := bind_ok_iff.mp hrun
      obtain ⟨rfl, rfl⟩ := get_ok_iff.mp hget
      obtain ⟨rfl, rfl⟩ := pure_ok_iff.mp hrun
      rfl

theorem varSlotGetValue_cases {value : VarValue}
    (h : varSlotGetValue D c inst s = .ok (value, s')) :
    (value.kind = .normal ∧ value.value = (s.entry inst.var inst.indices).value ∧ s' = s) ∨
      (value.kind = value.value.elim .none fun _ => .default) ∧
        value.value = (s'.entry inst.var inst.indices).defValue := by
  obtain ⟨t, s₁, hget, hrun⟩ := bind_ok_iff.mp h
  obtain ⟨rfl, rfl⟩ := get_ok_iff.mp hget
  cases hvalue : (s.entry inst.var inst.indices).value with
  | some text =>
      rw [hvalue] at hrun
      obtain ⟨rfl, rfl⟩ := pure_ok_iff.mp hrun
      exact Or.inl ⟨rfl, rfl, rfl⟩
  | none =>
      rw [hvalue] at hrun
      obtain ⟨text, s₂, hdefault, hrun⟩ := bind_ok_iff.mp hrun
      obtain ⟨rfl, rfl⟩ := pure_ok_iff.mp hrun
      exact Or.inr ⟨rfl, slotDefaultValue_eq hdefault⟩

theorem varInstanceReadValue_cases {r : Option VarValue}
    (h : varInstanceReadValue D c inst s = .ok (r, s')) :
    ∃ var s₁, D.vars inst.var = some var ∧
      ((indicesInBounds D c var inst s = .ok (false, s₁) ∧ r = none ∧ s' = s₁) ∨
        (indicesInBounds D c var inst s = .ok (true, s₁) ∧
          readCheckedValue D c var inst s₁ = .ok (r, s'))) := by
  obtain ⟨var, s₁, hderef, hrun⟩ := bind_ok_iff.mp h
  obtain ⟨hvar, rfl⟩ := Defs.deref_ok_iff.mp hderef
  obtain ⟨inside, s₁, hinside, hrun⟩ := bind_ok_iff.mp hrun
  refine ⟨var, s₁, hvar, ?_⟩
  cases inside with
  | false =>
      obtain ⟨rfl, rfl⟩ := pure_ok_iff.mp hrun
      exact Or.inl ⟨hinside, rfl, rfl⟩
  | true => exact Or.inr ⟨hinside, hrun⟩

theorem varInstanceDoGetValue_cases {r : Option VarValue}
    (h : varInstanceDoGetValue D c inst s = .ok (r, s')) :
    ∃ var, D.vars inst.var = some var ∧
      ((r = none ∧ s' = s ∧ (inst.indices.length < var.level ∨
          varInstanceGetSlotForReading s var inst = none)) ∨
        ∃ r', inst.indices.length = var.level ∧ s.has inst.var inst.indices = true ∧
          varInstanceReadValue D c inst s = .ok (r', s') ∧ r = dropUnset r') := by
  obtain ⟨var, s₁, hderef, hrun⟩ := bind_ok_iff.mp h
  obtain ⟨hvar, rfl⟩ := Defs.deref_ok_iff.mp hderef
  refine ⟨var, hvar, ?_⟩
  split at hrun
  · next hlen =>
      obtain ⟨rfl, rfl⟩ := pure_ok_iff.mp hrun
      exact Or.inl ⟨rfl, rfl, Or.inl hlen⟩
  · next hlen =>
      obtain ⟨t, s₁, hget, hrun⟩ := bind_ok_iff.mp hrun
      obtain ⟨rfl, rfl⟩ := get_ok_iff.mp hget
      cases hslot : varInstanceGetSlotForReading s var inst with
      | none =>
          rw [hslot] at hrun
          obtain ⟨rfl, rfl⟩ := pure_ok_iff.mp hrun
          exact Or.inl ⟨rfl, rfl, Or.inr rfl⟩
      | some p =>
          rw [hslot] at hrun
          obtain ⟨r', s₂, hread, hrun⟩ := bind_ok_iff.mp hrun
          obtain ⟨rfl, rfl⟩ := pure_ok_iff.mp hrun
          obtain ⟨hle, hhas, -⟩ := varInstanceGetSlotForReading_eq_some.mp hslot
          exact Or.inr ⟨r', by omega, hhas, hread, rfl⟩

end cases

end Mkfli4l
