import Mkfli4l.Var.SlotRead

/-!
# Writing variable slots

The functions of `var/slot_write.c` that write values: `var_update_array_bound`,
`var_instance_get_slot_for_writing`, `var_instance_do_set_value`,
`var_instance_set_value`, `var_instance_set_and_check_value` and
`var_instance_clear`.
-/

namespace Mkfli4l

open Lib

/-- What `var_instance_get_slot_for_writing` reports: the slot, NULL with
`access_failed`, or NULL for excessive indices. -/
inductive SlotAccess
  | granted
  | rejected
  | invalid
deriving DecidableEq, Repr

/-- The write request of an internal bound update. -/
def boundRequest (instN : VarInstance) (newBound : Int) : SetRequest where
  inst := instN
  value := some (formatInt newBound)
  extra := none
  mode := .tentative
  priority := .arrayBound
  check := true
  ignoreBasePriority := true

/-- The comparison at the end of `var_update_array_bound`. -/
def boundReached (newBound : Int) : Option VarValue → SlotExec Bool
  | none => pure (decide (0 = newBound))
  | some ⟨none, _, _, _⟩ => throw .nullPointer
  | some ⟨some text, _, _, _⟩ => pure (decide (toInt32 (strtol 0 text).value = newBound))

def varUpdateArrayBound (D : Defs) (c : Callees) (inst : VarInstance) (varN : Option VarId)
    (newBound : Int) : SlotExec Bool := do
  let instN ← boundInstance D inst varN
  let bound ← readArrayBound c instN
  match bound with
  | none => pure false
  | some oldBound =>
      if oldBound < newBound then do
        let _ ← c.doSetValue (boundRequest instN newBound)
        let value ← c.tryGetValue instN
        boundReached newBound value
      else pure true

/-- May a request with this mode and priority change a slot of the given priority? -/
def AccessMode.admits (mode : AccessMode) (priority slotPriority : Priority) : Bool :=
  match mode with
  | .strong => decide (slotPriority < priority)
  | .weak => decide (slotPriority ≤ priority)
  | .tentative => decide (slotPriority ≤ priority)

/-- The part of `var_instance_get_slot_for_writing` that updates the array bound. -/
def raiseBound (D : Defs) (c : Callees) (var : Var) (inst : VarInstance) : SlotExec Unit :=
  match inst.indices.getLast? with
  | none => pure ()
  | some last => do
      let _ ← varUpdateArrayBound D c inst var.varN (uint32ToInt (last + 1))
      pure ()

/-- The part of `var_instance_get_slot_for_writing` behind the checks of the base
priority and of the number of indices. -/
def openSlot (D : Defs) (c : Callees) (var : Var) (inst : VarInstance) (mode : AccessMode)
    (priority : Priority) : SlotExec SlotAccess := do
  raiseBound D c var inst
  varSlotGetOrCreate D c.depth inst
  derefSlot inst.var inst.indices
  let s ← get
  let slotPriority :=
    varSlotGetPriority s inst.var (var.level - inst.indices.length) inst.indices
  if mode.admits priority slotPriority then pure .granted else pure .rejected

def varInstanceGetSlotForWriting (D : Defs) (c : Callees) (inst : VarInstance)
    (mode : AccessMode) (priority : Priority) (ignoreBasePriority : Bool) :
    SlotExec SlotAccess := do
  let var ← D.deref inst.var
  if ignoreBasePriority = false ∧ priority < var.priority then pure .rejected
  else if var.level < inst.indices.length then pure .invalid
  else openSlot D c var inst mode priority

/-- The number that a stored bound stands for while the clients are adapted. -/
def boundNumber (value : Option CString) : Int :=
  (value.bind varValueConvertToInteger).getD 0

/-- The part of `var_instance_do_set_value` that replaces the value of the slot and
extends the arrays of the clients. -/
def storeValue (D : Defs) (depth : Nat) (var : Var) (inst : VarInstance) (value : CString) :
    SlotExec Unit := do
  let s ← get
  let oldBound := boundNumber (s.entry inst.var inst.indices).value
  modify fun s => s.updateEntry inst.var inst.indices fun e => { e with value := some value }
  let newBound := boundNumber (some value)
  if oldBound < newBound then
    forM var.varNClients fun client =>
      -- note that indices are zero-based
      varSlotGetOrCreate D depth ⟨client, inst.indices ++ [toUInt32 (newBound - 1)]⟩
  else pure ()

/-- The value of a request is optional. -/
def storeOptionalValue (D : Defs) (depth : Nat) (var : Var) (inst : VarInstance) :
    Option CString → SlotExec Unit
  | some value => storeValue D depth var inst value
  | none => pure ()

/-- The part of `var_instance_do_set_value` that changes the slot. -/
def commit (D : Defs) (depth : Nat) (var : Var) (r : SetRequest) : SlotExec Unit := do
  storeOptionalValue D depth var r.inst r.value
  modify fun s =>
    s.updateEntry r.inst.var r.inst.indices fun e =>
      { e with extra := r.extra.or e.extra, priority := r.priority }

/-- The type check of `var_instance_do_set_value`; its callers guarantee that there is a
value to check. -/
def conforms (D : Defs) (var : Var) (r : SetRequest) : SlotExec Bool :=
  match r.check, r.value with
  | false, _ => pure true
  | true, some value => pure (D.types.vartypeMatch var.type value)
  | true, none => throw .nullPointer

def varInstanceDoSetValue (D : Defs) (c : Callees) (r : SetRequest) : SlotExec WriteResult := do
  let var ← D.deref r.inst.var
  if r.inst.indices.length < var.level then pure .failed
  else do
    let access ←
      varInstanceGetSlotForWriting D c r.inst r.mode r.priority r.ignoreBasePriority
    match access with
    | .invalid => pure .failed
    | .rejected => pure (if r.mode = .tentative then .ignored else .failed)
    | .granted => do
        let ok ← conforms D var r
        if ok then do
          commit D c.depth var r
          pure .written
        else pure .failed

def varInstanceSetAndCheckValue (D : Defs) (c : Callees) (inst : VarInstance)
    (value : Option CString) (extra : Option SlotExtra) (mode : AccessMode)
    (priority : Priority) : SlotExec WriteResult :=
  match value with
  | none => pure .failed
  | some text => varInstanceDoSetValue D c ⟨inst, some text, extra, mode, priority, true, false⟩

def varInstanceSetValue (D : Defs) (c : Callees) (inst : VarInstance)
    (value : Option CString) (extra : Option SlotExtra) (mode : AccessMode)
    (priority : Priority) : SlotExec WriteResult :=
  if value = none ∧ extra = none then pure .ignored
  else varInstanceDoSetValue D c ⟨inst, value, extra, mode, priority, false, false⟩

/-- The loop of `var_instance_clear` that looks for the bound of the cleared level. -/
def boundAbove (D : Defs) : Nat → Option VarId → SlotExec VarId
  | _, none => throw .nullPointer
  | 0, some b => pure b
  | steps + 1, some b => do
      let varN ← D.deref b
      boundAbove D steps varN.varN

/-- `var_slot_destroy` of an array slot. -/
def Slots.clearArray (s : Slots) (v : VarId) (p : List UInt32) : Slots :=
  { s.setNumSlots v p 0 with clears := s.clears + 1 }

def varInstanceClear (D : Defs) (c : Callees) (inst : VarInstance) (mode : AccessMode)
    (priority : Priority) : SlotExec Bool := do
  let var ← D.deref inst.var
  if inst.indices.length = var.level then pure false
  else do
    let access ← varInstanceGetSlotForWriting D c inst mode priority false
    match access with
    | .invalid => pure false
    | .rejected => pure (decide (mode = .tentative))
    | .granted => do
        modify fun s => s.clearArray inst.var inst.indices
        let b ← boundAbove D (var.level - (inst.indices.length + 1)) var.varN
        let _ ← c.doSetValue (boundRequest ⟨b, inst.indices⟩ 0)
        pure true

end Mkfli4l
