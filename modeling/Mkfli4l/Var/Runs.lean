import Mkfli4l.Var.Effects

/-!
# Runs of write calls

Clients of the variable subsystem write values with `var_instance_set_value` and
`var_instance_set_and_check_value`.  A run is any sequence of such calls, whether
they succeed or not.  The module describes what committing a write request does and
reduces invariants of runs to invariants of moves.
-/

namespace Mkfli4l

open Lib Exec

/-- A call of a client. -/
inductive Call
  | setValue (inst : VarInstance) (value : Option CString) (extra : Option SlotExtra)
      (mode : AccessMode) (priority : Priority)
  | setAndCheckValue (inst : VarInstance) (value : Option CString) (extra : Option SlotExtra)
      (mode : AccessMode) (priority : Priority)
deriving DecidableEq, Repr

namespace Call

/-- The request that the call hands on to `var_instance_do_set_value`. -/
def request : Call → SetRequest
  | setValue inst value extra mode priority => ⟨inst, value, extra, mode, priority, false, false⟩
  | setAndCheckValue inst value extra mode priority =>
      ⟨inst, value, extra, mode, priority, true, false⟩

/-- Execute a call. -/
def exec (D : Defs) (c : Callees) : Call → SlotExec WriteResult
  | setValue inst value extra mode priority => varInstanceSetValue D c inst value extra mode priority
  | setAndCheckValue inst value extra mode priority =>
      varInstanceSetAndCheckValue D c inst value extra mode priority

@[simp] theorem request_ignoreBasePriority (call : Call) :
    call.request.ignoreBasePriority = false := by
  cases call <;> rfl

theorem exec_cases (D : Defs) (c : Callees) (call : Call) :
    (∃ res, res ≠ .written ∧ call.exec D c = pure res) ∨
      call.exec D c = varInstanceDoSetValue D c call.request := by
  cases call with
  | setValue inst value extra mode priority =>
      by_cases hnone : value = none ∧ extra = none
      · exact Or.inl ⟨.ignored, by decide, if_pos hnone⟩
      · exact Or.inr (if_neg hnone)
  | setAndCheckValue inst value extra mode priority =>
      cases value with
      | none => exact Or.inl ⟨.failed, by decide, rfl⟩
      | some text => exact Or.inr rfl

theorem exec_ok {D : Defs} {depth : Nat} {call : Call} {res : WriteResult} {s s' : Slots}
    (h : call.exec D (calls D depth) s = .ok (res, s')) :
    (res ≠ .written ∧ InternalMoves D s s') ∨
      (res = .written ∧ ∃ s₁ var, InternalMoves D s s₁ ∧ Granted D s₁ call.request var ∧
        commit D (calls D depth).depth var call.request s₁ = .ok ((), s')) := by
  rcases exec_cases D (calls D depth) call with ⟨res', hres', hexec⟩ | hexec
  · rw [hexec] at h
    obtain ⟨rfl, rfl⟩ := pure_ok_iff.mp h
    exact Or.inl ⟨hres', Relation.ReflTransGen.refl⟩
  · rw [hexec] at h
    exact varInstanceDoSetValue_ok (calls_sound D depth) h

theorem exec_moves {D : Defs} {depth : Nat} {call : Call} {res : WriteResult} {s s' : Slots}
    (h : call.exec D (calls D depth) s = .ok (res, s')) :
    Moves D (fun r => Internal D r ∨ r = call.request) s s' := by
  rcases exec_ok h with ⟨-, hmoves⟩ | ⟨-, s₁, var, hmoves, hgranted, hcommit⟩
  · exact hmoves.mono fun _ => Or.inl
  · exact (hmoves.mono fun _ => Or.inl).tail (Move.write (Or.inr rfl) hgranted hcommit)

end Call

/-- One call of a run, at some depth of the call stack. -/
def CallStep (D : Defs) (s s' : Slots) : Prop :=
  ∃ (depth : Nat) (call : Call) (res : WriteResult),
    call.exec D (calls D depth) s = .ok (res, s')

/-- A run of write calls. -/
abbrev Run (D : Defs) : Slots → Slots → Prop := Relation.ReflTransGen (CallStep D)

theorem Run.moves {D : Defs} {s s' : Slots} (h : Run D s s') : Moves D (fun _ => True) s s' := by
  induction h with
  | refl => exact Relation.ReflTransGen.refl
  | tail _ hstep ih =>
      obtain ⟨depth, call, res, hexec⟩ := hstep
      exact ih.trans ((Call.exec_moves hexec).mono fun _ _ => trivial)

/-! ### Committing a request -/

/-- The content of a slot after a write request has been committed. -/
def SetRequest.applied (r : SetRequest) (e : SlotEntry) : SlotEntry :=
  { e with
    value := r.value.or e.value
    extra := r.extra.or e.extra
    priority := r.priority }

section committing

variable {D : Defs} {depth : Nat} {var : Var} {s s' : Slots}

variable {value : CString} {n : Int}

theorem storeValue_ok {inst : VarInstance} (h : storeValue D depth var inst value s = .ok ((), s')) :
    (s.updateEntry inst.var inst.indices fun e => { e with value := some value }).Grows D s' ∧
      (boundNumber (s.entry inst.var inst.indices).value < boundNumber (some value) →
        ∀ client ∈ var.varNClients, ∃ s₁ s₂,
          varSlotGetOrCreate D depth
            ⟨client, inst.indices ++ [toUInt32 (boundNumber (some value) - 1)]⟩ s₁ = .ok ((), s₂) ∧
          s₂.Grows D s') := by
  obtain ⟨t, s₁, hget, hrun⟩ := bind_ok_iff.mp h
  obtain ⟨rfl, rfl⟩ := get_ok_iff.mp hget
  obtain ⟨_, s₂, hset, hrun⟩ := bind_ok_iff.mp hrun
  obtain rfl := modify_ok_iff.mp hset
  have hrounds : ∀ client ∈ var.varNClients, CreatesOnly D (varSlotGetOrCreate D depth
      ⟨client, inst.indices ++ [toUInt32 (boundNumber (some value) - 1)]⟩) :=
    fun client _ => varSlotGetOrCreate_creates depth _
  split at hrun
  · refine ⟨CreatesOnly.forM _ hrounds hrun, fun _ client hclient => ?_⟩
    obtain ⟨s₁, s₂, -, hround, hafter⟩ := Exec.Steps.forM_mem Slots.Grows.refl
      (fun _ _ _ h h' => h.trans h') hrounds hrun hclient
    exact ⟨s₁, s₂, hround, hafter⟩
  · next hnot =>
      obtain ⟨-, rfl⟩ := pure_ok_iff.mp hrun
      exact ⟨Slots.Grows.refl _, fun hlt => absurd hlt hnot⟩

theorem storeValue_of_le {inst : VarInstance}
    (hle : boundNumber (some value) ≤ boundNumber (s.entry inst.var inst.indices).value)
    (h : storeValue D depth var inst value s = .ok ((), s')) :
    s' = s.updateEntry inst.var inst.indices fun e => { e with value := some value } := by
  obtain ⟨t, s₁, hget, hrun⟩ := bind_ok_iff.mp h
  obtain ⟨rfl, rfl⟩ := get_ok_iff.mp hget
  obtain ⟨_, s₂, hset, hrest⟩ := bind_ok_iff.mp hrun
  obtain rfl := modify_ok_iff.mp hset
  rw [if_neg (not_lt.mpr hle)] at hrest
  exact (pure_ok_iff.mp hrest).2.symm

theorem commit_grows {r : SetRequest} (hhas : s.has r.inst.var r.inst.indices = true)
    (h : commit D depth var r s = .ok ((), s')) :
    (s.updateEntry r.inst.var r.inst.indices r.applied).Grows D s' := by
  obtain ⟨s₁, hstore, rfl⟩ := commit_ok h
  have hmerge : ∀ f g : SlotEntry → SlotEntry,
      (s.updateEntry r.inst.var r.inst.indices f).updateEntry r.inst.var r.inst.indices g =
        s.updateEntry r.inst.var r.inst.indices fun e => g (f e) := by
    intro f g
    simp only [Slots.updateEntry, Slots.setEntry, and_self, if_true, Slots.mk.injEq, true_and,
      and_true]
    funext v p
    split <;> rfl
  cases hvalue : r.value with
  | none =>
      rw [hvalue] at hstore
      obtain ⟨-, rfl⟩ := pure_ok_iff.mp hstore
      have happlied : r.applied = fun e : SlotEntry =>
          { e with extra := r.extra.or e.extra, priority := r.priority } := by
        funext e
        simp [SetRequest.applied, hvalue]
      rw [happlied]
      exact Slots.Grows.refl _
  | some value =>
      rw [hvalue] at hstore
      have hgrows := (storeValue_ok hstore).1
      have happlied : r.applied = fun e : SlotEntry =>
          { { e with value := some value } with
            extra := r.extra.or e.extra, priority := r.priority } := by
        funext e
        simp [SetRequest.applied, hvalue]
      have hboth := hgrows.updateEntry (u := r.inst.var) (q := r.inst.indices)
        (by rwa [Slots.updateEntry_has]) fun e =>
          { e with extra := r.extra.or e.extra, priority := r.priority }
      rwa [hmerge, ← happlied] at hboth

theorem varValueConvertToInteger_range {text : CString}
    (h : varValueConvertToInteger text = some n) : -2147483648 ≤ n ∧ n < 2147483648 := by
  unfold varValueConvertToInteger at h
  simp only at h
  split at h
  · obtain rfl := Option.some.inj h
    unfold toInt32
    split <;> omega
  · contradiction

theorem boundNumber_some {text : CString}
    (h : varValueConvertToInteger text = some n) : boundNumber (some text) = n := by
  simp [boundNumber, h]

theorem boundNumber_pos {value : Option CString} (h : 0 < boundNumber value) :
    ∃ text, value = some text ∧ varValueConvertToInteger text = some (boundNumber value) := by
  cases value with
  | none => simp [boundNumber] at h
  | some text =>
      cases hconv : varValueConvertToInteger text with
      | none => simp [boundNumber, hconv] at h
      | some n => exact ⟨text, rfl, by rw [boundNumber_some hconv, hconv]⟩

theorem commit_extends {r : SetRequest}
    (hgranted : Granted D s r var) (h : commit D depth var r s = .ok ((), s'))
    (hvalue : r.value = some value) (hn : varValueConvertToInteger value = some n)
    (hraise : boundNumber (s.entry r.inst.var r.inst.indices).value < n) (hpos : 0 < n)
    {client : VarId} (hclient : client ∈ var.varNClients) :
    s'.has client (r.inst.indices ++ [toUInt32 (n - 1)]) = true := by
  obtain ⟨s₁, hstore, rfl⟩ := commit_ok h
  rw [hvalue] at hstore
  have hnumber := boundNumber_some hn
  obtain ⟨s₂, s₃, hcreate, hgrows⟩ :=
    (storeValue_ok hstore).2 (by rwa [hnumber]) client hclient
  rw [hnumber] at hcreate
  obtain ⟨cvar, hcvar, hcbound⟩ := D.boundGraph.client hgranted.var_eq hclient
  obtain ⟨var', hvar', hlevel, -⟩ := D.boundGraph.bound hcvar hcbound
  obtain rfl : var = var' := Option.some.inj (hgranted.var_eq.symm.trans hvar')
  have hrange := varValueConvertToInteger_range hn
  rw [Slots.updateEntry_has]
  refine hgrows.has (varSlotGetOrCreate_has hcvar ?_ ?_ hcreate)
  · simp only [List.length_append, List.length_singleton]
    have hlen := hgranted.length_eq
    omega
  · intro i hi
    rcases List.mem_append.mp hi with hi | hi
    · exact Slots.ne_uintMax_of_has hgranted.has i hi
    · obtain rfl := List.mem_singleton.mp hi
      intro hmax
      have htoNat := toNat_toUInt32 (n := n - 1) (by omega) (by omega)
      rw [hmax] at htoNat
      have : ((4294967295 : Nat) : Int) = n - 1 := htoNat
      omega

end committing

/-! ### Invariants -/

variable {A : SetRequest → Prop}

theorem Move.clears_le {D : Defs} {s s' : Slots} (h : Move D A s s') : s.clears ≤ s'.clears := by
  cases h with
  | cacheDefault hhas htext => exact Nat.le_refl _
  | readActive inst active => exact Nat.le_refl _
  | cycle => exact Nat.le_refl _
  | create hgrows => exact hgrows.clears_eq.ge
  | write hallowed hgranted hcommit => exact (commit_grows hgranted.has hcommit).clears_eq.ge
  | clear hmatch => exact Nat.le_succ _

theorem Moves.clears_le {D : Defs} {s s' : Slots} (h : Moves D A s s') : s.clears ≤ s'.clears := by
  induction h with
  | refl => exact Nat.le_refl _
  | tail _ hmove ih => exact ih.trans hmove.clears_le

theorem Move.cycles_le {D : Defs} {s s' : Slots} (h : Move D A s s') : s.cycles ≤ s'.cycles := by
  cases h with
  | cacheDefault hhas htext => exact Nat.le_refl _
  | readActive inst active => exact Nat.le_refl _
  | cycle => exact Nat.le_succ _
  | create hgrows => exact hgrows.cycles_eq.ge
  | write hallowed hgranted hcommit => exact (commit_grows hgranted.has hcommit).cycles_eq.ge
  | clear hmatch => exact Nat.le_refl _

theorem Moves.cycles_le {D : Defs} {s s' : Slots} (h : Moves D A s s') : s.cycles ≤ s'.cycles := by
  induction h with
  | refl => exact Nat.le_refl _
  | tail _ hmove ih => exact ih.trans hmove.cycles_le

/-- An invariant that is kept by the moves other than clearing is kept by every sequence of
moves in which no array is cleared. -/
theorem Moves.invariant {D : Defs} {I : Slots → Prop}
    (hmove : ∀ s s', Move D A s s' → s'.clears = s.clears → I s → I s') {s s' : Slots}
    (h : Moves D A s s') (hclears : s'.clears = s.clears) (hI : I s) : I s' := by
  induction h with
  | refl => exact hI
  | tail hmoves hlast ih =>
      have hfirst := Moves.clears_le hmoves
      have hsecond := hlast.clears_le
      exact hmove _ _ hlast (by omega) (ih (by omega))

/-! ### An array and its bound

The smallest definitions with an array, `X_%` with the array bound variable `X_N`.  They
serve the concrete runs of the following modules. -/

/-- Numerals for array bounds, anything for the other types. -/
def sampleTypes : TypeSystem where
  vartypeMatch := fun type text => if type = 0 then isNumeral text else true
  vartypeGetExpressionType := fun type => if type = 0 then .integer else .string
  arrayBoundType := 0
  regexMatch := fun _ _ => .noMatch
  arrayBoundType_formatInt := fun n => isNumeral_formatInt n

/-- A variable that is always enabled and has no default value. -/
def plainProps : VarProperties where
  optional := false
  weak := false
  condition := .literal (.boolean true)
  defValue := none
  disValue := none

/-- `X_N` (variable 0) and `X_%` (variable 1). -/
def sampleVars : List Var :=
  [ { name := "X_N".toList, type := 0, level := 0, varN := none, varNClients := [1],
      priority := .configuration, props := boundProps },
    { name := "X_%".toList, type := 1, level := 1, varN := some 0, varNClients := [],
      priority := .configuration, props := plainProps } ]

/-- The definitions made of `X_N` and `X_%`, with the given condition for both of them. -/
def sampleDefs (condition : Expr) : Defs where
  types := sampleTypes
  vars := fun v => sampleVars[v]?
  condition := fun _ => condition
  defValue := fun v => (sampleVars[v]?).bind fun var => var.props.defValue
  matchArray := none
  boundGraph := BoundGraph.of_list (by decide)

/-- Write an element of `X_%`. -/
def writeX (index : UInt32) (text : CString) : Call :=
  .setValue ⟨1, [index]⟩ (some text) none .weak .configuration

end Mkfli4l
