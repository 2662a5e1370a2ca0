import Mkfli4l.Var.Coverage

/-!
# Priorities protect stored values

`var_access_mode_t` and `var_priority_t` decide which write requests may replace a
stored value.  The discipline holds over whole runs and for all slots but those of
the array of matched groups: evaluating a condition that contains a regular
expression match clears that array, and its slots start again without a priority.
-/

namespace Mkfli4l

open Lib

/-- The stored value of a slot, if there is a slot. -/
def Slots.storedValue (s : Slots) (v : VarId) (p : List UInt32) : Option CString :=
  if s.has v p then (s.entry v p).value else none

/-- The priority of a slot; a slot that does not exist has none. -/
def Slots.storedPriority (s : Slots) (v : VarId) (p : List UInt32) : Priority :=
  if s.has v p then (s.entry v p).priority else .undefined

section

variable {D : Defs} {A : SetRequest → Prop} {s s' : Slots} {v : VarId} {p : List UInt32}

theorem AccessMode.admits_le {mode : AccessMode} {priority slotPriority : Priority}
    (h : mode.admits priority slotPriority = true) : slotPriority ≤ priority := by
  cases mode with
  | strong => exact le_of_lt (of_decide_eq_true h)
  | weak => exact of_decide_eq_true h
  | tentative => exact of_decide_eq_true h

theorem AccessMode.admits_of_le {mode : AccessMode} {priority low high : Priority}
    (h : mode.admits priority high = true) (hle : low ≤ high) :
    mode.admits priority low = true := by
  cases mode with
  | strong => exact decide_eq_true (lt_of_le_of_lt hle (of_decide_eq_true h))
  | weak => exact decide_eq_true (le_trans hle (of_decide_eq_true h))
  | tentative => exact decide_eq_true (le_trans hle (of_decide_eq_true h))

theorem Slots.Grows.storedPriority_le (h : s.Grows D s') :
    s.storedPriority v p ≤ s'.storedPriority v p := by
  unfold Slots.storedPriority
  by_cases hp : s.has v p = true
  · rw [if_pos hp, if_pos (h.has hp), h.entry_eq v p hp]
  · rw [if_neg hp]
    exact Priority.undefined_le _

variable {var : Var} {u : VarId} {q : List UInt32} {f : SlotEntry → SlotEntry} {r : SetRequest}
  {depth : Nat} {s₁ s₂ : Slots} {call : Call}

theorem Slots.Grows.stored_eq {α : Type} (get : SlotEntry → α) (h : s.Grows D s')
    (hvar : D.vars v = some var) (hlen : p.length = var.level) :
    (if s'.has v p then get (s'.entry v p) else get .init) =
      if s.has v p then get (s.entry v p) else get .init := by
  by_cases hp : s.has v p = true
  · rw [if_pos hp, if_pos (h.has hp), h.entry_eq v p hp]
  · rw [if_neg hp]
    split
    · next hp' => rw [h.entry_new v var p hvar hlen (Bool.eq_false_iff.mpr hp) hp']
    · rfl

theorem Slots.Grows.storedValue_eq (h : s.Grows D s') (hvar : D.vars v = some var)
    (hlen : p.length = var.level) : s'.storedValue v p = s.storedValue v p :=
  h.stored_eq SlotEntry.value hvar hlen

theorem Slots.Grows.storedPriority_eq (h : s.Grows D s') (hvar : D.vars v = some var)
    (hlen : p.length = var.level) : s'.storedPriority v p = s.storedPriority v p :=
  h.stored_eq SlotEntry.priority hvar hlen

theorem Slots.stored_updateEntry {α : Type} (get : SlotEntry → α) (hf : ∀ e, get (f e) = get e) :
    get ((s.updateEntry u q f).entry v p) = get (s.entry v p) := by
  rw [Slots.updateEntry_entry]
  by_cases heq : v = u ∧ p = q
  · rw [if_pos heq, hf, heq.1, heq.2]
  · rw [if_neg heq]

theorem Slots.storedPriority_updateEntry (hf : ∀ e, (f e).priority = e.priority) :
    (s.updateEntry u q f).storedPriority v p = s.storedPriority v p := by
  unfold Slots.storedPriority
  rw [Slots.updateEntry_has, Slots.stored_updateEntry SlotEntry.priority hf]

theorem Slots.storedValue_updateEntry (hf : ∀ e, (f e).value = e.value) :
    (s.updateEntry u q f).storedValue v p = s.storedValue v p := by
  unfold Slots.storedValue
  rw [Slots.updateEntry_has, Slots.stored_updateEntry SlotEntry.value hf]

theorem Slots.clearArray_has_of_ne {m : VarId} (hne : v ≠ m) :
    (s.clearArray m q).has v p = s.has v p := by
  apply Slots.has_congr
  intro r
  simp [Slots.clearArray, hne]

/-! ### Committed requests -/

theorem commit_self (hgranted : Granted D s r var) (hcommit : commit D depth var r s = .ok ((), s')) :
    s'.has r.inst.var r.inst.indices = true ∧
      s'.entry r.inst.var r.inst.indices = r.applied (s.entry r.inst.var r.inst.indices) := by
  have hgrows := commit_grows hgranted.has hcommit
  have hhas : (s.updateEntry r.inst.var r.inst.indices r.applied).has r.inst.var r.inst.indices =
      true := by
    rw [Slots.updateEntry_has]
    exact hgranted.has
  refine ⟨hgrows.has hhas, ?_⟩
  rw [hgrows.entry_eq _ _ hhas, Slots.updateEntry_entry, if_pos ⟨rfl, rfl⟩]

theorem storedPriority_commit_self
    (hgranted : Granted D s r var) (hcommit : commit D depth var r s = .ok ((), s')) :
    s'.storedPriority r.inst.var r.inst.indices = r.priority := by
  obtain ⟨hhas, hentry⟩ := commit_self hgranted hcommit
  rw [Slots.storedPriority, if_pos hhas, hentry]
  rfl

theorem storedValue_commit_self
    (hgranted : Granted D s r var) (hcommit : commit D depth var r s = .ok ((), s')) :
    s'.storedValue r.inst.var r.inst.indices =
      r.value.or (s.storedValue r.inst.var r.inst.indices) := by
  obtain ⟨hhas, hentry⟩ := commit_self hgranted hcommit
  rw [Slots.storedValue, if_pos hhas, hentry, Slots.storedValue, if_pos hgranted.has]
  rfl

theorem Slots.storedPriority_updateEntry_ne (hne : ¬ (v = u ∧ p = q)) :
    (s.updateEntry u q f).storedPriority v p = s.storedPriority v p := by
  rw [Slots.storedPriority, Slots.storedPriority, Slots.updateEntry_has, Slots.updateEntry_entry,
    if_neg hne]

theorem Slots.storedValue_updateEntry_ne (hne : ¬ (v = u ∧ p = q)) :
    (s.updateEntry u q f).storedValue v p = s.storedValue v p := by
  rw [Slots.storedValue, Slots.storedValue, Slots.updateEntry_has, Slots.updateEntry_entry,
    if_neg hne]

/-! ### One move -/

theorem Move.storedPriority_le (h : Move D A s s') (hv : D.matchArray ≠ some v) :
    s.storedPriority v p ≤ s'.storedPriority v p := by
  cases h with
  | cacheDefault hhas htext =>
      exact (Slots.storedPriority_updateEntry (by intro _; rfl)).ge
  | readActive inst active =>
      exact (Slots.storedPriority_updateEntry (by intro _; rfl)).ge
  | cycle =>
      rw [Slots.storedPriority, Slots.storedPriority, Slots.reportCycle_has]
      exact le_refl _
  | create hgrows => exact hgrows.storedPriority_le
  | @write _ r var depth hallowed hgranted hcommit =>
      by_cases hself : v = r.inst.var ∧ p = r.inst.indices
      · obtain ⟨rfl, rfl⟩ := hself
        rw [storedPriority_commit_self hgranted hcommit, Slots.storedPriority,
          if_pos hgranted.has]
        exact AccessMode.admits_le hgranted.admits
      · have hle := (commit_grows hgranted.has hcommit).storedPriority_le (v := v) (p := p)
        rwa [Slots.storedPriority_updateEntry_ne hself] at hle
  | @clear m hmatch =>
      have hne : v ≠ m := fun heq => hv (heq ▸ hmatch)
      rw [Slots.storedPriority, Slots.storedPriority, Slots.clearArray_has_of_ne hne]
      exact le_refl _

/-- Outside the array of matched groups, only the commit of a granted request changes what is stored in
a slot. -/
theorem Move.stored_cases (h : Move D A s s') (hv : D.matchArray ≠ some v)
    (hvar : D.vars v = some var) (hlen : p.length = var.level) :
    (s'.storedValue v p = s.storedValue v p ∧ s'.storedPriority v p = s.storedPriority v p) ∨
      ∃ r depth, A r ∧ r.inst = ⟨v, p⟩ ∧ Granted D s r var ∧ commit D depth var r s = .ok ((), s') := by
  cases h with
  | cacheDefault hhas htext =>
      exact Or.inl ⟨Slots.storedValue_updateEntry fun _ => rfl, Slots.storedPriority_updateEntry fun _ => rfl⟩
  | readActive inst active =>
      exact Or.inl ⟨Slots.storedValue_updateEntry fun _ => rfl, Slots.storedPriority_updateEntry fun _ => rfl⟩
  | cycle =>
      left
      rw [Slots.storedValue, Slots.storedValue, Slots.storedPriority, Slots.storedPriority,
        Slots.reportCycle_has]
      exact ⟨rfl, rfl⟩
  | create hgrows => exact Or.inl ⟨hgrows.storedValue_eq hvar hlen, hgrows.storedPriority_eq hvar hlen⟩
  | @write _ r rvar depth hallowed hgranted hcommit =>
      by_cases hself : v = r.inst.var ∧ p = r.inst.indices
      · obtain ⟨rfl, rfl⟩ := hself
        obtain rfl : rvar = var := Option.some.inj (hgranted.var_eq.symm.trans hvar)
        exact Or.inr ⟨r, depth, hallowed, rfl, hgranted, hcommit⟩
      · left
        have hgrows := commit_grows hgranted.has hcommit
        have hvalue := hgrows.storedValue_eq hvar hlen
        have hpriority := hgrows.storedPriority_eq hvar hlen
        rw [Slots.storedValue_updateEntry_ne hself] at hvalue
        rw [Slots.storedPriority_updateEntry_ne hself] at hpriority
        exact ⟨hvalue, hpriority⟩
  | @clear m hmatch =>
      have hne : v ≠ m := fun heq => hv (heq ▸ hmatch)
      left
      rw [Slots.storedValue, Slots.storedValue, Slots.storedPriority, Slots.storedPriority,
        Slots.clearArray_has_of_ne hne]
      exact ⟨rfl, rfl⟩

/-! ### Sequences of moves -/

theorem Moves.storedPriority_le (h : Moves D A s s') (hv : D.matchArray ≠ some v) :
    s.storedPriority v p ≤ s'.storedPriority v p := by
  induction h with
  | refl => exact le_refl _
  | tail _ hmove ih => exact le_trans ih (hmove.storedPriority_le hv)

/-- The last request that is granted for a slot between two states, and the states around its commit.
What is stored in the slot afterwards is what the request has left there. -/
structure LastWrite (D : Defs) (A : SetRequest → Prop) (s s' : Slots) (v : VarId) (var : Var)
    (p : List UInt32) (r : SetRequest) (s₁ s₂ : Slots) : Prop where
  requested : A r
  addressed : r.inst = ⟨v, p⟩
  before : Moves D A s s₁
  granted : Granted D s₁ r var
  committed : ∃ depth, commit D depth var r s₁ = .ok ((), s₂)
  after : Moves D A s₂ s'
  value_eq : s'.storedValue v p = s₂.storedValue v p
  priority_eq : s'.storedPriority v p = s₂.storedPriority v p

theorem Moves.lastWrite (h : Moves D A s s') (hv : D.matchArray ≠ some v)
    (hvar : D.vars v = some var) (hlen : p.length = var.level) :
    (s'.storedValue v p = s.storedValue v p ∧ s'.storedPriority v p = s.storedPriority v p) ∨
      ∃ r s₁ s₂, LastWrite D A s s' v var p r s₁ s₂ := by
  induction h with
  | refl => exact Or.inl ⟨rfl, rfl⟩
  | @tail t t' hmoves hmove ih =>
      rcases hmove.stored_cases hv hvar hlen with ⟨hvalue, hpriority⟩ | ⟨r, depth, hA, hinst, hgranted, hcommit⟩
      · -- the move leaves the slot alone, so the last request is the one from before
        rcases ih with hsame | ⟨r, s₁, s₂, hlast⟩
        · exact Or.inl ⟨hvalue.trans hsame.1, hpriority.trans hsame.2⟩
        · exact Or.inr ⟨r, s₁, s₂, { hlast with
            after := hlast.after.tail hmove
            value_eq := hvalue.trans hlast.value_eq
            priority_eq := hpriority.trans hlast.priority_eq }⟩
      · exact Or.inr ⟨r, t, t', hA, hinst, hmoves, hgranted, ⟨depth, hcommit⟩, .refl, rfl, rfl⟩

theorem LastWrite.admits (h : LastWrite D A s s' v var p r s₁ s₂) (hv : D.matchArray ≠ some v) :
    r.mode.admits r.priority (s.storedPriority v p) = true := by
  have hadmits := h.granted.admits
  have hhas := h.granted.has
  rw [h.addressed] at hadmits hhas
  have hslot : s₁.storedPriority v p = (s₁.entry v p).priority := if_pos hhas
  refine AccessMode.admits_of_le hadmits ?_
  rw [← hslot]
  exact Moves.storedPriority_le h.before hv

theorem LastWrite.storedPriority
    (h : LastWrite D A s s' v var p r s₁ s₂) : s'.storedPriority v p = r.priority := by
  obtain ⟨depth, hcommit⟩ := h.committed
  have hself := storedPriority_commit_self h.granted hcommit
  rw [h.addressed] at hself
  exact h.priority_eq.trans hself

theorem LastWrite.storedValue {text : CString}
    (h : LastWrite D A s s' v var p r s₁ s₂) (htext : r.value = some text) :
    s'.storedValue v p = some text := by
  obtain ⟨depth, hcommit⟩ := h.committed
  have hself := storedValue_commit_self h.granted hcommit
  rw [h.addressed, htext] at hself
  exact h.value_eq.trans hself

theorem Moves.storedValue_cases (h : Moves D A s s') (hv : D.matchArray ≠ some v)
    (hvar : D.vars v = some var) (hlen : p.length = var.level) :
    s'.storedValue v p = s.storedValue v p ∨
      ∃ r s₁, A r ∧ r.inst = ⟨v, p⟩ ∧ Granted D s₁ r var ∧
        s.storedPriority v p ≤ s₁.storedPriority v p := by
  rcases Moves.lastWrite h hv hvar hlen with hsame | ⟨r, s₁, s₂, hlast⟩
  · exact Or.inl hsame.1
  · exact Or.inr ⟨r, s₁, hlast.requested, hlast.addressed, hlast.granted,
      Moves.storedPriority_le hlast.before hv⟩

/-! ### Calls and runs -/

/-- The write requests that a call makes: those on the program's own account, and its own one. -/
def Call.Requests (D : Defs) (call : Call) (r : SetRequest) : Prop := Internal D r ∨ r = call.request

/-- The last write to a slot in a call is an internal bound update: the slot is that of an array bound, its
priority was not above that of bound updates, and now it has the new bound with this priority. -/
structure UpdatedBound (D : Defs) (call : Call) (s s' : Slots) (v : VarId) (var : Var) (p : List UInt32)
    (newBound : Int) : Prop where
  bounds : ∃ u uvar, D.vars u = some uvar ∧ uvar.varN = some v
  updated : ∃ s₁ s₂, LastWrite D (call.Requests D) s s' v var p (boundRequest ⟨v, p⟩ newBound) s₁ s₂
  unprotected : s.storedPriority v p ≤ .arrayBound
  value : s'.storedValue v p = some (formatInt newBound)
  priority : s'.storedPriority v p = .arrayBound

/-- What allows a call to change the stored value of a slot: it addresses the slot with a
sufficient priority, or an internal bound update that it makes is the last write to the slot. -/
def Authorised (D : Defs) (s s' : Slots) (call : Call) (v : VarId) (var : Var) (p : List UInt32) : Prop :=
  (call.request.inst = ⟨v, p⟩ ∧
      call.request.mode.admits call.request.priority (s.storedPriority v p) = true ∧
      var.priority ≤ call.request.priority) ∨
    ∃ newBound, UpdatedBound D call s s' v var p newBound

theorem authorised_of_change {res : WriteResult}
    (h : call.exec D (calls D depth) s = .ok (res, s')) (hv : D.matchArray ≠ some v)
    (hvar : D.vars v = some var) (hlen : p.length = var.level)
    (hchange : s'.storedValue v p ≠ s.storedValue v p) : Authorised D s s' call v var p := by
  have hmoves : Moves D (call.Requests D) s s' := Call.exec_moves h
  rcases Moves.lastWrite hmoves hv hvar hlen with hsame | ⟨r, s₁, s₂, hlast⟩
  · exact absurd hsame.1 hchange
  · have hadmits := hlast.admits hv
    have hinst := hlast.addressed
    rcases hlast.requested with (⟨instN, newBound, rfl, hbounds⟩ | hmatch) | rfl
    · obtain rfl : instN = ⟨v, p⟩ := hinst
      exact Or.inr ⟨newBound, hbounds, ⟨s₁, s₂, hlast⟩, AccessMode.admits_le hadmits,
        hlast.storedValue rfl, hlast.storedPriority⟩
    · obtain ⟨m, i, text, hm, rfl⟩ := hmatch
      have hmv : m = v := congrArg VarInstance.var hinst
      exact absurd (hmv ▸ hm) hv
    · refine Or.inl ⟨hinst, hadmits, ?_⟩
      rcases hlast.granted.base with hignore | hbase
      · rw [Call.request_ignoreBasePriority] at hignore
        contradiction
      · exact hbase

theorem stored_of_written (h : call.exec D (calls D depth) s = .ok (.written, s')) :
    s'.storedPriority call.request.inst.var call.request.inst.indices = call.request.priority ∧
      ∀ text, call.request.value = some text →
        s'.storedValue call.request.inst.var call.request.inst.indices = some text := by
  rcases Call.exec_ok h with ⟨hne, -⟩ | ⟨-, s₁, var, -, hgranted, hcommit⟩
  · exact absurd rfl hne
  · refine ⟨storedPriority_commit_self hgranted hcommit, fun text htext => ?_⟩
    rw [storedValue_commit_self hgranted hcommit, htext]
    rfl

theorem priority_le_of_written (h : call.exec D (calls D depth) s = .ok (.written, s'))
    (hv : D.matchArray ≠ some call.request.inst.var) :
    s.storedPriority call.request.inst.var call.request.inst.indices ≤ call.request.priority := by
  have hle := Moves.storedPriority_le (p := call.request.inst.indices) (Call.exec_moves h) hv
  rwa [(stored_of_written h).1] at hle

theorem Run.storedPriority_le (h : Run D s s') (hv : D.matchArray ≠ some v) :
    s.storedPriority v p ≤ s'.storedPriority v p :=
  Moves.storedPriority_le h.moves hv

end

/-- The priority discipline over whole runs, for the element slots of every variable other than
the array of matched groups: the priority of a slot never decreases, a call changes a stored
value only if it is authorised, and of two accepted writes to one slot the later one wins. -/
theorem priority_discipline {D : Defs} {s s' : Slots} (hrun : Run D s s') {v : VarId} {var : Var}
    (hvar : D.vars v = some var) (hv : D.matchArray ≠ some v) {p : List UInt32}
    (hlen : p.length = var.level) :
    s.storedPriority v p ≤ s'.storedPriority v p ∧
      (∀ (depth : Nat) (call : Call) (res : WriteResult) (s'' : Slots),
        call.exec D (calls D depth) s' = .ok (res, s'') →
        s''.storedValue v p ≠ s'.storedValue v p → Authorised D s' s'' call v var p) ∧
      ∀ (depth₁ depth₂ : Nat) (first later : Call) (s₀ s₁ s'' : Slots),
        first.request.inst = ⟨v, p⟩ → later.request.inst = ⟨v, p⟩ →
        first.exec D (calls D depth₁) s₀ = .ok (.written, s₁) → Run D s₁ s' →
        later.exec D (calls D depth₂) s' = .ok (.written, s'') →
        first.request.priority ≤ later.request.priority ∧
          s''.storedPriority v p = later.request.priority ∧
          ∀ text, later.request.value = some text → s''.storedValue v p = some text := by
  refine ⟨hrun.storedPriority_le hv, ?_, ?_⟩
  · intro depth call res s'' hexec hchange
    exact authorised_of_change hexec hv hvar hlen hchange
  · intro depth₁ depth₂ first later s₀ s₁ s'' hfirst hlater hexec₁ hbetween hexec₂
    have hstored₁ := (stored_of_written hexec₁).1
    have hstored₂ := stored_of_written hexec₂
    have hadmitted := priority_le_of_written hexec₂ (by rwa [hlater])
    rw [hfirst] at hstored₁
    rw [hlater] at hstored₂ hadmitted
    refine ⟨?_, hstored₂.1, hstored₂.2⟩
    calc first.request.priority = s₁.storedPriority v p := hstored₁.symm
      _ ≤ s'.storedPriority v p := hbetween.storedPriority_le hv
      _ ≤ later.request.priority := hadmitted

/-- After `X_3` has been written, the priority of `X_N` is that of bound updates and stays at
least that high. -/
theorem priority_discipline_writeX :
    ∃ s', Run (sampleDefs (.literal (.boolean true))) Slots.init s' ∧
      s'.storedPriority 0 [] = .arrayBound ∧
      Slots.init.storedPriority 0 [] ≤ s'.storedPriority 0 [] := by
  let D := sampleDefs (.literal (.boolean true))
  let write : SlotExec WriteResult := (writeX 2 ['a']).exec D (calls D 8)
  have hexec : write Slots.init = .ok (.written, write.stateAfter Slots.init) :=
    Exec.ok_of_result (by decide)
  have hrun : Run D Slots.init (write.stateAfter Slots.init) :=
    Relation.ReflTransGen.single ⟨8, writeX 2 ['a'], .written, hexec⟩
  have hvar : D.vars 0 = sampleVars[0]? := rfl
  have hdiscipline := priority_discipline hrun (v := 0) hvar (by decide) (p := []) rfl
  exact ⟨write.stateAfter Slots.init, hrun, by decide, hdiscipline.1⟩

/-! ### The array of matched groups -/

/-- `X_N`, `X_%`, `MATCH_N` and `MATCH_%` (variables 0 to 3). -/
def matchVars : List Var :=
  sampleVars ++
    [ { name := "MATCH_N".toList, type := 0, level := 0, varN := none, varNClients := [3],
        priority := .scriptTransient, props := boundProps },
      { name := "MATCH_%".toList, type := 1, level := 1, varN := some 2, varNClients := [],
        priority := .scriptTransient, props := plainProps } ]

/-- `X_N` is enabled if `'a' =~ 'a'`, which matches without any group. -/
def matchDefs : Defs where
  types := { sampleTypes with
    regexMatch := fun regex val =>
      if regex = ['a'] ∧ val = ['a'] then .groups [] else .noMatch }
  vars := fun v => matchVars[v]?
  condition := fun v =>
    if v = 0 then .regexMatch (.literal (.string ['a'])) (.literal (.string ['a']))
    else .literal (.boolean true)
  defValue := fun v => (matchVars[v]?).bind fun var => var.props.defValue
  matchArray := some 3
  boundGraph := BoundGraph.of_list (by decide)

/-- Write the first matched group, as a script does. -/
def writeMatch : Call := .setValue ⟨3, [0]⟩ (some ['x']) none .weak .scriptTransient

/-- Writing `X_1` evaluates the condition of `X_N`, and the slot of `MATCH_1` loses both its
value and its priority. -/
theorem priority_lost_by_match :
    ∃ s s', Run matchDefs Slots.init s ∧ Run matchDefs s s' ∧
      s.storedValue 3 [0] = some ['x'] ∧ s.storedPriority 3 [0] = .scriptTransient ∧
      s'.storedValue 3 [0] = none ∧ s'.storedPriority 3 [0] < s.storedPriority 3 [0] := by
  let first : SlotExec WriteResult := writeMatch.exec matchDefs (calls matchDefs 8)
  let second : SlotExec WriteResult := (writeX 0 ['a']).exec matchDefs (calls matchDefs 8)
  let s := first.stateAfter Slots.init
  have hfirst : first Slots.init = .ok (.written, s) := Exec.ok_of_result (by decide)
  have hsecond : second s = .ok (.written, second.stateAfter s) := Exec.ok_of_result (by decide)
  exact ⟨s, second.stateAfter s,
    Relation.ReflTransGen.single ⟨8, writeMatch, .written, hfirst⟩,
    Relation.ReflTransGen.single ⟨8, writeX 0 ['a'], .written, hsecond⟩,
    by decide, by decide, by decide, by decide⟩

end Mkfli4l
