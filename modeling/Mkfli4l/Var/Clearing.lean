import Mkfli4l.Var.Check
import Mkfli4l.Var.HighWater
import Mkfli4l.Var.LateArrays

/-!
# Cleared arrays

Clearing an array destroys its slots and tries to reset one array bound.  Afterwards the array should be as
if its elements had never been written.

A log records, newest first, which requests have been committed and which arrays have been cleared.  What
is stored in a slot has been written since the last clear: this holds of every run.  But an element inside
the bounds has a slot only if no clear leaves a bound behind that promises elements the array has lost.
This happens if the bound cannot be reset because of its priority, and if the array has inner bounds, which
are not reset at all.
-/

namespace Mkfli4l

open Lib Exec

/-! ### Logs -/

/-- What happens to the elements of arrays: a request for an element is committed, or an array is cleared
at leading indices. -/
inductive SlotEvent
  | wrote (inst : VarInstance)
  | cleared (v : VarId) (p : List UInt32)

/-- The element has been written, and the array has not been cleared at a proper prefix of its indices
since.  The newest event comes first. -/
def WrittenSince : List SlotEvent → VarId → List UInt32 → Prop
  | [], _, _ => False
  | .wrote inst :: log, v, p => inst = ⟨v, p⟩ ∨ WrittenSince log v p
  | .cleared u q :: log, v, p => ¬ (u = v ∧ q <+: p ∧ q ≠ p) ∧ WrittenSince log v p

/-- A sequence of moves, with a log of the requests that it commits and of the arrays that it clears. -/
inductive Logged (D : Defs) (A : SetRequest → Prop) : List SlotEvent → Slots → Slots → Prop
  | refl {s : Slots} : Logged D A [] s s
  | quiet {log : List SlotEvent} {s t u : Slots} (h : Logged D A log s t)
      (hmove : Move D (fun _ => False) t u) (hclears : u.clears = t.clears) : Logged D A log s u
  | write {log : List SlotEvent} {s t u : Slots} {r : SetRequest} {var : Var} {depth : Nat}
      (h : Logged D A log s t) (hallowed : A r) (hgranted : Granted D t r var)
      (hcommit : commit D depth var r t = .ok ((), u)) : Logged D A (.wrote r.inst :: log) s u
  | clear {log : List SlotEvent} {s t : Slots} {m : VarId} (h : Logged D A log s t)
      (hmatch : D.matchArray = some m) : Logged D A (.cleared m [] :: log) s (t.clearArray m [])

/-! ### Runs -/

/-- A call that writes a value or clears an array. -/
inductive ArrayOp
  | write (depth : Nat) (call : Call)
  | clear (depth : Nat) (inst : VarInstance) (mode : AccessMode) (priority : Priority)

/-- A call that comes back, with its log.  A clear is one that has been granted. -/
inductive ArrayStep (D : Defs) : ArrayOp → List SlotEvent → Slots → Slots → Prop
  | write {depth : Nat} {call : Call} {res : WriteResult} {log : List SlotEvent} {s s' : Slots}
      (hvalue : call.request.value ≠ none) (hexec : call.exec D (calls D depth) s = .ok (res, s'))
      (hlog : Logged D (fun r => Internal D r ∨ r = call.request) log s s') :
      ArrayStep D (.write depth call) log s s'
  | clear {depth : Nat} {inst : VarInstance} {mode : AccessMode} {priority : Priority}
      {before after : List SlotEvent} {s s₁ s' : Slots}
      (hopen : varInstanceGetSlotForWriting D (calls D depth) inst mode priority false s =
        .ok (.granted, s₁))
      (hexec : varInstanceClear D (calls D depth) inst mode priority s = .ok (true, s'))
      (hbefore : Logged D (Internal D) before s s₁)
      (hafter : Logged D (Internal D) after (s₁.clearArray inst.var inst.indices) s') :
      ArrayStep D (.clear depth inst mode priority)
        (after ++ .cleared inst.var inst.indices :: before) s s'

/-- A run of calls from the start, each of which meets a condition on the states around it. -/
inductive ArrayRun (D : Defs) (C : ArrayOp → Slots → Slots → Prop) : List SlotEvent → Slots → Prop
  | start : ArrayRun D C [] Slots.init
  | step {log events : List SlotEvent} {op : ArrayOp} {s s' : Slots} (h : ArrayRun D C log s)
      (hstep : ArrayStep D op events s s') (hcond : C op s s') : ArrayRun D C (events ++ log) s'

/-! ### What clearing promises -/

/-- The store with a slot for the element that has never been written. -/
def Slots.withUnwritten (s : Slots) (v : VarId) (p : List UInt32) : Slots :=
  { s with
    numSlots := fun u q =>
      match p[q.length]? with
      | some i => if u = v ∧ q = p.take q.length ∧ s.numSlots u q ≤ i then i + 1 else s.numSlots u q
      | none => s.numSlots u q
    entry := fun u q =>
      if u = v ∧ q = p then
        if s.has v p then { s.entry v p with value := none, extra := none, priority := .undefined }
        else SlotEntry.init
      else s.entry u q }

/-- A read of an element inside the bounds returns a stored value only if the element has been written
since the last clear, and otherwise it returns what an element returns that has never been written. -/
def Forgets (D : Defs) (log : List SlotEvent) (s : Slots) (v : VarId) : Prop :=
  ∀ p, InBounds D s ⟨v, p⟩ → ∀ r, ReadsAs D s ⟨v, p⟩ r →
    (∀ value, r = some value → value.kind = .normal → WrittenSince log v p) ∧
      (¬ WrittenSince log v p → ReadsAs D (s.withUnwritten v p) ⟨v, p⟩ r)

/-! ### Facts about logs -/

variable {r : SetRequest} {C : ArrayOp → Slots → Slots → Prop} {res : WriteResult}

section logs

variable {D : Defs} {A : SetRequest → Prop} {log before : List SlotEvent} {s t u : Slots}
  {v : VarId} {p : List UInt32}

theorem Moves.logged (h : Moves D A s t) : ∃ log, Logged D A log s t := by
  induction h with
  | refl => exact ⟨[], .refl⟩
  | tail _ hmove ih =>
      obtain ⟨log, hlog⟩ := ih
      cases hmove with
      | cacheDefault hhas htext => exact ⟨log, .quiet hlog (.cacheDefault hhas htext) rfl⟩
      | readActive inst active => exact ⟨log, .quiet hlog (.readActive inst active) rfl⟩
      | cycle => exact ⟨log, .quiet hlog .cycle rfl⟩
      | create hgrows => exact ⟨log, .quiet hlog (.create hgrows) hgrows.clears_eq⟩
      | write hallowed hgranted hcommit => exact ⟨_, .write hlog hallowed hgranted hcommit⟩
      | clear hmatch => exact ⟨_, .clear hlog hmatch⟩

theorem Logged.moves (h : Logged D A log s t) : Moves D A s t := by
  induction h with
  | refl => exact Relation.ReflTransGen.refl
  | quiet _ hmove _ ih => exact ih.trans (Moves.mono (fun _ h => h.elim) (.single hmove))
  | write _ hallowed hgranted hcommit ih => exact ih.tail (.write hallowed hgranted hcommit)
  | clear _ hmatch ih => exact ih.tail (.clear hmatch)

theorem Logged.requested (h : Logged D A log s t) {inst : VarInstance} (hmem : .wrote inst ∈ log) :
    ∃ r, A r ∧ r.inst = inst := by
  induction h with
  | refl => exact absurd hmem List.not_mem_nil
  | quiet _ _ _ ih => exact ih hmem
  | @write _ _ _ _ r _ _ _ hallowed _ _ ih =>
      rcases List.mem_cons.mp hmem with heq | hmem
      · exact ⟨r, hallowed, (SlotEvent.wrote.inj heq).symm⟩
      · exact ih hmem
  | clear _ _ ih =>
      rcases List.mem_cons.mp hmem with heq | hmem
      · exact nomatch heq
      · exact ih hmem

theorem WrittenSince.mem (h : WrittenSince log v p) : .wrote ⟨v, p⟩ ∈ log := by
  induction log with
  | nil => exact h.elim
  | cons event log ih =>
      cases event with
      | wrote inst =>
          rcases h with rfl | h
          · exact List.mem_cons_self
          · exact List.mem_cons_of_mem _ (ih h)
      | cleared u q => exact List.mem_cons_of_mem _ (ih h.2)

/-- Slots that have not been written since the last clear are as new, apart from their caches. -/
def Untouched (D : Defs) (log : List SlotEvent) (s : Slots) : Prop :=
  ∀ v var p, D.vars v = some var → p.length = var.level → s.has v p = true → ¬ WrittenSince log v p →
    (s.entry v p).value = none ∧ (s.entry v p).extra = none ∧ (s.entry v p).priority = .undefined

theorem untouched_init : Untouched D [] Slots.init := fun _ _ _ _ _ _ _ => ⟨rfl, rfl, rfl⟩

theorem Untouched.updateEntry (h : Untouched D log s) {inst : VarInstance} {f : SlotEntry → SlotEntry}
    (hf : ∀ e, (f e).value = e.value ∧ (f e).extra = e.extra ∧ (f e).priority = e.priority) :
    Untouched D log (s.updateEntry inst.var inst.indices f) := by
  intro v var p hvar hlen hhas hnot
  rw [Slots.updateEntry_has] at hhas
  have hold := h v var p hvar hlen hhas hnot
  rw [Slots.updateEntry_entry]
  split
  · next heq =>
      obtain ⟨hvalue, hextra, hpriority⟩ := hf (s.entry inst.var inst.indices)
      rw [hvalue, hextra, hpriority, ← heq.1, ← heq.2]
      exact hold
  · exact hold

theorem Untouched.grows (h : Untouched D log s) (hgrows : s.Grows D t) : Untouched D log t := by
  intro v var p hvar hlen hhas hnot
  by_cases hold : s.has v p = true
  · rw [hgrows.entry_eq v p hold]
    exact h v var p hvar hlen hold hnot
  · rw [hgrows.entry_new v var p hvar hlen (Bool.eq_false_iff.mpr hold) hhas]
    exact ⟨rfl, rfl, rfl⟩

theorem Untouched.commit {var : Var} {depth : Nat} (h : Untouched D log s)
    (hgranted : Granted D s r var) (hcommit : commit D depth var r s = .ok ((), t)) :
    Untouched D (.wrote r.inst :: log) t := by
  refine Untouched.grows ?_ (commit_grows hgranted.has hcommit)
  intro v vvar p hvar hlen hhas hnot
  rw [Slots.updateEntry_has] at hhas
  have hother : ¬ (v = r.inst.var ∧ p = r.inst.indices) := by
    rintro ⟨rfl, rfl⟩
    exact hnot (Or.inl rfl)
  rw [Slots.updateEntry_entry, if_neg hother]
  exact h v vvar p hvar hlen hhas fun hwritten => hnot (Or.inr hwritten)

theorem Slots.not_has_clearArray {q rest : List UInt32} (hne : rest ≠ []) :
    (s.clearArray v q).has v (q ++ rest) = false := by
  cases rest with
  | nil => exact absurd rfl hne
  | cons i rest =>
      rw [Bool.eq_false_iff]
      intro hhas
      have happ : q ++ i :: rest = (q ++ [i]) ++ rest := by simp
      rw [happ] at hhas
      have hlt := ((Slots.has_concat_iff q i).mp (Slots.has_of_append hhas)).2
      simp only [Slots.clearArray, Slots.setNumSlots_numSlots, and_self, if_true] at hlt
      exact UInt32.not_lt_zero hlt

theorem Untouched.clear {m : VarId} {q : List UInt32} (h : Untouched D log s) :
    Untouched D (.cleared m q :: log) (s.clearArray m q) := by
  intro v var p hvar hlen hhas hnot
  have hold := Slots.has_of_clearArray hhas
  refine h v var p hvar hlen hold fun hwritten => hnot ⟨?_, hwritten⟩
  rintro ⟨rfl, ⟨rest, rfl⟩, hne⟩
  have hrest : rest ≠ [] := fun hnil => hne (by rw [hnil, List.append_nil])
  rw [Slots.not_has_clearArray hrest] at hhas
  exact nomatch hhas

theorem Untouched.logged (h : Untouched D before s) (hlog : Logged D A log s t) :
    Untouched D (log ++ before) t := by
  induction hlog with
  | refl => exact h
  | quiet _ hmove hclears ih =>
      cases hmove with
      | cacheDefault hhas htext => exact (ih h).updateEntry fun _ => ⟨rfl, rfl, rfl⟩
      | readActive inst active => exact (ih h).updateEntry fun _ => ⟨rfl, rfl, rfl⟩
      | cycle =>
          intro v var p hvar hlen hhas hnot
          rw [Slots.reportCycle_has] at hhas
          exact ih h v var p hvar hlen hhas hnot
      | create hgrows => exact (ih h).grows hgrows
      | write hallowed hgranted hcommit => exact hallowed.elim
      | clear hmatch => exact absurd hclears (Nat.succ_ne_self _)
  | write _ hallowed hgranted hcommit ih => exact (ih h).commit hgranted hcommit
  | clear _ hmatch ih => exact (ih h).clear

theorem ArrayRun.untouched (h : ArrayRun D C log s) : Untouched D log s := by
  induction h with
  | start => exact untouched_init
  | step _ hstep _ ih =>
      cases hstep with
      | write hvalue hexec hlog => exact ih.logged hlog
      | @clear depth inst mode priority before after s₀ s₁ s' hopen hexec hbefore hafter =>
          have hcleared := (ih.logged hbefore).clear (m := inst.var) (q := inst.indices)
          rw [List.append_assoc]
          exact hcleared.logged hafter

end logs

/-! ### Clears that leave no bound behind -/

/-- Below the leading indices, the bound of the array holds no positive number, unless the call itself can
reset it. -/
def CleanClear (D : Defs) (s : Slots) (inst : VarInstance) : Prop :=
  ∀ var b, D.vars inst.var = some var → var.varN = some b → D.matchArray ≠ some b ∧
    ∀ q, q.length + 1 = var.level → inst.indices <+: q →
      boundNumber (s.storedValue b q) ≤ 0 ∨
        q = inst.indices ∧ s.storedPriority b q ≤ .arrayBound

/-- The condition on the calls of a run: the array is only cleared by clean clears, and not by a match that
is evaluated on the way. -/
def CleanFor (D : Defs) (v : VarId) : ArrayOp → Slots → Slots → Prop
  | .write _ _, s, s' => D.matchArray = some v → s'.clears = s.clears
  | .clear _ inst _ _, s, s' =>
      (inst.var = v → CleanClear D s inst) ∧ (D.matchArray = some v → s'.clears = s.clears + 1)

/-- The bound of the array is positive neither by default nor when it is disabled. -/
def LowBound (D : Defs) (v : VarId) : Prop :=
  ∀ var b varN, D.vars v = some var → var.varN = some b → D.vars b = some varN →
    (∀ p text, DefaultText D ⟨b, p⟩ text → boundNumber (some text) ≤ 0) ∧
      ∀ text, varN.props.disValue = some text → boundNumber (some text) ≤ 0

section clean

variable {D : Defs} {A : SetRequest → Prop} {P : VarId → List UInt32 → Prop} {s s₁ s' : Slots}
  {v b : VarId} {var varN : Var} {p q : List UInt32} {inst : VarInstance} {mode : AccessMode}
  {priority : Priority} {depth : Nat}

theorem CoveredOn.moves (h : CoveredOn D P s) (hmoves : Moves D A s s')
    (hclear : ∀ m p, D.matchArray = some m → P m p → s'.clears = s.clears) : CoveredOn D P s' := by
  induction hmoves with
  | refl => exact h
  | tail hfirst hmove ih =>
      have hle := Moves.clears_le hfirst
      have hle' := hmove.clears_le
      refine (ih fun m p hm hP => ?_).move hmove fun m p hm hP => ?_
      · have heq := hclear m p hm hP
        omega
      · have heq := hclear m p hm hP
        omega

theorem CoveredOn.mono {P' : VarId → List UInt32 → Prop} (h : CoveredOn D P s)
    (hsub : ∀ v p, P' v p → P v p) : CoveredOn D P' s :=
  fun b varN v p text n hP => h b varN v p text n (hsub v p hP)

theorem Internal.priority_eq (h : Internal D r) (hb : D.matchArray ≠ some r.inst.var) :
    r.priority = .arrayBound := by
  rcases h with ⟨instN, newBound, rfl, -⟩ | ⟨m, i, text, hm, rfl⟩
  · rfl
  · exact absurd hm hb

theorem Moves.storedPriority_low (h : InternalMoves D s s') (hb : D.matchArray ≠ some b)
    (hvarN : D.vars b = some varN) (hlen : p.length = varN.level)
    (hlow : s.storedPriority b p ≤ .arrayBound) : s'.storedPriority b p ≤ .arrayBound := by
  induction h with
  | refl => exact hlow
  | tail _ hmove ih =>
      cases hmove with
      | cacheDefault hhas htext =>
          exact (Slots.storedPriority_updateEntry (by intro _; rfl)).trans_le ih
      | readActive inst active =>
          exact (Slots.storedPriority_updateEntry (by intro _; rfl)).trans_le ih
      | cycle =>
          rw [Slots.storedPriority, Slots.reportCycle_has]
          exact ih
      | create hgrows => rwa [hgrows.storedPriority_eq hvarN hlen]
      | @write _ r rvar d hallowed hgranted hcommit =>
          by_cases hself : b = r.inst.var ∧ p = r.inst.indices
          · obtain ⟨rfl, rfl⟩ := hself
            rw [storedPriority_commit_self hgranted hcommit, hallowed.priority_eq hb]
          · rwa [(commit_grows hgranted.has hcommit).storedPriority_eq hvarN hlen,
              Slots.storedPriority_updateEntry_ne hself]
      | clear hmatch =>
          have hne : b ≠ _ := fun heq => hb (heq ▸ hmatch)
          rw [Slots.storedPriority, Slots.clearArray_has_of_ne hne]
          exact ih

theorem Moves.storedValue_kept (h : InternalMoves D s s') (hb : D.matchArray ≠ some b)
    (hvarN : D.vars b = some varN) (hlen : p.length = varN.level)
    (hhigh : .arrayBound < s.storedPriority b p) : s'.storedValue b p = s.storedValue b p := by
  rcases Moves.storedValue_cases h hb hvarN hlen with hsame | ⟨r, t, hinternal, hinst, hgranted, hle⟩
  · exact hsame
  · have hpriority := hinternal.priority_eq (by rw [hinst]; exact hb)
    have hadmits := AccessMode.admits_le hgranted.admits
    have hhas := hgranted.has
    rw [hinst] at hadmits hhas
    rw [hpriority] at hadmits
    rw [Slots.storedPriority, Slots.storedPriority, if_pos hhas] at hle
    exact absurd (lt_of_lt_of_le hhigh hle) (not_lt.mpr hadmits)

variable {c : Callees}

theorem varInstanceClear_granted
    (hopen : varInstanceGetSlotForWriting D c inst mode priority false s = .ok (.granted, s₁))
    (h : varInstanceClear D c inst mode priority s = .ok (true, s')) :
    ∃ var b res, D.vars inst.var = some var ∧ inst.indices.length < var.level ∧
      openSlot D c var inst mode priority s = .ok (.granted, s₁) ∧
      boundAbove D (var.level - (inst.indices.length + 1)) var.varN
        (s₁.clearArray inst.var inst.indices) = .ok (b, s₁.clearArray inst.var inst.indices) ∧
      c.doSetValue (boundRequest ⟨b, inst.indices⟩ 0) (s₁.clearArray inst.var inst.indices) =
        .ok (res, s') := by
  obtain ⟨var, s₂, hderef, hrun⟩ := bind_ok_iff.mp h
  obtain ⟨hvar, rfl⟩ := Defs.deref_ok_iff.mp hderef
  split at hrun
  · exact nomatch (pure_ok_iff.mp hrun).1
  · next hlevel =>
      obtain ⟨access, s₃, haccess, hrun⟩ := bind_ok_iff.mp hrun
      obtain ⟨rfl, rfl⟩ := Prod.mk.inj (Except.ok.inj (hopen.symm.trans haccess))
      obtain ⟨_, s₄, hclear, hrun⟩ := bind_ok_iff.mp hrun
      obtain rfl := modify_ok_iff.mp hclear
      obtain ⟨b, s₅, habove, hrun⟩ := bind_ok_iff.mp hrun
      obtain ⟨rfl, -⟩ := boundAbove_ok (fun b hb => ⟨inst.var, var, hvar, hb⟩) habove
      obtain ⟨res, s₆, hset, hrun⟩ := bind_ok_iff.mp hrun
      obtain ⟨-, rfl⟩ := pure_ok_iff.mp hrun
      have hnot : ¬ RefusedAtOnce var inst priority false := by
        intro hrefused
        obtain ⟨access, hne, hrefusal⟩ :=
          varInstanceGetSlotForWriting_refused (c := c) mode s hvar hrefused
        exact hne (Prod.mk.inj (Except.ok.inj (hrefusal.symm.trans hopen))).1
      rw [varInstanceGetSlotForWriting_opened mode _ hvar hnot] at hopen
      have hle : ¬ var.level < inst.indices.length := fun hlt => hnot (Or.inr hlt)
      exact ⟨var, b, res, hvar, by omega, hopen, habove, hset⟩

theorem openSlot_indices {access : SlotAccess} (hvar : D.vars inst.var = some var)
    (h : openSlot D c var inst mode priority s = .ok (access, s₁)) :
    inst.indices = [] ∨ var.level ≤ inst.indices.length + 1 := by
  obtain ⟨t, hraise, -⟩ := openSlot_cases h
  rcases raiseBound_cases hraise with ⟨hnil, -⟩ | ⟨last, b, varN, -, -, -, hb, hvarN, hle, -⟩
  · exact Or.inl hnil
  · obtain ⟨varN', hvarN', hlevel, -⟩ := D.boundGraph.bound hvar hb
    obtain rfl := Option.some.inj (hvarN.symm.trans hvarN')
    right
    omega

theorem Slots.clearArray_storedValue (hne : b ≠ v) :
    (s.clearArray v q).storedValue b p = s.storedValue b p := by
  rw [Slots.storedValue, Slots.storedValue, Slots.clearArray_has_of_ne hne]
  rfl

theorem Slots.clearArray_storedPriority (hne : b ≠ v) :
    (s.clearArray v q).storedPriority b p = s.storedPriority b p := by
  rw [Slots.storedPriority, Slots.storedPriority, Slots.clearArray_has_of_ne hne]
  rfl

theorem boundReset_zero (hvarN : D.vars b = some varN)
    (htype : varN.type = D.types.arrayBoundType) (hlen : p.length = varN.level)
    (hb : D.matchArray ≠ some b) (hlow : s.storedPriority b p ≤ .arrayBound)
    (h : (calls D depth).doSetValue (boundRequest ⟨b, p⟩ 0) s = .ok (res, s')) :
    boundNumber (s'.storedValue b p) = 0 := by
  cases depth with
  | zero => exact (throw_ok_iff.mp h).elim
  | succ depth =>
      obtain ⟨varN', hvarN', hcases⟩ := varInstanceDoSetValue_cases h
      obtain rfl : varN = varN' := Option.some.inj (hvarN.symm.trans hvarN')
      rcases hcases with ⟨hrefused, -⟩ | ⟨-, -, access, s₁, hopen, hend⟩
      · exfalso
        rcases hrefused with hshort | ⟨hbase, -⟩ | hlong
        · exact absurd hlen (Nat.ne_of_lt hshort)
        · exact nomatch hbase
        · exact absurd hlen (Nat.ne_of_gt hlong)
      · obtain ⟨hmoves, hhas⟩ := openSlot_moves (calls_sound D depth) hvarN hopen
        have hlow' := Moves.storedPriority_low hmoves hb hvarN hlen hlow
        have hhere : s₁.has b p = true := hhas
        rw [Slots.storedPriority, if_pos hhere] at hlow'
        have hgranted : Granted D s₁ (boundRequest ⟨b, p⟩ 0) varN := by
          refine ⟨hvarN, hlen, hhas, Or.inl rfl, decide_eq_true hlow', fun _ => ⟨formatInt 0, rfl, ?_⟩⟩
          rw [htype, D.types.arrayBoundType_formatInt]
          rfl
        rcases hend with ⟨-, hnot, -⟩ | ⟨-, -, hcommit⟩
        · exact absurd hgranted hnot
        · have hstored := storedValue_commit_self hgranted hcommit
          have hzero : s'.storedValue b p = some (formatInt 0) := hstored
          rw [hzero]
          decide

theorem boundReset_other {b₀ : VarId} (hvarN : D.vars b = some varN)
    (hlen : p.length = varN.level) (hpos : p ≠ [])
    (h : (calls D depth).doSetValue (boundRequest ⟨b₀, []⟩ 0) s = .ok (res, s')) :
    s'.storedValue b p = s.storedValue b p := by
  cases depth with
  | zero => exact (throw_ok_iff.mp h).elim
  | succ depth =>
      obtain ⟨var₀, -, ⟨-, -, rfl⟩ | ⟨-, -, access, s₁, hopen, hend⟩⟩ := varInstanceDoSetValue_cases h
      · rfl
      · obtain rfl := openSlot_nil hopen
        rcases hend with ⟨-, -, rfl⟩ | ⟨-, hgranted, hcommit⟩
        · rfl
        · rw [(commit_grows hgranted.has hcommit).storedValue_eq hvarN hlen]
          exact Slots.storedValue_updateEntry_ne fun h => hpos h.2

theorem CleanClear.bound_low (hclean : CleanClear D s inst) (hvar : D.vars inst.var = some var)
    (hb : var.varN = some b)
    (hopen : varInstanceGetSlotForWriting D (calls D depth) inst mode priority false s =
      .ok (.granted, s₁))
    (hexec : varInstanceClear D (calls D depth) inst mode priority s = .ok (true, s'))
    (hq : q.length + 1 = var.level) (hpre : inst.indices <+: q) :
    boundNumber (s'.storedValue b q) ≤ 0 := by
  obtain ⟨varN, hvarN, hlevel, htype, -⟩ := D.boundGraph.bound hvar hb
  obtain ⟨hmatch, hbounds⟩ := hclean var b hvar hb
  have hlen : q.length = varN.level := by omega
  have hne : b ≠ inst.var := by
    rintro rfl
    obtain rfl := Option.some.inj (hvar.symm.trans hvarN)
    omega
  obtain ⟨var', b₀, res, hvar', hlt, hopened, habove, hset⟩ := varInstanceClear_granted hopen hexec
  obtain rfl := Option.some.inj (hvar.symm.trans hvar')
  have hraised := (openSlot_moves (calls_sound D depth) hvar hopened).1
  by_cases hlast : inst.indices.length + 1 = var.level
  · -- the bound is the one that the call resets
    obtain rfl : inst.indices = q := hpre.eq_of_length (by omega)
    rw [hlast, Nat.sub_self, hb] at habove
    obtain ⟨rfl, -⟩ := pure_ok_iff.mp habove
    by_cases hlow : s.storedPriority b inst.indices ≤ .arrayBound
    · have hlow' := Moves.storedPriority_low hraised hmatch hvarN hlen hlow
      rw [← Slots.clearArray_storedPriority hne] at hlow'
      exact (boundReset_zero hvarN htype hlen hmatch hlow' hset).le
    · have hhigh := not_le.mp hlow
      have hkept := Moves.storedValue_kept hraised hmatch hvarN hlen hhigh
      have hhigh' := lt_of_lt_of_le hhigh (Moves.storedPriority_le hraised hmatch)
      rw [← Slots.clearArray_storedPriority hne] at hhigh'
      have hreset := (calls_sound D depth).doSetValue _
        (Or.inl ⟨⟨b, inst.indices⟩, 0, rfl, inst.var, var, hvar, hb⟩) hset
      rw [Moves.storedValue_kept hreset hmatch hvarN hlen hhigh', Slots.clearArray_storedValue hne, hkept]
      exact (hbounds _ hq hpre).resolve_right fun h => hlow h.2
  · -- the array is cleared as a whole, and its inner bounds are left alone
    have hnil : inst.indices = [] := (openSlot_indices hvar hopened).resolve_right (by omega)
    have hpos : q ≠ [] := by
      rintro rfl
      rw [hnil] at hlast
      exact hlast hq
    obtain ⟨v, indices⟩ := inst
    obtain rfl : indices = [] := hnil
    obtain rfl := openSlot_nil hopened
    rw [boundReset_other hvarN hlen hpos hset, Slots.clearArray_storedValue hne]
    exact (hbounds q hq hpre).resolve_right fun h => hpos h.1

theorem CoveredOn.cleanClear (h : CoveredOn D (fun u _ => u = v) s)
    (hclean : inst.var = v → CleanClear D s inst)
    (hopen : varInstanceGetSlotForWriting D (calls D depth) inst mode priority false s =
      .ok (.granted, s₁))
    (hexec : varInstanceClear D (calls D depth) inst mode priority s = .ok (true, s'))
    (hcalm : D.matchArray = some v → s'.clears = s.clears + 1) :
    CoveredOn D (fun u _ => u = v) s' := by
  obtain ⟨cvar, b₀, res, hcvar, hlt, hopened, habove, hset⟩ := varInstanceClear_granted hopen hexec
  have hraised := (openSlot_moves (calls_sound D depth) hcvar hopened).1
  obtain ⟨-, hb₀⟩ := boundAbove_ok (fun b hb => ⟨inst.var, cvar, hcvar, hb⟩) habove
  have hreset := (calls_sound D depth).doSetValue _ (Or.inl ⟨⟨b₀, inst.indices⟩, 0, rfl, hb₀⟩) hset
  have hle := Moves.clears_le hraised
  have hle' := Moves.clears_le hreset
  have hcount : (s₁.clearArray inst.var inst.indices).clears = s₁.clears + 1 := rfl
  -- what is not below the leading indices stays covered all the time
  have hother : CoveredOn D (fun u p => u = v ∧ ¬ (u = inst.var ∧ inst.indices <+: p)) s' := by
    have hbefore : CoveredOn D (fun u p => u = v ∧ ¬ (u = inst.var ∧ inst.indices <+: p)) s :=
      h.mono fun _ _ hP => hP.1
    have hfirst := hbefore.moves hraised fun m _ hm hP => by
      have := hcalm (hP.1 ▸ hm)
      omega
    refine (hfirst.clearArray fun p hP hpre => hP.2 ⟨rfl, hpre⟩).moves hreset
      fun m _ hm hP => ?_
    have := hcalm (hP.1 ▸ hm)
    omega
  intro b varN u p text n hu hbvar hclient hlen hhas hvalue hn
  subst hu
  by_cases hbelow : u = inst.var ∧ inst.indices <+: p
  · obtain ⟨rfl, hpre⟩ := hbelow
    obtain ⟨var, hvar, hb⟩ := D.boundGraph.client hbvar hclient
    obtain ⟨varN', hvarN', hlevel, -⟩ := D.boundGraph.bound hvar hb
    obtain rfl : varN = varN' := Option.some.inj (hbvar.symm.trans hvarN')
    have hlow := (hclean rfl).bound_low hvar hb hopen hexec (by omega) hpre
    rw [Slots.storedValue, if_pos hhas, hvalue, boundNumber_some hn] at hlow
    exact hlow.trans (Int.natCast_nonneg _)
  · exact hother b varN u p text n ⟨rfl, hbelow⟩ hbvar hclient hlen hhas hvalue hn

/-- The slots of a bound have no positive number in their caches. -/
def LowCaches (D : Defs) (s : Slots) (b : VarId) : Prop :=
  ∀ varN p, D.vars b = some varN → p.length = varN.level → s.has b p = true →
    boundNumber (s.entry b p).defValue ≤ 0

theorem LowCaches.grows (h : LowCaches D s b) (hgrows : s.Grows D s') : LowCaches D s' b := by
  intro varN p hvarN hlen hhas
  by_cases hold : s.has b p = true
  · rw [hgrows.entry_eq b p hold]
    exact h varN p hvarN hlen hold
  · rw [hgrows.entry_new b varN p hvarN hlen (Bool.eq_false_iff.mpr hold) hhas]
    exact Int.le_refl 0

theorem LowCaches.updateEntry (h : LowCaches D s b) {u : VarId} {f : SlotEntry → SlotEntry}
    (hf : b = u → boundNumber (f (s.entry u q)).defValue ≤ 0 ∨
      (f (s.entry u q)).defValue = (s.entry u q).defValue) :
    LowCaches D (s.updateEntry u q f) b := by
  intro varN p hvarN hlen hhas
  rw [Slots.updateEntry_has] at hhas
  have hold := h varN p hvarN hlen hhas
  rw [Slots.updateEntry_entry]
  split
  · next heq =>
      rcases hf heq.1 with hlow | hsame
      · exact hlow
      · rw [hsame, ← heq.1, ← heq.2]
        exact hold
  · exact hold

theorem LowCaches.clearArray (h : LowCaches D s b) (m : VarId) (q : List UInt32) :
    LowCaches D (s.clearArray m q) b :=
  fun varN p hvarN hlen hhas => h varN p hvarN hlen (Slots.has_of_clearArray hhas)

theorem LowCaches.moves (hlow : ∀ p text, DefaultText D ⟨b, p⟩ text → boundNumber (some text) ≤ 0)
    (h : LowCaches D s b) (hmoves : Moves D A s s') : LowCaches D s' b := by
  induction hmoves with
  | refl => exact h
  | tail _ hmove ih =>
      cases hmove with
      | @cacheDefault inst text hhas htext =>
          refine ih.updateEntry fun heq => Or.inl (hlow inst.indices text ?_)
          rw [heq]
          exact htext
      | readActive inst active => exact ih.updateEntry fun _ => Or.inr rfl
      | cycle =>
          intro varN p hvarN hlen hhas
          rw [Slots.reportCycle_has] at hhas
          exact ih varN p hvarN hlen hhas
      | create hgrows => exact ih.grows hgrows
      | @write _ r _ _ hallowed hgranted hcommit =>
          have hupdated := ih.updateEntry (q := r.inst.indices) (u := r.inst.var) (f := r.applied)
            fun _ => Or.inr rfl
          exact hupdated.grows (commit_grows hgranted.has hcommit)
      | clear hmatch => exact ih.clearArray _ _

theorem ArrayRun.covered {log : List SlotEvent} (h : ArrayRun D (CleanFor D v) log s) :
    CoveredOn D (fun u _ => u = v) s := by
  induction h with
  | start => exact unwritten_init.coveredOn _
  | step _ hstep hcond ih =>
      cases hstep with
      | write hvalue hexec hlog =>
          exact ih.moves hlog.moves fun m _ hm hP => hcond (hP ▸ hm)
      | clear hopen hexec hbefore hafter => exact ih.cleanClear hcond.1 hopen hexec hcond.2

theorem ArrayRun.lowCaches {log : List SlotEvent}
    (hlow : ∀ p text, DefaultText D ⟨b, p⟩ text → boundNumber (some text) ≤ 0)
    (h : ArrayRun D C log s) : LowCaches D s b := by
  induction h with
  | start => exact fun _ _ _ _ _ => Int.le_refl 0
  | step _ hstep _ ih =>
      cases hstep with
      | write hvalue hexec hlog => exact ih.moves hlow hlog.moves
      | clear hopen hexec hbefore hafter =>
          exact ((ih.moves hlow hbefore.moves).clearArray _ _).moves hlow hafter.moves

theorem InBounds.has_of_covered (hin : InBounds D s ⟨v, p⟩) (hlow : LowBound D v)
    (hcovered : CoveredOn D (fun u _ => u = v) s)
    (hcaches : ∀ var b, D.vars v = some var → var.varN = some b → LowCaches D s b)
    (hquiet : ∀ depth inst r s', varInstanceDoGetValue D (calls D depth) inst s = .ok (r, s') →
      s'.clears = s.clears) : s.has v p = true := by
  obtain ⟨inst, hinst⟩ : ∃ inst : VarInstance, inst = ⟨v, p⟩ := ⟨_, rfl⟩
  rw [← hinst] at hin
  cases hin with
  | scalar hvar hlevel =>
      obtain ⟨-, rfl⟩ := VarInstance.mk.inj hinst
      exact Slots.has_nil
  | @element u b var p' index value text bound hvar hb hbound hread htext hnumber hlt =>
      obtain ⟨rfl, rfl⟩ := VarInstance.mk.inj hinst
      obtain ⟨depth, hresult⟩ := hread
      obtain ⟨s', hrun⟩ := result_eq_some_iff.mp hresult
      have hclears := hquiet _ _ _ _ hrun
      obtain ⟨varN, hvarN, hlen, hhas, hsource⟩ := varInstanceDoGetValue_source hrun hclears
      obtain ⟨hdefault, hdisabled⟩ := hlow var b varN hvar hb hvarN
      have hclient : u ∈ varN.varNClients := by
        obtain ⟨varN', hvarN', -, -, -, hcount⟩ := D.boundGraph.bound hvar hb
        obtain rfl : varN = varN' := Option.some.inj (hvarN.symm.trans hvarN')
        exact List.count_pos_iff.mp (by omega)
      rw [htext] at hsource
      have hnumber' := boundNumber_some hnumber
      have hcount : bound ≤ s.slotCount u p' := by
        rcases hsource with ⟨-, hdis⟩ | ⟨-, hstored⟩ | ⟨-, -, hcached⟩
        · have hle := hdisabled text hdis.symm
          omega
        · exact hcovered b varN u p' text bound rfl hvarN hclient hlen hhas hstored.symm hnumber
        · have hmoves := varInstanceDoGetValue_moves (calls_sound D depth) ⟨b, p'⟩ hrun
          have heff := (varInstanceDoGetValue_reads (calls_reads D depth) ⟨b, p'⟩ hrun).2 hclears
          have hle := (hcaches var b hvar hb).moves hdefault hmoves varN p' hvarN hlen
            (by rw [heff.has_eq]; exact hhas)
          dsimp only at hcached
          rw [← hcached, hnumber'] at hle
          omega
      have hlt' : index.toNat < s.slotCount u p' := by omega
      unfold Slots.slotCount at hlt'
      split at hlt'
      · next hp => exact (Slots.has_concat_iff p' index).mpr ⟨hp, hlt'⟩
      · exact absurd hlt' (Nat.not_lt_zero _)

theorem Slots.withUnwritten_eq (hhas : s.has v p = true)
    (hnew : (s.entry v p).value = none ∧ (s.entry v p).extra = none ∧
      (s.entry v p).priority = .undefined) : s.withUnwritten v p = s := by
  have hindex : ∀ k i, p[k]? = some i → ¬ s.numSlots v (p.take k) ≤ i := by
    intro k i hi hle
    have hpre := Slots.has_take hhas (k + 1)
    rw [List.take_add_one, hi, Option.toList_some, Slots.has_concat_iff] at hpre
    exact absurd hpre.2 (UInt32.not_lt.mpr hle)
  unfold Slots.withUnwritten
  congr 1
  · funext u q
    split
    · next i hi =>
        rw [if_neg]
        rintro ⟨rfl, hq, hle⟩
        rw [hq] at hle
        exact hindex q.length i hi hle
    · rfl
  · funext u q
    by_cases heq : u = v ∧ q = p
    · obtain ⟨rfl, rfl⟩ := heq
      rw [if_pos ⟨rfl, rfl⟩, if_pos hhas]
      generalize s.entry u q = e at hnew ⊢
      obtain ⟨value, defValue, extra, priority, readActive⟩ := e
      obtain ⟨rfl, rfl, rfl⟩ := hnew
      rfl
    · rw [if_neg heq]

theorem varInstanceDoGetValue_some {value : VarValue}
    (h : varInstanceDoGetValue D c inst s = .ok (some value, s')) : value.value ≠ none := by
  obtain ⟨var, -, hcases⟩ := varInstanceDoGetValue_cases h
  rcases hcases with ⟨hnone, -⟩ | ⟨r, -, -, -, hr⟩
  · exact nomatch hnone
  · intro hvalue
    simp only [dropUnset] at hr
    split at hr
    · split at hr
      · exact nomatch hr
      · next hsome =>
          obtain rfl := Option.some.inj hr
          exact hsome hvalue
    · exact nomatch hr

end clean

/-- In every run whose calls are clean for an array, the array forgets its elements when it is cleared.  The
store has been reached by calls that write values and clear arrays, in any order. -/
theorem cleared_array_forgets {D : Defs} {v : VarId} {log : List SlotEvent} {s : Slots}
    (hlow : LowBound D v) (hrun : ArrayRun D (CleanFor D v) log s)
    (hquiet : ∀ depth inst r s', varInstanceDoGetValue D (calls D depth) inst s = .ok (r, s') →
      s'.clears = s.clears) : Forgets D log s v := by
  intro p hin r hread
  obtain ⟨var, hvar, hlen⟩ := hin.complete
  have huntouched := hrun.untouched v var p hvar hlen
  have hcaches : ∀ var b, D.vars v = some var → var.varN = some b → LowCaches D s b := by
    intro var b hvar hb
    obtain ⟨varN, hvarN, -⟩ := D.boundGraph.bound hvar hb
    exact hrun.lowCaches (hlow var b varN hvar hb hvarN).1
  have hhas := hin.has_of_covered hlow hrun.covered hcaches hquiet
  constructor
  · rintro value rfl hkind
    by_contra hnot
    obtain ⟨depth, hresult⟩ := hread
    obtain ⟨s', hexec⟩ := result_eq_some_iff.mp hresult
    obtain ⟨_, -, -, -, hsource⟩ := varInstanceDoGetValue_source hexec (hquiet _ _ _ _ hexec)
    have htext := varInstanceDoGetValue_some hexec
    rcases hsource with ⟨hdisabled, -⟩ | ⟨-, hstored⟩ | ⟨hdefault, -⟩
    · exact nomatch hkind.symm.trans hdisabled
    · exact htext (hstored.trans (huntouched hhas hnot).1)
    · exact hdefault hkind
  · intro hnot
    rw [Slots.withUnwritten_eq hhas (huntouched hhas hnot)]
    exact hread

/-! ### An array with a default value -/

section sample

theorem ArrayRun.write {D : Defs} {log : List SlotEvent}
    {s s' : Slots} {depth : Nat} {call : Call} (h : ArrayRun D C log s)
    (hvalue : call.request.value ≠ none) (hexec : call.exec D (calls D depth) s = .ok (res, s'))
    (hcond : C (.write depth call) s s') :
    ∃ events, Logged D (fun r => Internal D r ∨ r = call.request) events s s' ∧
      ArrayRun D C (events ++ log) s' := by
  obtain ⟨events, hlog⟩ := (Call.exec_moves hexec).logged
  exact ⟨events, hlog, h.step (.write hvalue hexec hlog) hcond⟩

theorem ArrayRun.clear {D : Defs} {log : List SlotEvent}
    {s s₁ s' : Slots} {depth : Nat} {inst : VarInstance} {mode : AccessMode} {priority : Priority}
    (h : ArrayRun D C log s)
    (hopen : varInstanceGetSlotForWriting D (calls D depth) inst mode priority false s =
      .ok (.granted, s₁))
    (hexec : varInstanceClear D (calls D depth) inst mode priority s = .ok (true, s'))
    (hcond : C (.clear depth inst mode priority) s s') :
    ∃ before after, Logged D (Internal D) before s s₁ ∧
      Logged D (Internal D) after (s₁.clearArray inst.var inst.indices) s' ∧
      ArrayRun D C ((after ++ .cleared inst.var inst.indices :: before) ++ log) s' := by
  obtain ⟨var, b, res, hvar, -, hopened, habove, hset⟩ := varInstanceClear_granted hopen hexec
  obtain ⟨-, hb⟩ := boundAbove_ok (fun b hb => ⟨inst.var, var, hvar, hb⟩) habove
  obtain ⟨before, hbefore⟩ := (openSlot_moves (calls_sound D depth) hvar hopened).1.logged
  obtain ⟨after, hafter⟩ := Moves.logged ((calls_sound D depth).doSetValue _
    (Or.inl ⟨⟨b, inst.indices⟩, 0, rfl, hb⟩) hset)
  exact ⟨before, after, hbefore, hafter, h.step (.clear hopen hexec hbefore hafter) hcond⟩

/-- `X_N`, and the array `X_%` whose elements are `d` by default. -/
def defaultElementVars : List Var :=
  [ { name := "X_N".toList, type := 0, level := 0, varN := none, varNClients := [1],
      priority := .configuration, props := boundProps },
    { name := "X_%".toList, type := 1, level := 1, varN := some 0, varNClients := [],
      priority := .configuration,
      props := { plainProps with defValue := some (.literal (.string ['d'])) } } ]

def defaultElementDefs : Defs where
  types := sampleTypes
  vars := fun v => defaultElementVars[v]?
  condition := fun _ => .literal (.boolean true)
  defValue := fun v => (defaultElementVars[v]?).bind fun var => var.props.defValue
  matchArray := none
  boundGraph := BoundGraph.of_list (by decide)

theorem defaultElementDefs_vars {v : VarId} {var : Var} (h : defaultElementDefs.vars v = some var) :
    (v = 0 ∧ var.varN = none) ∨ (v = 1 ∧ var.varN = some 0) := by
  have hlt := (List.getElem?_eq_some_iff.mp h).1
  rcases Nat.le_one_iff_eq_zero_or_eq_one.mp (Nat.lt_succ_iff.mp hlt) with rfl | rfl
  · rw [← Option.some.inj h]
    exact Or.inl ⟨rfl, rfl⟩
  · rw [← Option.some.inj h]
    exact Or.inr ⟨rfl, rfl⟩

theorem defaultElementDefs_matchFree : defaultElementDefs.MatchFree := by
  refine ⟨fun _ => rfl, fun v e h => ?_⟩
  obtain ⟨var, hvar, he⟩ := Option.bind_eq_some_iff.mp h
  rcases defaultElementDefs_vars hvar with ⟨rfl, -⟩ | ⟨rfl, -⟩ <;>
    obtain rfl := Option.some.inj hvar <;> obtain rfl := Option.some.inj he <;> rfl

theorem defaultElementDefs_internal (h : Internal defaultElementDefs r) : r.inst.var = 0 := by
  rcases h with ⟨instN, newBound, rfl, v, var, hvar, hb⟩ | ⟨m, i, text, hm, -⟩
  · rcases defaultElementDefs_vars hvar with ⟨-, hnone⟩ | ⟨-, hzero⟩
    · exact nomatch hnone.symm.trans hb
    · exact (Option.some.inj (hzero.symm.trans hb)).symm
  · exact nomatch hm

/-- Write the bound `X_N`. -/
def writeBound (text : CString) : Call := .setValue ⟨0, []⟩ (some text) none .weak .configuration

/-- The array is cleared after `X_3` has been written, and its bound with it. -/
theorem cleared_array_forgets_X_3 :
    ∃ log s, ArrayRun defaultElementDefs (CleanFor defaultElementDefs 1) log s ∧
      (s.entry 0 []).value = some ['0'] ∧ Forgets defaultElementDefs log s 1 := by
  let D := defaultElementDefs
  let write : SlotExec WriteResult := (writeX 2 ['a']).exec D (calls D 8)
  let s := write.stateAfter Slots.init
  let clear : SlotExec Bool := varInstanceClear D (calls D 8) ⟨1, []⟩ .weak .configuration
  have hwrite : write Slots.init = .ok (.written, s) := ok_of_result (by decide)
  have hopen : varInstanceGetSlotForWriting D (calls D 8) ⟨1, []⟩ .weak .configuration false s =
      .ok (.granted, _) := ok_of_result (by decide)
  have hclear : clear s = .ok (true, clear.stateAfter s) := ok_of_result (by decide)
  have hclean : CleanClear D s ⟨1, []⟩ := by
    intro var b hvar hb
    obtain rfl := Option.some.inj hvar
    obtain rfl := Option.some.inj hb
    refine ⟨fun h => (nomatch h), fun q hq _ => Or.inr ?_⟩
    obtain rfl : q = [] := List.length_eq_zero_iff.mp (Nat.succ.inj hq)
    exact ⟨rfl, by decide⟩
  obtain ⟨events, -, hrun⟩ := ArrayRun.write (C := CleanFor D 1) .start (by decide) hwrite
    fun h => (nomatch h)
  obtain ⟨before, after, -, -, hrun'⟩ := hrun.clear hopen hclear ⟨fun _ => hclean, fun h => (nomatch h)⟩
  have hlow : LowBound D 1 := by
    intro var b varN hvar hb hvarN
    obtain rfl := Option.some.inj hvar
    obtain rfl := Option.some.inj hb
    obtain rfl := Option.some.inj hvarN
    constructor
    · rintro p text ⟨depth, e, lit, s, s', hdef, heval, htext⟩
      obtain rfl := Option.some.inj hdef
      cases depth with
      | zero => exact (throw_ok_iff.mp heval).elim
      | succ depth =>
          obtain ⟨rfl, -⟩ := pure_ok_iff.mp heval
          obtain rfl : ['0'] = text := Option.some.inj htext
          decide
    · intro text htext
      obtain rfl : ['0'] = text := Option.some.inj htext
      decide
  have hquiet : ∀ depth inst r u, varInstanceDoGetValue D (calls D depth) inst (clear.stateAfter s) =
      .ok (r, u) → u.clears = (clear.stateAfter s).clears := by
    intro depth inst r u hread
    exact (varInstanceDoGetValue_calm (calls_calm defaultElementDefs_matchFree.neverClears depth)
      (calls_reads _ depth) defaultElementDefs_matchFree.neverClears inst).1 _ _ hread
  exact ⟨_, _, hrun', by decide, cleared_array_forgets hlow hrun' hquiet⟩

/-- If `X_N` has been written by the configuration, it is not reset when `X_%` is cleared.  The array has
lost its slots then, and its elements do not read as their default value. -/
theorem cleared_array_unreadable :
    ¬ ∀ (D : Defs) (v : VarId) (log : List SlotEvent) (s : Slots),
      ArrayRun D (fun _ _ _ => True) log s → Forgets D log s v := by
  intro h
  let D := defaultElementDefs
  let write : SlotExec WriteResult := (writeBound ['3']).exec D (calls D 8)
  let s := write.stateAfter Slots.init
  let clear : SlotExec Bool := varInstanceClear D (calls D 8) ⟨1, []⟩ .weak .configuration
  let s' := clear.stateAfter s
  have hwrite : write Slots.init = .ok (.written, s) := ok_of_result (by decide)
  have hopen : varInstanceGetSlotForWriting D (calls D 8) ⟨1, []⟩ .weak .configuration false s =
      .ok (.granted, _) := ok_of_result (by decide)
  have hclear : clear s = .ok (true, s') := ok_of_result (by decide)
  obtain ⟨events, hlog, hrun⟩ := ArrayRun.write (C := fun _ _ _ => True) .start (by decide) hwrite trivial
  obtain ⟨before, after, hbefore, hafter, hrun'⟩ := hrun.clear hopen hclear trivial
  have hbound : ReadsAs D s' ⟨0, []⟩ (some ⟨some ['3'], .normal, none, .configuration⟩) := ⟨8, by decide⟩
  have hin : InBounds D s' ⟨1, [0]⟩ :=
    .element rfl rfl (.scalar rfl rfl) hbound rfl (show _ = some (3 : Int) by decide) (by decide)
  have hmissing : ReadsAs D s' ⟨1, [0]⟩ none := ⟨8, by decide⟩
  have hdefault : ReadsAs D (s'.withUnwritten 1 [0]) ⟨1, [0]⟩
      (some ⟨some ['d'], .default, none, .undefined⟩) := ⟨8, by decide⟩
  have hunwritten : ¬ WrittenSince ((after ++ .cleared 1 [] :: before) ++ (events ++ [])) 1 [0] := by
    intro hwritten
    have hmem := hwritten.mem
    simp only [List.append_nil, List.append_assoc, List.cons_append, List.mem_append,
      List.mem_cons] at hmem
    rcases hmem with hmem | hmem | hmem | hmem
    · obtain ⟨r, hr, hinst⟩ := hafter.requested hmem
      have hzero := defaultElementDefs_internal hr
      rw [hinst] at hzero
      exact nomatch hzero
    · exact nomatch hmem
    · obtain ⟨r, hr, hinst⟩ := hbefore.requested hmem
      have hzero := defaultElementDefs_internal hr
      rw [hinst] at hzero
      exact nomatch hzero
    · obtain ⟨r, hr | rfl, hinst⟩ := hlog.requested hmem
      · have hzero := defaultElementDefs_internal hr
        rw [hinst] at hzero
        exact nomatch hzero
      · exact nomatch hinst
  have hread := (h D 1 _ s' hrun' [0] hin none hmissing).2 hunwritten
  exact nomatch hread.unique hdefault

end sample

end Mkfli4l
