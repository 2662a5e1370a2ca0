import Mkfli4l.Var.Runs

/-!
# Reading leaves the store alone

A read that clears no array changes nothing but caches: arrays, stored values,
priorities and `read_active` are as before, and cached default values are only
added.  Arrays are cleared by regular expression matches alone: definitions that
contain no match are read without clearing an array and without leaving one.
-/

namespace Mkfli4l

open Lib Exec

/-- A slot before and after a read: at most a default value has been cached. -/
structure SlotEntry.Cached (e e' : SlotEntry) : Prop where
  value : e'.value = e.value
  extra : e'.extra = e.extra
  priority : e'.priority = e.priority
  readActive : e'.readActive = e.readActive
  defValue : ∀ text, e.defValue = some text → e'.defValue = some text

/-- The effect of a read that clears no array. -/
structure ReadEffect (s t : Slots) : Prop where
  numSlots : t.numSlots = s.numSlots
  entry : ∀ v p, (s.entry v p).Cached (t.entry v p)

namespace ReadEffect

variable {s t u : Slots}

protected theorem refl (s : Slots) : ReadEffect s s :=
  ⟨rfl, fun _ _ => ⟨rfl, rfl, rfl, rfl, fun _ h => h⟩⟩

protected theorem trans (h : ReadEffect s t) (h' : ReadEffect t u) : ReadEffect s u where
  numSlots := h'.numSlots.trans h.numSlots
  entry := fun v p =>
    { value := (h'.entry v p).value.trans (h.entry v p).value
      extra := (h'.entry v p).extra.trans (h.entry v p).extra
      priority := (h'.entry v p).priority.trans (h.entry v p).priority
      readActive := (h'.entry v p).readActive.trans (h.entry v p).readActive
      defValue := fun text hs => (h'.entry v p).defValue text ((h.entry v p).defValue text hs) }

theorem has_eq (h : ReadEffect s t) (v : VarId) (p : List UInt32) : t.has v p = s.has v p :=
  Slots.has_congr (fun q => by rw [h.numSlots]) p

end ReadEffect

/-- Reading from `s` to `t`: the effect of a read, unless an array has been cleared. -/
def Reading (s t : Slots) : Prop :=
  s.clears ≤ t.clears ∧ (t.clears = s.clears → ReadEffect s t)

namespace Reading

variable {s t u : Slots}

protected theorem refl (s : Slots) : Reading s s := ⟨Nat.le_refl _, fun _ => ReadEffect.refl s⟩

protected theorem trans (h : Reading s t) (h' : Reading t u) : Reading s u := by
  have hle := h.1
  have hle' := h'.1
  refine ⟨hle.trans hle', fun heq => ?_⟩
  exact (h.2 (by omega)).trans (h'.2 (by omega))

theorem of_lt (h : s.clears < t.clears) : Reading s t :=
  ⟨Nat.le_of_lt h, fun heq => absurd heq (by omega)⟩

end Reading

/-- Computations that read. -/
abbrev ReadsOnly {α : Type} (x : SlotExec α) : Prop := Exec.Steps Reading x

namespace ReadsOnly

variable {α β : Type}

theorem pure (a : α) : ReadsOnly (pure a : SlotExec α) := Exec.Steps.pure Reading.refl a

theorem get : ReadsOnly (get : SlotExec Slots) := Exec.Steps.get Reading.refl

theorem throw (e : Fault) : ReadsOnly (throw e : SlotExec α) := Exec.Steps.throw e

theorem bind {x : SlotExec α} {f : α → SlotExec β} (hx : ReadsOnly x)
    (hf : ∀ a, ReadsOnly (f a)) : ReadsOnly (x >>= f) :=
  Exec.Steps.bind (fun _ _ _ h h' => h.trans h') hx hf

theorem ite {p : Prop} {_ : Decidable p} {x y : SlotExec α} (hx : ReadsOnly x)
    (hy : ReadsOnly y) : ReadsOnly (if p then x else y) := by
  split
  · exact hx
  · exact hy

theorem deref {D : Defs} (v : VarId) : ReadsOnly (D.deref v) := by
  intro s var s' h
  obtain ⟨-, rfl⟩ := Defs.deref_ok_iff.mp h
  exact Reading.refl s

theorem congruence : Congruence fun _ x (_ : Unit → _) => ReadsOnly x :=
  Exec.Steps.congruence Reading.refl fun _ _ _ h h' => h.trans h'

end ReadsOnly

/-- Callees that read when they evaluate and read. -/
structure Callees.Reads (c : Callees) : Prop where
  exprEvaluate : ∀ e context, ReadsOnly (c.exprEvaluate e context)
  tryGetValue : ∀ inst, ReadsOnly (c.tryGetValue inst)

variable {inst : VarInstance} {s' : Slots} {v : VarId} {var : Var}

section reading

variable {D : Defs} {c : Callees} (hc : c.Reads)

include hc

theorem readArrayBound_reads (instN : VarInstance) : ReadsOnly (readArrayBound c instN) :=
  ReadsOnly.congruence.ofReadArrayBound (d := fun _ => c) hc.tryGetValue instN

theorem indicesInBounds_reads (var : Var) (inst : VarInstance) :
    ReadsOnly (indicesInBounds D c var inst) :=
  ReadsOnly.congruence.ofIndicesInBounds (d := fun _ => c) (fun _ => ReadsOnly.throw _) hc.tryGetValue var inst

theorem varInstanceIsEnabled_reads (inst : VarInstance) :
    ReadsOnly (varInstanceIsEnabled D c inst) :=
  ReadsOnly.bind (hc.exprEvaluate _ inst) fun _ => ReadsOnly.pure _

theorem cacheDefault_reads {s : Slots} {u : Unit}
    (hnone : (s.entry inst.var inst.indices).defValue = none)
    (h : cacheDefault D c inst s = .ok (u, s')) : Reading s s' := by
  rcases cacheDefault_cases h with ⟨-, rfl⟩ | ⟨e, lit, s₁, hdef, heval, hhas, hcached⟩
  · exact Reading.refl s'
  · have hread := hc.exprEvaluate e inst heval
    rcases hcached with ⟨-, rfl⟩ | ⟨text, htext, rfl⟩
    · exact hread
    · refine ⟨hread.1, fun heq => ?_⟩
      have heff := hread.2 heq
      refine ⟨heff.numSlots, fun v p => ?_⟩
      rw [Slots.updateEntry_entry]
      split
      · next hhere =>
          obtain ⟨rfl, rfl⟩ := hhere
          have hentry := heff.entry inst.var inst.indices
          refine ⟨hentry.value, hentry.extra, hentry.priority, hentry.readActive, ?_⟩
          intro old hold
          rw [hnone] at hold
          contradiction
      · exact heff.entry v p

theorem slotDefaultValue_reads (inst : VarInstance) :
    ReadsOnly (slotDefaultValue D c inst) := by
  intro s text s' h
  obtain ⟨t, s₁, hget, hrun⟩ := bind_ok_iff.mp h
  obtain ⟨rfl, rfl⟩ := get_ok_iff.mp hget
  cases hdef : (s.entry inst.var inst.indices).defValue with
  | some old =>
      rw [hdef] at hrun
      obtain ⟨-, rfl⟩ := pure_ok_iff.mp hrun
      exact Reading.refl s
  | none =>
      rw [hdef] at hrun
      obtain ⟨_, s₂, hcache, hrun⟩ := bind_ok_iff.mp hrun
      obtain ⟨t, s₃, hget, hrun⟩ := bind_ok_iff.mp hrun
      obtain ⟨rfl, rfl⟩ := get_ok_iff.mp hget
      obtain ⟨-, rfl⟩ := pure_ok_iff.mp hrun
      exact cacheDefault_reads hc hdef hcache

theorem varSlotGetValue_reads (inst : VarInstance) : ReadsOnly (varSlotGetValue D c inst) := by
  refine ReadsOnly.bind ReadsOnly.get fun s => ?_
  cases (s.entry inst.var inst.indices).value with
  | some text => exact ReadsOnly.pure _
  | none => exact ReadsOnly.bind (slotDefaultValue_reads hc inst) fun _ => ReadsOnly.pure _

omit hc in
theorem Reading.of_active {s t : Slots} (hinactive : (s.entry inst.var inst.indices).readActive = false)
    (h : Reading (s.updateEntry inst.var inst.indices fun e => { e with readActive := true }) t) :
    Reading s (t.updateEntry inst.var inst.indices fun e => { e with readActive := false }) := by
  refine ⟨h.1, fun heq => ?_⟩
  have heff := h.2 heq
  refine ⟨heff.numSlots, fun v p => ?_⟩
  have hentry := heff.entry v p
  rw [Slots.updateEntry_entry] at hentry ⊢
  by_cases hhere : v = inst.var ∧ p = inst.indices
  · obtain ⟨rfl, rfl⟩ := hhere
    rw [if_pos ⟨rfl, rfl⟩] at hentry ⊢
    exact ⟨hentry.value, hentry.extra, hentry.priority, hinactive.symm, hentry.defValue⟩
  · rw [if_neg hhere] at hentry ⊢
    exact hentry

theorem readCheckedValue_reads (var : Var) (inst : VarInstance) :
    ReadsOnly (readCheckedValue D c var inst) := by
  intro s value s' h
  rcases (readCheckedValue_cases h).2 with ⟨-, -, rfl⟩ | ⟨hinactive, hevaluated⟩
  · exact ⟨Nat.le_refl _, fun _ => ⟨rfl, fun _ _ => ⟨rfl, rfl, rfl, rfl, fun _ h => h⟩⟩⟩
  · obtain ⟨enabled, result, s₁, s₂, henabled, hresult, -, rfl⟩ := hevaluated
    have hinside := (varInstanceIsEnabled_reads hc inst henabled).trans
      (varSlotGetValue_reads hc inst hresult)
    exact Reading.of_active hinactive hinside

theorem varInstanceReadValue_reads (inst : VarInstance) :
    ReadsOnly (varInstanceReadValue D c inst) := by
  refine ReadsOnly.bind (ReadsOnly.deref _) fun var => ?_
  refine ReadsOnly.bind (indicesInBounds_reads hc var inst) fun inside => ?_
  exact ReadsOnly.ite (readCheckedValue_reads hc var inst) (ReadsOnly.pure none)

theorem varInstanceDoGetValue_reads (inst : VarInstance) :
    ReadsOnly (varInstanceDoGetValue D c inst) := by
  refine ReadsOnly.bind (ReadsOnly.deref _) fun var => ReadsOnly.ite (ReadsOnly.pure none) ?_
  refine ReadsOnly.bind ReadsOnly.get fun s => ?_
  cases varInstanceGetSlotForReading s var inst with
  | none => exact ReadsOnly.pure none
  | some p => exact ReadsOnly.bind (varInstanceReadValue_reads hc inst) fun _ => ReadsOnly.pure _

end reading

section evaluating

variable {D : Defs} {c : Callees}

theorem varSlotGetOrCreate_nil {depth : Nat} {u : Unit} {s : Slots}
    (h : varSlotGetOrCreate D depth ⟨v, []⟩ s = .ok (u, s')) : s' = s := by
  obtain ⟨var, s₁, hderef, hlevels⟩ := bind_ok_iff.mp h
  obtain ⟨-, rfl⟩ := Defs.deref_ok_iff.mp hderef
  obtain ⟨bounds, s₂, hbounds, hgrow⟩ := bind_ok_iff.mp hlevels
  simp only [List.take_nil, growPath] at hgrow
  obtain ⟨-, rfl⟩ := pure_ok_iff.mp hgrow
  exact varNArray_state hbounds

variable {m : VarId} {mode : AccessMode} {priority : Priority}

theorem openSlot_nil {access : SlotAccess} {s : Slots}
    (h : openSlot D c var ⟨m, []⟩ mode priority s = .ok (access, s')) : s' = s := by
  obtain ⟨s₁, hraise, hcreate, -, -⟩ := openSlot_cases h
  obtain ⟨-, rfl⟩ := pure_ok_iff.mp hraise
  exact varSlotGetOrCreate_nil hcreate

theorem varInstanceGetSlotForWriting_nil {access : SlotAccess} {s : Slots}
    (h : varInstanceGetSlotForWriting D c ⟨m, []⟩ mode priority false s = .ok (access, s')) : s' = s := by
  obtain ⟨var, s₁, hderef, hrun⟩ := bind_ok_iff.mp h
  obtain ⟨-, rfl⟩ := Defs.deref_ok_iff.mp hderef
  split at hrun
  · exact (pure_ok_iff.mp hrun).2.symm
  · split at hrun
    · exact (pure_ok_iff.mp hrun).2.symm
    · exact openSlot_nil hrun

theorem varInstanceClear_cases (hc : c.Sound D) {res : Bool} {s : Slots}
    (h : varInstanceClear D c ⟨m, []⟩ mode priority s = .ok (res, s')) :
    (s' = s ∧ (res = true → mode = .tentative)) ∨ s.clears < s'.clears := by
  obtain ⟨var, s₁, hderef, hrun⟩ := bind_ok_iff.mp h
  obtain ⟨hvar, rfl⟩ := Defs.deref_ok_iff.mp hderef
  split at hrun
  · obtain ⟨rfl, rfl⟩ := pure_ok_iff.mp hrun
    exact Or.inl ⟨rfl, fun hres => nomatch hres⟩
  · obtain ⟨access, s₂, haccess, hrun⟩ := bind_ok_iff.mp hrun
    obtain rfl := varInstanceGetSlotForWriting_nil haccess
    cases access with
    | invalid =>
        obtain ⟨rfl, rfl⟩ := pure_ok_iff.mp hrun
        exact Or.inl ⟨rfl, fun hres => nomatch hres⟩
    | rejected =>
        obtain ⟨rfl, rfl⟩ := pure_ok_iff.mp hrun
        exact Or.inl ⟨rfl, of_decide_eq_true⟩
    | granted =>
        obtain ⟨_, s₃, hclear, hrun⟩ := bind_ok_iff.mp hrun
        obtain rfl := modify_ok_iff.mp hclear
        obtain ⟨b, s₄, habove, hrun⟩ := bind_ok_iff.mp hrun
        obtain ⟨rfl, hb⟩ := boundAbove_ok (fun b hb => ⟨m, var, hvar, hb⟩) habove
        obtain ⟨_, s₅, hset, hrun⟩ := bind_ok_iff.mp hrun
        obtain ⟨-, rfl⟩ := pure_ok_iff.mp hrun
        have hmoves := hc.doSetValue _ (Or.inl ⟨⟨b, []⟩, 0, rfl, hb⟩) hset
        exact Or.inr (Nat.lt_of_lt_of_le (Nat.lt_succ_self _) (Moves.clears_le hmoves))

theorem matchLiterals_reads (hc : c.Sound D) (val regex : CString) :
    ReadsOnly (matchLiterals D c val regex) := by
  intro s res s' h
  unfold matchLiterals at h
  cases hmatch : D.types.regexMatch regex val with
  | invalid =>
      rw [hmatch] at h
      exact ReadsOnly.pure _ h
  | noMatch =>
      rw [hmatch] at h
      exact ReadsOnly.pure _ h
  | groups texts =>
      rw [hmatch] at h
      cases hm : D.matchArray with
      | none =>
          rw [hm] at h
          exact ReadsOnly.throw _ h
      | some m =>
          rw [hm] at h
          obtain ⟨cleared, s₁, hclear, hrun⟩ := bind_ok_iff.mp h
          have hmoves : InternalMoves D s₁ s' := by
            refine MovesOnly.ite ?_ (MovesOnly.pure _) hrun
            exact MovesOnly.bind (storeMatches_moves hc hm 0 texts) fun _ => MovesOnly.pure _
          rcases varInstanceClear_cases hc hclear with ⟨rfl, hres⟩ | hcounted
          · cases cleared with
            | false => exact ReadsOnly.pure _ hrun
            | true => exact nomatch hres rfl
          · -- the array has been cleared, so the writes that follow do not matter
            exact Reading.of_lt (Nat.lt_of_lt_of_le hcounted (Moves.clears_le hmoves))

variable (hc : c.Reads) (hsound : c.Sound D)

include hc

include hsound

theorem exprEvaluate_reads (e : Expr) (context : VarInstance) :
    ReadsOnly (exprEvaluate D c e context) :=
  ReadsOnly.congruence.ofExprEvaluate (d := fun _ => c) (m := fun _ => D.matchArray) hc.tryGetValue
    (fun _ => hc.exprEvaluate _) e context
    (Or.inr (matchLiterals_reads hsound))

end evaluating

theorem calls_reads (D : Defs) (depth : Nat) : (calls D depth).Reads := by
  induction depth with
  | zero => exact ⟨fun _ _ => ReadsOnly.throw _, fun _ => ReadsOnly.throw _⟩
  | succ depth ih =>
      exact ⟨exprEvaluate_reads ih (calls_sound D depth), varInstanceDoGetValue_reads ih⟩

/-! ### Definitions without matches -/

/-- No match in the expression clears an array: there is no match in it, or no array to be cleared. -/
def Defs.Harmless (D : Defs) (e : Expr) : Prop := e.matchFree = true ∨ D.matchArray = none

/-- No match in a condition or a default value clears an array. -/
def Defs.NeverClears (D : Defs) : Prop :=
  (∀ v, D.Harmless (D.condition v)) ∧ ∀ v e, D.defValue v = some e → D.Harmless e

theorem Defs.MatchFree.neverClears {D : Defs} (h : D.MatchFree) : D.NeverClears :=
  ⟨fun v => Or.inl (h.1 v), fun v e hdef => Or.inl (h.2 v e hdef)⟩

theorem Defs.neverClears_of_none {D : Defs} (h : D.matchArray = none) : D.NeverClears :=
  ⟨fun _ => Or.inr h, fun _ _ _ => Or.inr h⟩

/-- Run from `s`, the computation clears no array and does not leave an array. -/
def CalmAt {α : Type} (x : SlotExec α) (s : Slots) : Prop :=
  (∀ a s', x s = .ok (a, s') → s'.clears = s.clears) ∧ x s ≠ .error .outOfBounds

namespace CalmAt

variable {α β : Type} {s : Slots}

theorem pure (a : α) : CalmAt (pure a : SlotExec α) s := by
  refine ⟨fun b s' h => ?_, fun h => pure_error_iff.mp h⟩
  obtain ⟨-, rfl⟩ := pure_ok_iff.mp h
  rfl

theorem throw {e : Fault} (hne : e ≠ .outOfBounds) : CalmAt (throw e : SlotExec α) s :=
  ⟨fun _ _ h => (throw_ok_iff.mp h).elim, fun h => hne (throw_error_iff.mp h)⟩

theorem modify {f : Slots → Slots} (hf : (f s).clears = s.clears) :
    CalmAt (modify f : SlotExec PUnit) s := by
  refine ⟨fun u s' h => ?_, fun h => Exec.modify_error_iff.mp h⟩
  obtain rfl := modify_ok_iff.mp h
  exact hf

theorem bind {x : SlotExec α} {f : α → SlotExec β} (hx : CalmAt x s)
    (hf : ∀ a s', x s = .ok (a, s') → CalmAt (f a) s') : CalmAt (x >>= f) s := by
  constructor
  · intro b s'' h
    obtain ⟨a, s', hrun, hrest⟩ := bind_ok_iff.mp h
    exact ((hf a s' hrun).1 b s'' hrest).trans (hx.1 a s' hrun)
  · intro h
    rcases bind_error_iff.mp h with h | ⟨a, s', hrun, h⟩
    · exact hx.2 h
    · exact (hf a s' hrun).2 h

theorem get_bind {f : Slots → SlotExec β} (hf : CalmAt (f s) s) : CalmAt (get >>= f) s := by
  refine bind ⟨fun t s' h => ?_, fun h => get_error_iff.mp h⟩ fun t s' h => ?_
  · obtain ⟨-, rfl⟩ := get_ok_iff.mp h
    rfl
  · obtain ⟨rfl, rfl⟩ := get_ok_iff.mp h
    exact hf

theorem ite {p : Prop} {_ : Decidable p} {x y : SlotExec α} (hx : p → CalmAt x s)
    (hy : ¬ p → CalmAt y s) : CalmAt (if p then x else y) s := by
  split
  · next h => exact hx h
  · next h => exact hy h

theorem deref_bind {D : Defs} {f : Var → SlotExec β}
    (hf : ∀ var, D.vars v = some var → CalmAt (f var) s) : CalmAt (D.deref v >>= f) s := by
  refine bind ⟨fun var s' h => ?_, Defs.deref_spares v s⟩ fun var s' h => ?_
  · obtain ⟨-, rfl⟩ := Defs.deref_ok_iff.mp h
    rfl
  · obtain ⟨hvar, rfl⟩ := Defs.deref_ok_iff.mp h
    exact hf var hvar

theorem derefSlot_bind {p : List UInt32} {f : Unit → SlotExec β}
    (hhas : s.has v p = true) (hf : CalmAt (f ()) s) : CalmAt (derefSlot v p >>= f) s := by
  refine bind ⟨fun u s' h => ?_, fun h => ?_⟩ fun u s' h => ?_
  · obtain ⟨-, rfl⟩ := derefSlot_ok_iff.mp h
    rfl
  · rw [derefSlot_error_iff, hhas] at h
    exact Bool.noConfusion h.1
  · obtain ⟨-, rfl⟩ := derefSlot_ok_iff.mp h
    exact hf

end CalmAt

theorem CalmAt.congruence : Congruence fun _ x (_ : Unit → _) => ∀ s, CalmAt x s where
  ofPure a _ := CalmAt.pure a
  ofNull _ _ := CalmAt.throw (by decide)
  ofBind hx hf s := CalmAt.bind (hx s) fun a s' _ => hf a s'

/-- Callees that read calmly, and evaluate expressions whose matches clear nothing calmly. -/
structure Callees.Calm (D : Defs) (c : Callees) : Prop where
  exprEvaluate : ∀ e context s, D.Harmless e → CalmAt (c.exprEvaluate e context) s
  tryGetValue : ∀ inst s, CalmAt (c.tryGetValue inst) s

section calm

variable {D : Defs} {c : Callees} (hcalm : c.Calm D) (hreads : c.Reads) {s : Slots}

include hcalm

theorem readArrayBound_calm (instN : VarInstance) : CalmAt (readArrayBound c instN) s :=
  CalmAt.congruence.ofReadArrayBound (d := fun _ => c) hcalm.tryGetValue instN s

omit hcalm in
theorem boundInstance_bind_calm {α : Type}
    {f : VarInstance → SlotExec α} (hvar : D.vars inst.var = some var)
    (hlen : var.level ≤ inst.indices.length)
    (hf : ∀ b varN, var.varN = some b → D.vars b = some varN → varN.level + 1 = var.level →
      CalmAt (f ⟨b, inst.indices.take varN.level⟩) s) :
    CalmAt (boundInstance D inst var.varN >>= f) s := by
  cases hb : var.varN with
  | none => exact CalmAt.bind (CalmAt.throw (by decide)) fun _ _ h => (throw_ok_iff.mp h).elim
  | some b =>
      obtain ⟨varN, hvarN, hlevel, -⟩ := D.boundGraph.bound hvar hb
      have hinst : boundInstance D inst (some b) s =
          .ok (⟨b, inst.indices.take varN.level⟩, s) := by
        have henough : ¬ inst.indices.length < varN.level := by omega
        simp only [boundInstance, Defs.deref, hvarN]
        rw [bind_of_ok (pure_ok_iff.mpr ⟨rfl, rfl⟩), if_neg henough]
        rfl
      refine CalmAt.bind ⟨fun instN s' h => ?_, fun h => ?_⟩ fun instN s' h => ?_
      · rw [hinst] at h
        obtain ⟨-, rfl⟩ := Prod.mk.inj (Except.ok.inj h)
        rfl
      · rw [hinst] at h
        contradiction
      · rw [hinst] at h
        obtain ⟨rfl, rfl⟩ := Prod.mk.inj (Except.ok.inj h)
        exact hf b varN hb hvarN hlevel

theorem indicesInBounds_calm
    (hvar : D.vars inst.var = some var) (hlen : var.level ≤ inst.indices.length) :
    CalmAt (indicesInBounds D c var inst) s := by
  refine CalmAt.ite (fun hpos => ?_) fun _ => CalmAt.pure true
  refine boundInstance_bind_calm hvar hlen fun b varN _ _ _ => ?_
  refine CalmAt.bind (readArrayBound_calm hcalm _) fun bound s' _ => ?_
  have hindex : var.level - 1 < inst.indices.length := by omega
  rw [List.getElem?_eq_getElem hindex]
  cases bound with
  | none => exact CalmAt.pure false
  | some bound => exact CalmAt.pure _

variable (hfree : D.NeverClears)

include hfree

theorem varInstanceIsEnabled_calm (inst : VarInstance) :
    CalmAt (varInstanceIsEnabled D c inst) s :=
  CalmAt.bind (hcalm.exprEvaluate _ inst s (hfree.1 _)) fun _ _ _ => CalmAt.pure _

include hreads

omit hfree in
theorem exprEvaluate_has {e : Expr} {context : VarInstance} {lit : Literal}
    (hmatch : D.Harmless e) (h : c.exprEvaluate e context s = .ok (lit, s'))
    (v : VarId) (p : List UInt32) : s'.has v p = s.has v p :=
  ((hreads.exprEvaluate e context h).2 ((hcalm.exprEvaluate e context s hmatch).1 _ _ h)).has_eq v p

theorem cacheDefault_calm (hhas : s.has inst.var inst.indices = true) :
    CalmAt (cacheDefault D c inst) s := by
  unfold cacheDefault
  cases hdef : D.defValue inst.var with
  | none => exact CalmAt.pure ()
  | some e =>
      have hmatch := hfree.2 inst.var e hdef
      refine CalmAt.bind (hcalm.exprEvaluate e inst s hmatch) fun lit s₁ heval => ?_
      have hhas₁ : s₁.has inst.var inst.indices = true := by
        rw [exprEvaluate_has hcalm hreads hmatch heval]
        exact hhas
      refine CalmAt.derefSlot_bind hhas₁ ?_
      cases exprGetStringValue lit with
      | none => exact CalmAt.pure ()
      | some text => exact CalmAt.modify rfl

theorem slotDefaultValue_calm (hhas : s.has inst.var inst.indices = true) :
    CalmAt (slotDefaultValue D c inst) s := by
  refine CalmAt.get_bind ?_
  cases (s.entry inst.var inst.indices).defValue with
  | some text => exact CalmAt.pure _
  | none =>
      refine CalmAt.bind (cacheDefault_calm hcalm hreads hfree hhas) fun _ s' _ => ?_
      exact CalmAt.get_bind (CalmAt.pure _)

theorem varSlotGetValue_calm (hhas : s.has inst.var inst.indices = true) :
    CalmAt (varSlotGetValue D c inst) s := by
  refine CalmAt.get_bind ?_
  cases (s.entry inst.var inst.indices).value with
  | some text => exact CalmAt.pure _
  | none =>
      refine CalmAt.bind (slotDefaultValue_calm hcalm hreads hfree hhas) fun _ s' _ => ?_
      exact CalmAt.pure _

theorem readCheckedValue_calm (var : Var) (hhas : s.has inst.var inst.indices = true) :
    CalmAt (readCheckedValue D c var inst) s := by
  refine CalmAt.derefSlot_bind hhas (CalmAt.get_bind (CalmAt.ite (fun _ => ?_) fun _ => ?_))
  · exact CalmAt.bind (CalmAt.modify rfl) fun _ _ _ => CalmAt.pure none
  · refine CalmAt.bind (CalmAt.modify rfl) fun _ s₁ hset => ?_
    obtain rfl := modify_ok_iff.mp hset
    refine CalmAt.bind (varInstanceIsEnabled_calm hcalm hfree inst) fun enabled s₂ henabled => ?_
    have hhas₂ : s₂.has inst.var inst.indices = true := by
      obtain ⟨lit, s₃, heval, hrun⟩ := bind_ok_iff.mp henabled
      obtain ⟨-, rfl⟩ := pure_ok_iff.mp hrun
      rw [exprEvaluate_has hcalm hreads (hfree.1 _) heval, Slots.updateEntry_has]
      exact hhas
    refine CalmAt.derefSlot_bind hhas₂ ?_
    refine CalmAt.bind (varSlotGetValue_calm hcalm hreads hfree hhas₂) fun result s₃ _ => ?_
    exact CalmAt.bind (CalmAt.modify rfl) fun _ _ _ => CalmAt.pure _

theorem varInstanceDoGetValue_calm (inst : VarInstance) :
    CalmAt (varInstanceDoGetValue D c inst) s := by
  refine CalmAt.deref_bind fun var hvar => CalmAt.ite (fun _ => CalmAt.pure none) fun hlen => ?_
  refine CalmAt.get_bind ?_
  cases hslot : varInstanceGetSlotForReading s var inst with
  | none => exact CalmAt.pure none
  | some p =>
      refine CalmAt.bind ?_ fun _ _ _ => CalmAt.pure _
      refine CalmAt.deref_bind fun var' hvar' => ?_
      obtain rfl : var = var' := Option.some.inj (hvar.symm.trans hvar')
      refine CalmAt.bind (indicesInBounds_calm hcalm hvar (Nat.not_lt.mp hlen))
        fun inside s₁ hinside => CalmAt.ite (fun _ => ?_) fun _ => CalmAt.pure none
      have hread := indicesInBounds_reads hreads var inst hinside
      have hsame := (indicesInBounds_calm hcalm hvar (Nat.not_lt.mp hlen)).1 _ _ hinside
      refine readCheckedValue_calm hcalm hreads hfree var ?_
      rw [(hread.2 hsame).has_eq]
      exact (varInstanceGetSlotForReading_eq_some.mp hslot).2.1

omit hreads in
theorem exprEvaluate_calm (e : Expr) (context : VarInstance) (hmatch : D.Harmless e) :
    CalmAt (exprEvaluate D c e context) s := by
  refine CalmAt.congruence.ofExprEvaluate (d := fun _ => c) (m := fun _ => D.matchArray) hcalm.tryGetValue
    (fun v context s => hcalm.exprEvaluate _ context s (hfree.1 v)) e context (hmatch.imp_right ?_) s
  intro hnone val regex s
  unfold matchLiterals
  rw [hnone]
  cases D.types.regexMatch regex val with
  | invalid => exact CalmAt.pure _
  | noMatch => exact CalmAt.pure _
  | groups texts => exact CalmAt.throw (by decide)

end calm

theorem calls_calm {D : Defs} (hfree : D.NeverClears) (depth : Nat) : (calls D depth).Calm D := by
  induction depth with
  | zero =>
      exact ⟨fun _ _ _ _ => CalmAt.throw (by decide), fun _ _ => CalmAt.throw (by decide)⟩
  | succ depth ih =>
      exact
        { exprEvaluate := fun e context _ hmatch =>
            exprEvaluate_calm ih hfree e context hmatch
          tryGetValue := fun inst _ =>
            varInstanceDoGetValue_calm ih (calls_reads D depth) hfree inst }

end Mkfli4l
