import Mkfli4l.Var.Runs

/-!
# Variables that calls leave alone

A call may read any variable, but it writes only variables whose base priority it reaches,
and the bounds and the clients of these.  A set `Q` of variables that is linked to no variable
outside of it, and whose base priorities are above that of check scripts, is therefore not
written at all: reading caches default values and sets `read_active`, and this is all that
happens to its slots.

What has to be carried through the calls is an invariant that depends on the slots of `Q` only
(`Guards`).  The variables of a set `A` are read as a whole: how the invariant fares while they
are read is up to the invariant, and every other mark or cache that a read leaves must not
matter to it.  The set `A` is empty for the stored values of `Q`; for the values that are read
it consists of the variables in question.
-/

namespace Mkfli4l

open Lib Exec

/-- The slots of the variables in `Q` are the same. -/
def OutsideOnly (Q : VarId → Prop) (s s' : Slots) : Prop :=
  ∀ v, Q v → s'.numSlots v = s.numSlots v ∧ s'.entry v = s.entry v

variable {v : VarId} {inst : VarInstance} {var : Var}

namespace OutsideOnly

variable {Q : VarId → Prop} {s s' s'' : Slots}

protected theorem refl (s : Slots) : OutsideOnly Q s s := fun _ _ => ⟨rfl, rfl⟩

protected theorem trans (h : OutsideOnly Q s s') (h' : OutsideOnly Q s' s'') :
    OutsideOnly Q s s'' :=
  fun v hv => ⟨(h' v hv).1.trans (h v hv).1, (h' v hv).2.trans (h v hv).2⟩

theorem updateEntry (hv : ¬ Q v) (p : List UInt32) (f : SlotEntry → SlotEntry) :
    OutsideOnly Q s (s.updateEntry v p f) := by
  intro u hu
  have hne : u ≠ v := fun heq => hv (heq ▸ hu)
  refine ⟨rfl, ?_⟩
  funext q
  rw [Slots.updateEntry_entry, if_neg fun hhere => hne hhere.1]

theorem setNumSlots (hv : ¬ Q v) (p : List UInt32) (n : UInt32) :
    OutsideOnly Q s (s.setNumSlots v p n) := by
  intro u hu
  have hne : u ≠ v := fun heq => hv (heq ▸ hu)
  refine ⟨?_, rfl⟩
  funext q
  rw [Slots.setNumSlots_numSlots, if_neg fun hhere => hne hhere.1]

theorem clearArray (hv : ¬ Q v) (p : List UInt32) : OutsideOnly Q s (s.clearArray v p) :=
  fun u hu => setNumSlots hv p 0 u hu

theorem resized (hv : ¬ Q v) (p : List UInt32) (maxlevel : Nat) (tot : UInt32) :
    OutsideOnly Q s (s.resized v p maxlevel tot) := by
  intro u hu
  have hne : u ≠ v := fun heq => hv (heq ▸ hu)
  unfold Slots.resized Slots.initSubslots
  split
  · refine ⟨?_, ?_⟩ <;> funext q <;> simp [hne]
  · refine ⟨?_, rfl⟩
    funext q
    simp [hne]

end OutsideOnly

/-- The variables outside of `Q` are not linked to variables of `Q`, and those of `Q` have base
priorities above that of check scripts. -/
structure Defs.Splits (D : Defs) (Q : VarId → Prop) : Prop where
  bound : ∀ {v var b}, ¬ Q v → D.vars v = some var → var.varN = some b → ¬ Q b
  client : ∀ {v var c}, ¬ Q v → D.vars v = some var → c ∈ var.varNClients → ¬ Q c
  priority : ∀ {v var}, Q v → D.vars v = some var → Priority.scriptTransient < var.priority

/-- Writes with this priority do not reach the variable if it belongs to `Q`. -/
def NotReached (D : Defs) (Q : VarId → Prop) (v : VarId) (priority : Priority) : Prop :=
  Q v → ∀ var, D.vars v = some var → priority < var.priority

theorem Defs.Splits.notReached {D : Defs} {Q : VarId → Prop} (h : D.Splits Q) (v : VarId) :
    NotReached D Q v .scriptTransient :=
  fun hQ _ hvar => h.priority hQ hvar

/-! ### Creating slots -/

/-- Computations that leave the slots of `Q` alone. -/
abbrev OutsideSteps (Q : VarId → Prop) {α : Type} (x : SlotExec α) : Prop :=
  Exec.Steps (OutsideOnly Q) x

namespace OutsideSteps

variable {Q : VarId → Prop} {α β : Type}

theorem pure (a : α) : OutsideSteps Q (pure a) := Exec.Steps.pure OutsideOnly.refl a

theorem get : OutsideSteps Q (get : SlotExec Slots) := Exec.Steps.get OutsideOnly.refl

theorem throw (e : Fault) : OutsideSteps Q (throw e : SlotExec α) := Exec.Steps.throw e

theorem bind {x : SlotExec α} {f : α → SlotExec β} (hx : OutsideSteps Q x)
    (hf : ∀ a, OutsideSteps Q (f a)) : OutsideSteps Q (x >>= f) :=
  Exec.Steps.bind (fun _ _ _ h h' => h.trans h') hx hf

theorem forM {f : α → SlotExec Unit} (l : List α) (hf : ∀ a ∈ l, OutsideSteps Q (f a)) :
    OutsideSteps Q (forM l f) :=
  Exec.Steps.forM OutsideOnly.refl (fun _ _ _ h h' => h.trans h') l hf

theorem deref_bind {D : Defs} {f : Var → SlotExec β}
    (hf : ∀ var, D.vars v = some var → OutsideSteps Q (f var)) :
    OutsideSteps Q (D.deref v >>= f) := by
  intro s b s' h
  obtain ⟨var, s₁, hderef, hrun⟩ := bind_ok_iff.mp h
  obtain ⟨hvar, rfl⟩ := Defs.deref_ok_iff.mp hderef
  exact hf var hvar hrun

theorem derefSlot (v : VarId) (p : List UInt32) : OutsideSteps Q (derefSlot v p) := by
  intro s u s' h
  obtain ⟨-, rfl⟩ := derefSlot_ok_iff.mp h
  exact OutsideOnly.refl s

theorem updateEntry (hv : ¬ Q v) (p : List UInt32) (f : SlotEntry → SlotEntry) :
    OutsideSteps Q (modify fun s => s.updateEntry v p f : SlotExec PUnit) :=
  Exec.Steps.modify fun _ => OutsideOnly.updateEntry hv p f

end OutsideSteps

section creating

variable {D : Defs} {Q : VarId → Prop} (hsplits : D.Splits Q)

theorem growPath_outside (hv : ¬ Q v) {maxlevel : Nat} {expandClients : List UInt32 → SlotExec Unit}
    (hclients : ∀ q, OutsideSteps Q (expandClients q)) (done rest : List UInt32) :
    OutsideSteps Q (growPath v maxlevel expandClients done rest) := by
  induction rest generalizing done with
  | nil => exact OutsideSteps.pure ()
  | cons i rest ih =>
      refine OutsideSteps.bind (OutsideSteps.derefSlot v done) fun _ => ?_
      refine OutsideSteps.bind ?_ fun _ => ih (done ++ [i])
      intro s u s' h
      rcases growSlot_ok_cases h with ⟨-, rfl⟩ | ⟨-, -, hexpand⟩
      · exact OutsideOnly.refl s'
      · exact (OutsideOnly.resized hv done maxlevel (i + 1)).trans (hclients _ hexpand)

include hsplits

theorem varSlotExpand_outside (depth : Nat) (hv : ¬ Q inst.var) :
    OutsideSteps Q (varSlotExpand D depth inst) := by
  induction depth generalizing inst with
  | zero => exact OutsideSteps.throw _
  | succ depth ih =>
      refine OutsideSteps.deref_bind fun var hvar => growPath_outside hv (fun _ => ?_) _ _
      exact OutsideSteps.forM _ fun client hclient => ih (hsplits.client hv hvar hclient)

theorem varSlotExpandClients_outside (depth : Nat) (hv : ¬ Q v)
    (indices : List UInt32) : OutsideSteps Q (varSlotExpandClients D depth v indices) := by
  refine OutsideSteps.deref_bind fun var hvar => ?_
  exact OutsideSteps.forM _ fun client hclient =>
    varSlotExpand_outside hsplits depth (hsplits.client hv hvar hclient)

theorem varNArray_outside {level : Nat} {b : Option VarId} (hb : ∀ v, b = some v → ¬ Q v)
    {bounds : List VarId} {s s' : Slots} (h : varNArray D level b s = .ok (bounds, s')) :
    s' = s ∧ ∀ v ∈ bounds, ¬ Q v := by
  induction level generalizing b bounds s s' with
  | zero =>
      obtain ⟨rfl, rfl⟩ := pure_ok_iff.mp h
      exact ⟨rfl, fun v hv => (nomatch hv)⟩
  | succ level ih =>
      cases b with
      | none => exact (throw_ok_iff.mp h).elim
      | some b =>
          obtain ⟨varN, s₁, hderef, hrun⟩ := bind_ok_iff.mp h
          obtain ⟨hvarN, rfl⟩ := Defs.deref_ok_iff.mp hderef
          obtain ⟨lower, s₂, hlower, hrun⟩ := bind_ok_iff.mp hrun
          obtain ⟨rfl, rfl⟩ := pure_ok_iff.mp hrun
          obtain ⟨rfl, hall⟩ := ih (fun v hv => hsplits.bound (hb b rfl) hvarN hv) hlower
          refine ⟨rfl, fun v hv => ?_⟩
          rcases List.mem_append.mp hv with hv | hv
          · exact hall v hv
          · rw [List.mem_singleton.mp hv]
            exact hb b rfl

theorem varSlotGetOrCreate_outside (depth : Nat) (hv : ¬ Q inst.var) :
    OutsideSteps Q (varSlotGetOrCreate D depth inst) := by
  intro s u s' h
  obtain ⟨var, s₁, hderef, hrun⟩ := bind_ok_iff.mp h
  obtain ⟨hvar, rfl⟩ := Defs.deref_ok_iff.mp hderef
  obtain ⟨bounds, s₂, hbounds, hgrow⟩ := bind_ok_iff.mp hrun
  obtain ⟨rfl, hall⟩ := varNArray_outside hsplits (fun b hb => hsplits.bound hv hvar hb) hbounds
  refine growPath_outside hv (fun _ => ?_) _ _ hgrow
  unfold expandBoundClients
  split
  · next b hb =>
      exact varSlotExpandClients_outside hsplits depth (hall b (List.mem_of_getElem? hb)) _
  · exact OutsideSteps.throw _

theorem storeValue_outside (depth : Nat) (hv : ¬ Q inst.var)
    (hvar : D.vars inst.var = some var) (value : CString) :
    OutsideSteps Q (storeValue D depth var inst value) := by
  refine OutsideSteps.bind OutsideSteps.get fun s => ?_
  refine OutsideSteps.bind (OutsideSteps.updateEntry hv _ _) fun _ => ?_
  dsimp only
  split
  · exact OutsideSteps.forM _ fun client hclient =>
      varSlotGetOrCreate_outside hsplits depth (hsplits.client hv hvar hclient)
  · exact OutsideSteps.pure ()

theorem commit_outside (depth : Nat) {r : SetRequest} (hv : ¬ Q r.inst.var)
    (hvar : D.vars r.inst.var = some var) : OutsideSteps Q (commit D depth var r) := by
  refine OutsideSteps.bind ?_ fun _ => OutsideSteps.updateEntry hv _ _
  cases r.value with
  | none => exact OutsideSteps.pure ()
  | some value => exact storeValue_outside hsplits depth hv hvar value

end creating

/-! ### Invariants of all calls -/

/-- Computations that keep an invariant. -/
abbrev Keeps (I : Slots → Prop) {α : Type} (x : SlotExec α) : Prop :=
  Exec.Steps (fun s s' => I s → I s') x

namespace Keeps

variable {I : Slots → Prop} {α β : Type}

theorem pure (a : α) : Keeps I (pure a) := Exec.Steps.pure (fun _ h => h) a

theorem get : Keeps I (get : SlotExec Slots) := Exec.Steps.get fun _ h => h

theorem throw (e : Fault) : Keeps I (throw e : SlotExec α) := Exec.Steps.throw e

theorem bind {x : SlotExec α} {f : α → SlotExec β} (hx : Keeps I x) (hf : ∀ a, Keeps I (f a)) :
    Keeps I (x >>= f) :=
  Exec.Steps.bind (fun _ _ _ h h' hs => h' (h hs)) hx hf

theorem ite {p : Prop} {_ : Decidable p} {x y : SlotExec α} (hx : Keeps I x) (hy : Keeps I y) :
    Keeps I (if p then x else y) := by
  split
  · exact hx
  · exact hy

theorem congruence (I : Slots → Prop) : Congruence fun _ x (_ : Unit → _) => Keeps I x :=
  Exec.Steps.congruence (fun _ h => h) fun _ _ _ h h' hs => h' (h hs)

theorem deref_bind {D : Defs} {f : Var → SlotExec β}
    (hf : ∀ var, D.vars v = some var → Keeps I (f var)) : Keeps I (D.deref v >>= f) := by
  intro s b s' h
  obtain ⟨var, s₁, hderef, hrun⟩ := bind_ok_iff.mp h
  obtain ⟨hvar, rfl⟩ := Defs.deref_ok_iff.mp hderef
  exact hf var hvar hrun

theorem derefSlot (v : VarId) (p : List UInt32) : Keeps I (derefSlot v p) := by
  intro s u s' h hs
  obtain ⟨-, rfl⟩ := derefSlot_ok_iff.mp h
  exact hs

end Keeps

/-- What an invariant on the slots of `Q` has to stand: marks and caches of variables outside of
`A`, and reading a variable of `A` as a whole. -/
structure Guards (D : Defs) (Q A : VarId → Prop) (I : Slots → Prop) : Prop where
  outside : ∀ {s s'}, OutsideOnly Q s s' → I s → I s'
  mark : ∀ {s v} (p : List UInt32) (active : Bool), ¬ A v → I s →
    I (s.updateEntry v p fun e => { e with readActive := active })
  cache : ∀ {s v} (p : List UInt32) (text : CString), ¬ A v → I s →
    I (s.updateEntry v p fun e => { e with defValue := some text })
  atomic : ∀ depth inst, A inst.var → Keeps I ((calls D depth).tryGetValue inst)

/-- Callees that keep an invariant, as long as they do not write variables of `Q`. -/
structure Callees.Keep (Q : VarId → Prop) (I : Slots → Prop) (c : Callees) : Prop where
  exprEvaluate : ∀ e context, Keeps I (c.exprEvaluate e context)
  tryGetValue : ∀ inst, Keeps I (c.tryGetValue inst)
  doSetValue : ∀ r, ¬ Q r.inst.var → Keeps I (c.doSetValue r)

section guarded

variable {D : Defs} {Q A : VarId → Prop} {I : Slots → Prop} {c : Callees}
  (hguards : Guards D Q A I) (hc : c.Keep Q I)

include hguards in
theorem Keeps.of_outside {α : Type} {x : SlotExec α} (hx : OutsideSteps Q x) : Keeps I x :=
  Exec.Steps.mono hx fun _ _ h => hguards.outside h

/-! #### Reading -/

include hc

theorem readArrayBound_guarded (instN : VarInstance) : Keeps I (readArrayBound c instN) :=
  (Keeps.congruence I).ofReadArrayBound (d := fun _ => c) hc.tryGetValue instN

theorem indicesInBounds_guarded (var : Var) (inst : VarInstance) :
    Keeps I (indicesInBounds D c var inst) :=
  (Keeps.congruence I).ofIndicesInBounds (d := fun _ => c) (fun _ => Keeps.throw _) hc.tryGetValue var inst

theorem varInstanceIsEnabled_guarded (inst : VarInstance) :
    Keeps I (varInstanceIsEnabled D c inst) :=
  Keeps.bind (hc.exprEvaluate _ inst) fun _ => Keeps.pure _

include hguards

theorem cacheDefault_guarded (hv : ¬ A inst.var) : Keeps I (cacheDefault D c inst) := by
  intro s u s' h hs
  rcases cacheDefault_cases h with ⟨-, rfl⟩ | ⟨e, lit, s₁, -, heval, -, hcached⟩
  · exact hs
  · have hs₁ := hc.exprEvaluate e inst heval hs
    rcases hcached with ⟨-, rfl⟩ | ⟨text, -, rfl⟩
    · exact hs₁
    · exact hguards.cache _ text hv hs₁

theorem varSlotGetValue_guarded (hv : ¬ A inst.var) : Keeps I (varSlotGetValue D c inst) := by
  refine Keeps.bind Keeps.get fun s => ?_
  cases (s.entry inst.var inst.indices).value with
  | some text => exact Keeps.pure _
  | none =>
      refine Keeps.bind ?_ fun _ => Keeps.pure _
      refine Keeps.bind Keeps.get fun t => ?_
      cases (t.entry inst.var inst.indices).defValue with
      | some text => exact Keeps.pure _
      | none => exact Keeps.bind (cacheDefault_guarded hguards hc hv) fun _ =>
          Keeps.bind Keeps.get fun _ => Keeps.pure _

omit hc in
theorem setReadActive_guarded (hv : ¬ A inst.var) (active : Bool) :
    Keeps I (setReadActive inst active) :=
  Exec.Steps.modify fun _ => hguards.mark _ active hv

theorem readCheckedValue_guarded (var : Var) (hv : ¬ A inst.var) :
    Keeps I (readCheckedValue D c var inst) := by
  refine Keeps.bind (Keeps.derefSlot _ _) fun _ => Keeps.bind Keeps.get fun s => Keeps.ite ?_ ?_
  · refine Keeps.bind (Exec.Steps.modify fun s => ?_) fun _ => Keeps.pure _
    exact hguards.outside fun _ _ => ⟨rfl, rfl⟩
  · refine Keeps.bind (setReadActive_guarded hguards hv true) fun _ => ?_
    refine Keeps.bind (varInstanceIsEnabled_guarded hc inst) fun enabled => ?_
    refine Keeps.bind (Keeps.derefSlot _ _) fun _ => ?_
    refine Keeps.bind (varSlotGetValue_guarded hguards hc hv) fun result => ?_
    exact Keeps.bind (setReadActive_guarded hguards hv false) fun _ => Keeps.pure _

theorem varInstanceDoGetValue_guarded (hv : ¬ A inst.var) :
    Keeps I (varInstanceDoGetValue D c inst) := by
  refine Keeps.deref_bind fun var _ => Keeps.ite (Keeps.pure none) ?_
  refine Keeps.bind Keeps.get fun s => ?_
  cases varInstanceGetSlotForReading s var inst with
  | none => exact Keeps.pure none
  | some p =>
      refine Keeps.bind (Keeps.deref_bind fun var _ => ?_) fun _ => Keeps.pure _
      refine Keeps.bind (indicesInBounds_guarded hc var inst) fun inside => ?_
      exact Keeps.ite (readCheckedValue_guarded hguards hc var hv) (Keeps.pure none)

/-! #### Writing -/

variable (hsplits : D.Splits Q)

omit hguards in
theorem varUpdateArrayBound_guarded {varN : Option VarId}
    (hb : ∀ b, varN = some b → ¬ Q b) (newBound : Int) :
    Keeps I (varUpdateArrayBound D c inst varN newBound) := by
  intro s res s' h hs
  obtain ⟨instN, s₁, hinst, hrun⟩ := bind_ok_iff.mp h
  obtain ⟨b, var, hvarN, -, -, rfl, rfl⟩ := boundInstance_ok hinst
  refine Keeps.bind (readArrayBound_guarded hc _) (fun bound => ?_) hrun hs
  cases bound with
  | none => exact Keeps.pure _
  | some oldBound =>
      refine Keeps.ite ?_ (Keeps.pure true)
      refine Keeps.bind (hc.doSetValue _ (hb b hvarN)) fun _ => ?_
      refine Keeps.bind (hc.tryGetValue _) fun value => ?_
      rcases value with _ | ⟨_ | text, _, _, _⟩
      · exact Keeps.pure _
      · exact Keeps.throw _
      · exact Keeps.pure _

include hsplits

theorem openSlot_guarded (hvar : D.vars inst.var = some var)
    (hv : ¬ Q inst.var) (mode : AccessMode) (priority : Priority) :
    Keeps I (openSlot D c var inst mode priority) := by
  refine Keeps.bind ?_ fun _ => ?_
  · unfold raiseBound
    cases inst.indices.getLast? with
    | none => exact Keeps.pure ()
    | some last =>
        exact Keeps.bind (varUpdateArrayBound_guarded hc (fun b hb => hsplits.bound hv hvar hb) _)
          fun _ => Keeps.pure ()
  · refine Keeps.bind (Keeps.of_outside hguards (varSlotGetOrCreate_outside hsplits _ hv)) fun _ => ?_
    refine Keeps.bind (Keeps.derefSlot _ _) fun _ => Keeps.bind Keeps.get fun s => ?_
    exact Keeps.ite (Keeps.pure _) (Keeps.pure _)

theorem varInstanceGetSlotForWriting_guarded (mode : AccessMode)
    {priority : Priority} {ignoreBase : Bool}
    (hv : ¬ Q inst.var ∨ ignoreBase = false ∧ NotReached D Q inst.var priority) :
    Keeps I (varInstanceGetSlotForWriting D c inst mode priority ignoreBase) := by
  refine Keeps.deref_bind fun var hvar => ?_
  by_cases hbase : ignoreBase = false ∧ priority < var.priority
  · rw [if_pos hbase]
    exact Keeps.pure _
  · rw [if_neg hbase]
    have hforeign : ¬ Q inst.var := by
      rcases hv with hv | ⟨hignore, hreach⟩
      · exact hv
      · exact fun hQ => hbase ⟨hignore, hreach hQ var hvar⟩
    exact Keeps.ite (Keeps.pure _) (openSlot_guarded hguards hc hsplits hvar hforeign mode priority)

theorem varInstanceDoSetValue_guarded {r : SetRequest}
    (hr : ¬ Q r.inst.var ∨ r.ignoreBasePriority = false ∧ NotReached D Q r.inst.var r.priority) :
    Keeps I (varInstanceDoSetValue D c r) := by
  intro s res s' h hs
  obtain ⟨var, hvar, ⟨-, -, rfl⟩ | ⟨-, hopenable, access, s₁, hopen, hend⟩⟩ :=
    varInstanceDoSetValue_cases h
  · exact hs
  · have hforeign : ¬ Q r.inst.var := by
      rcases hr with hr | ⟨hignore, hreach⟩
      · exact hr
      · exact fun hQ => hopenable (Or.inl ⟨hignore, hreach hQ var hvar⟩)
    have hs₁ := openSlot_guarded hguards hc hsplits hvar hforeign _ _ hopen hs
    rcases hend with ⟨-, -, rfl⟩ | ⟨-, -, hcommit⟩
    · exact hs₁
    · exact hguards.outside (commit_outside hsplits _ hforeign hvar hcommit) hs₁

omit hc hguards in
theorem boundAbove_outside {steps : Nat} {varN : Option VarId} (hb : ∀ b, varN = some b → ¬ Q b)
    {b : VarId} {s s' : Slots} (h : boundAbove D steps varN s = .ok (b, s')) : s' = s ∧ ¬ Q b := by
  induction steps generalizing varN with
  | zero =>
      cases varN with
      | none => exact (throw_ok_iff.mp h).elim
      | some b' =>
          obtain ⟨rfl, rfl⟩ := pure_ok_iff.mp h
          exact ⟨rfl, hb _ rfl⟩
  | succ steps ih =>
      cases varN with
      | none => exact (throw_ok_iff.mp h).elim
      | some b' =>
          obtain ⟨var, s₁, hderef, hrun⟩ := bind_ok_iff.mp h
          obtain ⟨hvar, rfl⟩ := Defs.deref_ok_iff.mp hderef
          exact ih (fun b hvarN => hsplits.bound (hb b' rfl) hvar hvarN) hrun

theorem varInstanceClear_guarded (mode : AccessMode) {priority : Priority}
    (hv : ¬ Q inst.var ∨ NotReached D Q inst.var priority) :
    Keeps I (varInstanceClear D c inst mode priority) := by
  refine Keeps.deref_bind fun var hvar => Keeps.ite (Keeps.pure false) ?_
  by_cases hforeign : Q inst.var
  · have hlow := hv.resolve_left (fun hnot => hnot hforeign) hforeign var hvar
    intro s res s' h hs
    obtain ⟨access, s₁, haccess, hrun⟩ := bind_ok_iff.mp h
    obtain ⟨access', hne, hsame⟩ :=
      varInstanceGetSlotForWriting_refused (c := c) mode s hvar (Or.inl ⟨rfl, hlow⟩)
    rw [hsame] at haccess
    obtain ⟨rfl, rfl⟩ := Prod.mk.inj (Except.ok.inj haccess)
    cases access' with
    | granted => exact absurd rfl hne
    | invalid => exact Keeps.pure false hrun hs
    | rejected => exact Keeps.pure _ hrun hs
  · refine Keeps.bind (varInstanceGetSlotForWriting_guarded hguards hc hsplits mode
      (Or.inl hforeign)) fun access => ?_
    cases access with
    | invalid => exact Keeps.pure false
    | rejected => exact Keeps.pure _
    | granted =>
        refine Keeps.bind (Exec.Steps.modify fun s =>
          hguards.outside (OutsideOnly.clearArray hforeign _)) fun _ => ?_
        intro s res s' h hs
        obtain ⟨b, s₁, habove, hrun⟩ := bind_ok_iff.mp h
        obtain ⟨rfl, hb⟩ := boundAbove_outside hsplits
          (fun b hb => hsplits.bound hforeign hvar hb) habove
        exact Keeps.bind (hc.doSetValue _ hb) (fun _ => Keeps.pure true) hrun hs

theorem weakWrite_guarded (inst : VarInstance) (value : Option CString) (extra : Option SlotExtra) :
    Keeps I (varInstanceSetAndCheckValue D c inst value extra .weak .scriptTransient) := by
  cases value with
  | none => exact Keeps.pure _
  | some text =>
      exact varInstanceDoSetValue_guarded hguards hc hsplits
        (Or.inr ⟨rfl, hsplits.notReached _⟩)

/-! #### Evaluating -/

theorem storeMatches_guarded (m : VarId) (i : Nat) (texts : List CString) :
    Keeps I (storeMatches D c m i texts) := by
  induction texts generalizing i with
  | nil => exact Keeps.pure ()
  | cons text texts ih =>
      exact Keeps.bind (weakWrite_guarded hguards hc hsplits _ _ _) fun _ => ih (i + 1)

theorem matchLiterals_guarded (val regex : CString) : Keeps I (matchLiterals D c val regex) := by
  unfold matchLiterals
  cases D.types.regexMatch regex val with
  | invalid => exact Keeps.pure _
  | noMatch => exact Keeps.pure _
  | groups texts =>
      cases D.matchArray with
      | none => exact Keeps.throw _
      | some m =>
          refine Keeps.bind (varInstanceClear_guarded hguards hc hsplits _
            (Or.inr (hsplits.notReached m))) fun cleared => ?_
          refine Keeps.ite ?_ (Keeps.pure _)
          exact Keeps.bind (storeMatches_guarded hguards hc hsplits m 0 texts) fun _ => Keeps.pure _

theorem exprEvaluate_guarded (e : Expr) (context : VarInstance) :
    Keeps I (exprEvaluate D c e context) :=
  (Keeps.congruence I).ofExprEvaluate (d := fun _ => c) (m := fun _ => D.matchArray) hc.tryGetValue
    (fun _ => hc.exprEvaluate _) e context
    (Or.inr (matchLiterals_guarded hguards hc hsplits))

end guarded

/-- At every depth of the call stack, the invariant is kept. -/
theorem calls_keep {D : Defs} {Q A : VarId → Prop} {I : Slots → Prop} (hguards : Guards D Q A I)
    (hsplits : D.Splits Q) (depth : Nat) : (calls D depth).Keep Q I := by
  induction depth with
  | zero =>
      exact ⟨fun _ _ => Keeps.throw _, fun _ => Keeps.throw _, fun _ _ => Keeps.throw _⟩
  | succ depth ih =>
      refine ⟨exprEvaluate_guarded hguards ih hsplits, fun inst => ?_, fun r hr =>
        varInstanceDoSetValue_guarded hguards ih hsplits (Or.inl hr)⟩
      by_cases hA : A inst.var
      · exact hguards.atomic (depth + 1) inst hA
      · exact varInstanceDoGetValue_guarded hguards ih hA

/-! ### Stored values -/

/-- The slots of the variables in `Q` have the stored contents that they have in `s₀`. -/
structure StoredAs (Q : VarId → Prop) (s₀ s : Slots) : Prop where
  numSlots : ∀ v, Q v → s.numSlots v = s₀.numSlots v
  value : ∀ v p, Q v → (s.entry v p).value = (s₀.entry v p).value
  extra : ∀ v p, Q v → (s.entry v p).extra = (s₀.entry v p).extra
  priority : ∀ v p, Q v → (s.entry v p).priority = (s₀.entry v p).priority

namespace StoredAs

variable {Q : VarId → Prop} {s s' s'' : Slots}

protected theorem refl (s : Slots) : StoredAs Q s s :=
  ⟨fun _ _ => rfl, fun _ _ _ => rfl, fun _ _ _ => rfl, fun _ _ _ => rfl⟩

protected theorem trans (h : StoredAs Q s s') (h' : StoredAs Q s' s'') : StoredAs Q s s'' where
  numSlots := fun v hv => (h'.numSlots v hv).trans (h.numSlots v hv)
  value := fun v p hv => (h'.value v p hv).trans (h.value v p hv)
  extra := fun v p hv => (h'.extra v p hv).trans (h.extra v p hv)
  priority := fun v p hv => (h'.priority v p hv).trans (h.priority v p hv)

theorem of_outsideOnly (h : OutsideOnly Q s s') : StoredAs Q s s' where
  numSlots := fun v hv => (h v hv).1
  value := fun v p hv => by rw [(h v hv).2]
  extra := fun v p hv => by rw [(h v hv).2]
  priority := fun v p hv => by rw [(h v hv).2]

theorem updateEntry (s : Slots) (v : VarId) (p : List UInt32) {f : SlotEntry → SlotEntry}
    (hvalue : ∀ e, (f e).value = e.value) (hextra : ∀ e, (f e).extra = e.extra)
    (hpriority : ∀ e, (f e).priority = e.priority) : StoredAs Q s (s.updateEntry v p f) := by
  have hcases : ∀ u q, (s.updateEntry v p f).entry u q = f (s.entry u q) ∨
      (s.updateEntry v p f).entry u q = s.entry u q := by
    intro u q
    rw [Slots.updateEntry_entry]
    split
    · next hhere => exact Or.inl (by rw [hhere.1, hhere.2])
    · exact Or.inr rfl
  refine ⟨fun _ _ => rfl, fun u q _ => ?_, fun u q _ => ?_, fun u q _ => ?_⟩
  · rcases hcases u q with heq | heq <;> rw [heq]
    exact hvalue _
  · rcases hcases u q with heq | heq <;> rw [heq]
    exact hextra _
  · rcases hcases u q with heq | heq <;> rw [heq]
    exact hpriority _

theorem guards (D : Defs) (Q : VarId → Prop) (s₀ : Slots) :
    Guards D Q (fun _ => False) (StoredAs Q s₀) where
  outside := fun h hs => hs.trans (StoredAs.of_outsideOnly h)
  mark := fun p _ _ hs =>
    hs.trans (StoredAs.updateEntry _ _ p (fun _ => rfl) (fun _ => rfl) fun _ => rfl)
  cache := fun p _ _ hs =>
    hs.trans (StoredAs.updateEntry _ _ p (fun _ => rfl) (fun _ => rfl) fun _ => rfl)
  atomic := fun _ _ h => h.elim

end StoredAs

/-! ### Runs -/

/-- One call from outside, at some depth of the call stack.  Calls that write name a variable
outside of `Q` or come with a priority below its base priority. -/
inductive AccessStep (D : Defs) (Q : VarId → Prop) (s s' : Slots) : Prop
  | write {depth : Nat} {call : Call} {res : WriteResult}
      (hreach : NotReached D Q call.request.inst.var call.request.priority)
      (hexec : call.exec D (calls D depth) s = .ok (res, s'))
  | clear {depth : Nat} {inst : VarInstance} {mode : AccessMode} {priority : Priority} {res : Bool}
      (hreach : NotReached D Q inst.var priority)
      (hexec : varInstanceClear D (calls D depth) inst mode priority s = .ok (res, s'))
  | read {depth : Nat} {inst : VarInstance} {r : Option VarValue}
      (hexec : (calls D depth).tryGetValue inst s = .ok (r, s'))
  | isEnabled {depth : Nat} {inst : VarInstance} {res : Bool}
      (hexec : varInstanceIsEnabled D (calls D depth) inst s = .ok (res, s'))
  | evaluate {depth : Nat} {e : Expr} {context : VarInstance} {lit : Literal}
      (hexec : (calls D depth).exprEvaluate e context s = .ok (lit, s'))

section isolation

variable {D : Defs} {Q : VarId → Prop} (hsplits : D.Splits Q) {s₀ s s' : Slots}

include hsplits

theorem Call.exec_storedAs {depth : Nat} {call : Call} {res : WriteResult}
    (hreach : NotReached D Q call.request.inst.var call.request.priority)
    (hexec : call.exec D (calls D depth) s = .ok (res, s')) (hs : StoredAs Q s₀ s) :
    StoredAs Q s₀ s' := by
  have hguards := StoredAs.guards D Q s₀
  rcases Call.exec_cases D (calls D depth) call with ⟨res', -, hrefused⟩ | hrequest
  · rw [hrefused] at hexec
    obtain ⟨-, rfl⟩ := pure_ok_iff.mp hexec
    exact hs
  · rw [hrequest] at hexec
    exact varInstanceDoSetValue_guarded hguards (calls_keep hguards hsplits depth) hsplits
      (Or.inr ⟨call.request_ignoreBasePriority, hreach⟩) hexec hs

theorem AccessStep.storedAs (h : AccessStep D Q s s') (hs : StoredAs Q s₀ s) :
    StoredAs Q s₀ s' := by
  have hguards := StoredAs.guards D Q s₀
  cases h with
  | write hreach hexec => exact Call.exec_storedAs hsplits hreach hexec hs
  | @clear depth _ mode _ _ hreach hexec =>
      exact varInstanceClear_guarded hguards (calls_keep hguards hsplits depth) hsplits mode
        (Or.inr hreach) hexec hs
  | @read depth inst _ hexec =>
      exact (calls_keep hguards hsplits depth).tryGetValue inst hexec hs
  | @isEnabled depth inst _ hexec =>
      exact varInstanceIsEnabled_guarded (calls_keep hguards hsplits depth) inst hexec hs
  | @evaluate depth e context _ hexec =>
      exact (calls_keep hguards hsplits depth).exprEvaluate e context hexec hs

/-- **Isolation.**  No run of calls that write outside of `Q`, or below the base priorities in
`Q`, changes a stored value, its extra data, its priority or the number of slots of an array in
`Q`. -/
theorem isolated_of_run (h : Relation.ReflTransGen (AccessStep D Q) s s') : StoredAs Q s s' := by
  induction h with
  | refl => exact StoredAs.refl s
  | tail _ hstep ih => exact hstep.storedAs hsplits ih

end isolation

/-- `X_N` and `X_%` beside a variable `A` of the scripts. -/
def bystanderVars : List Var :=
  sampleVars ++ [
    { name := ['A'], type := 1, level := 0, varN := none, varNClients := [],
      priority := .scriptTransient, props := plainProps } ]

/-- The definitions made of these. -/
def bystanderDefs : Defs :=
  { sampleDefs (.literal (.boolean true)) with
    vars := fun v => bystanderVars[v]?
    defValue := fun _ => none
    boundGraph := BoundGraph.of_list (by decide) }

/-- A script tries to overwrite `X_1`, and then writes `A`. -/
theorem isolated_of_run_refused :
    ∃ s s' : Slots, (s.entry 1 [0]).value = some ['b'] ∧ (s'.entry 2 []).value = some ['x'] ∧
      Relation.ReflTransGen (AccessStep bystanderDefs fun v => v < 2) s s' ∧
      StoredAs (fun v => v < 2) s s' := by
  let D := bystanderDefs
  let overwrite : Call := .setValue ⟨1, [0]⟩ (some ['x']) none .weak .scriptTransient
  let write : Call := .setValue ⟨2, []⟩ (some ['x']) none .weak .scriptTransient
  let s := ((writeX 0 ['b']).exec D (calls D 8)).stateAfter Slots.init
  let s₁ := (overwrite.exec D (calls D 8)).stateAfter s
  let s₂ := (write.exec D (calls D 8)).stateAfter s₁
  have hvars : ∀ {v : VarId} {var : Var}, D.vars v = some var →
      (v < 2 → var.priority = .configuration) ∧ (¬ v < 2 → var.varN = none ∧ var.varNClients = []) := by
    intro v var hvar
    have hlt : v < 3 := (List.getElem?_eq_some_iff.mp hvar).1
    interval_cases v
    · obtain rfl := Option.some.inj hvar
      decide
    · obtain rfl := Option.some.inj hvar
      decide
    · obtain rfl := Option.some.inj hvar
      decide
  have hsplits : D.Splits fun v => v < 2 := by
    refine ⟨fun hv hvar hbound => ?_, fun hv hvar hclient => ?_, fun hv hvar => ?_⟩
    · rw [((hvars hvar).2 hv).1] at hbound
      exact nomatch hbound
    · rw [((hvars hvar).2 hv).2] at hclient
      exact nomatch hclient
    · rw [(hvars hvar).1 hv]
      decide
  have hfirst : overwrite.exec D (calls D 8) s = .ok (.failed, s₁) := ok_of_result (by decide)
  have hsecond : write.exec D (calls D 8) s₁ = .ok (.written, s₂) := ok_of_result (by decide)
  have hrefused := AccessStep.write (hsplits.notReached 1) hfirst
  have hwritten := AccessStep.write (hsplits.notReached 2) hsecond
  have hrun := (Relation.ReflTransGen.single hrefused).tail hwritten
  exact ⟨s, s₂, by decide, by decide, hrun, isolated_of_run hsplits hrun⟩

end Mkfli4l
