import Mkfli4l.Expression.Respected
import Mkfli4l.Var.ReadEffects
import Mkfli4l.Grammar.VarNames

/-!
# Which writes stay within the arrays

`var_instance_get_slot_for_writing` makes room for a slot and then steps to it.  The
new size of an array is `index + 1` in `unsigned` arithmetic, so that the largest index
asks for an array without entries.  This module shows that it is the only index that
does harm: a write in the course of which no regular expression match clears an array
stays within the arrays, and shrinks none of them, exactly if it is refused at once or
no index of the name wraps.
-/

namespace Mkfli4l

open Lib

/-- The call does not leave an array; when it comes back, no array has fewer entries than
before, and every index leads to an entry of its array unless the write was refused at once. -/
def IndexSafe (var : Var) (inst : VarInstance) (priority : Priority) (ignoreBasePriority : Bool)
    (s : Slots) (result : Except Fault (SlotAccess × Slots)) : Prop :=
  match result with
  | .error e => e ≠ .outOfBounds
  | .ok (_, s') =>
      (∀ v p, s.has v p = true → s.numSlots v p ≤ s'.numSlots v p) ∧
        (RefusedAtOnce var inst priority ignoreBasePriority ∨
          s'.has inst.var inst.indices = true)

theorem Moves.numSlots_le {D : Defs} {A : SetRequest → Prop} {s s' : Slots} (h : Moves D A s s')
    (hclears : s'.clears = s.clears) {v : VarId} {p : List UInt32} (hp : s.has v p = true) :
    s.numSlots v p ≤ s'.numSlots v p ∧ s'.has v p = true := by
  refine Moves.invariant
    (I := fun t => s.numSlots v p ≤ t.numSlots v p ∧ t.has v p = true) ?_ h hclears
    ⟨UInt32.le_refl _, hp⟩
  intro t t' hmove hsame hI
  cases hmove with
  | cacheDefault hhas htext => rwa [Slots.updateEntry_has]
  | readActive inst active => rwa [Slots.updateEntry_has]
  | cycle => rwa [Slots.reportCycle_has]
  | create hgrows => exact ⟨UInt32.le_trans hI.1 (hgrows.numSlots_le v p hI.2), hgrows.has hI.2⟩
  | write hallowed hgranted hcommit =>
      have hgrows := commit_grows hgranted.has hcommit
      have hhas := hI.2
      rw [← Slots.updateEntry_has] at hhas
      exact ⟨UInt32.le_trans hI.1 (hgrows.numSlots_le v p hhas), hgrows.has hhas⟩
  | clear hmatch =>
      have : t.clears + 1 = t.clears := hsame
      omega

/-! ### Internal bound updates -/

/-- A bound update that no index has wrapped for: it has the indices of a complete instance of
a bound, none of them the largest one, and its number is positive or, for an index beyond the
range of `int`, negative. -/
structure SoundBoundUpdate (D : Defs) (instN : VarInstance) (newBound : Int) : Prop where
  bound : ∃ v var, D.vars v = some var ∧ var.varN = some instN.var
  complete : ∀ varN, D.vars instN.var = some varN → varN.level ≤ instN.indices.length
  indices : uintMax ∉ instN.indices
  nonzero : newBound ≠ 0
  range : newBound < 2147483648

variable {inst : VarInstance} {var : Var}

section calm

variable {D : Defs} {c : Callees} {s : Slots}

theorem ne_of_not_mem {i j : UInt32} {l : List UInt32} (hi : i ∉ l) (hj : j ∈ l) : j ≠ i := by
  rintro rfl
  exact hi hj

theorem varSlotGetOrCreate_calm (depth : Nat)
    (hmax : uintMax ∉ inst.indices) : CalmAt (varSlotGetOrCreate D depth inst) s :=
  ⟨fun _ _ h => (varSlotGetOrCreate_creates depth inst h).clears_eq,
    varSlotGetOrCreate_spares depth (fun _ => ne_of_not_mem hmax) s⟩

theorem toUInt32_boundNumber_ne {value : Option CString} (h : boundNumber value ≠ 0) :
    toUInt32 (boundNumber value - 1) ≠ uintMax := by
  have hrange : -2147483648 ≤ boundNumber value ∧ boundNumber value < 2147483648 := by
    unfold boundNumber
    cases hconv : value.bind varValueConvertToInteger with
    | none => simp
    | some n =>
        obtain ⟨text, -, htext⟩ := Option.bind_eq_some_iff.mp hconv
        exact varValueConvertToInteger_range htext
  rw [Ne, ← UInt32.toNat_inj]
  have hmax : uintMax.toNat = 4294967295 := rfl
  rw [hmax, toUInt32, UInt32.toNat_ofNat']
  omega

theorem storeValue_calm (depth : Nat) (var : Var) {value : CString}
    (hmax : uintMax ∉ inst.indices) (hvalue : boundNumber (some value) ≠ 0) :
    CalmAt (storeValue D depth var inst value) s := by
  have hindices : uintMax ∉ inst.indices ++ [toUInt32 (boundNumber (some value) - 1)] := by
    rw [List.mem_append, List.mem_singleton, not_or]
    exact ⟨hmax, fun h => toUInt32_boundNumber_ne hvalue h.symm⟩
  refine CalmAt.get_bind (CalmAt.bind (CalmAt.modify rfl) fun _ s' _ => ?_)
  refine CalmAt.ite (fun _ => ⟨fun u s'' h => ?_, ?_⟩) fun _ => CalmAt.pure ()
  · exact (CreatesOnly.forM var.varNClients
      (fun client _ => varSlotGetOrCreate_creates depth _) h).clears_eq
  · exact Exec.Spares.forM var.varNClients
      (fun client _ => varSlotGetOrCreate_spares depth fun _ => ne_of_not_mem hindices) s'

theorem boundNumber_formatInt {n : Int} (hpos : 0 ≤ n) (hrange : n < 2147483648) :
    boundNumber (some (formatInt n)) = n := by
  have hlong : n ≤ longMax := by
    unfold longMax
    omega
  refine boundNumber_some ?_
  simp [varValueConvertToInteger, strtol_formatInt hpos hlong,
    toInt32_of_range (by omega : (-2147483648 : Int) ≤ n) hrange]

variable (hcalm : c.Calm D)
  (hwrite : ∀ instN newBound s, SoundBoundUpdate D instN newBound →
    CalmAt (c.doSetValue (boundRequest instN newBound)) s)

include hcalm hwrite

theorem raiseBound_calm (hvar : D.vars inst.var = some var)
    (hlen : var.level ≤ inst.indices.length) (hmax : uintMax ∉ inst.indices) :
    CalmAt (raiseBound D c var inst) s := by
  unfold raiseBound
  cases hlast : inst.indices.getLast? with
  | none => exact CalmAt.pure ()
  | some last =>
      refine CalmAt.bind ?_ fun _ _ _ => CalmAt.pure ()
      refine boundInstance_bind_calm hvar hlen fun b varN hb hvarN hlevel => ?_
      have hlast_ne : last ≠ uintMax := ne_of_not_mem hmax (List.mem_of_getLast? hlast)
      have hupdate : SoundBoundUpdate D ⟨b, inst.indices.take varN.level⟩
          (uint32ToInt (last + 1)) := by
        refine ⟨⟨inst.var, var, hvar, hb⟩, ?_, fun h => hmax (List.mem_of_mem_take h), ?_, ?_⟩
        · intro varN' hvarN'
          obtain rfl : varN = varN' := Option.some.inj (hvarN.symm.trans hvarN')
          rw [List.length_take]
          omega
        · intro hzero
          have hsub := toUInt32_uint32ToInt_sub_one last
          rw [hzero] at hsub
          exact hlast_ne (hsub.symm.trans (by decide))
        · unfold uint32ToInt toInt32
          split <;> omega
      refine CalmAt.bind (readArrayBound_calm hcalm _) fun bound s₁ _ => ?_
      cases bound with
      | none => exact CalmAt.pure false
      | some oldBound =>
          refine CalmAt.ite (fun _ => ?_) fun _ => CalmAt.pure true
          refine CalmAt.bind (hwrite _ _ _ hupdate) fun _ s₂ _ => ?_
          refine CalmAt.bind (hcalm.tryGetValue _ _) fun value s₃ _ => ?_
          rcases value with _ | ⟨_ | text, _, _, _⟩
          · exact CalmAt.pure _
          · exact CalmAt.throw (by decide)
          · exact CalmAt.pure _

theorem varInstanceGetSlotForWriting_calm
    (hvar : D.vars inst.var = some var) (hlen : var.level ≤ inst.indices.length)
    (hmax : uintMax ∉ inst.indices) (mode : AccessMode) (priority : Priority)
    (ignoreBasePriority : Bool) :
    CalmAt (varInstanceGetSlotForWriting D c inst mode priority ignoreBasePriority) s := by
  refine CalmAt.deref_bind fun var' hvar' => ?_
  obtain rfl : var = var' := Option.some.inj (hvar.symm.trans hvar')
  refine CalmAt.ite (fun _ => CalmAt.pure _) fun _ => CalmAt.ite (fun _ => CalmAt.pure _)
    fun hexcess => ?_
  refine CalmAt.bind (raiseBound_calm hcalm hwrite hvar hlen hmax) fun _ s₁ _ => ?_
  refine CalmAt.bind (varSlotGetOrCreate_calm c.depth hmax) fun _ s₂ hcreate => ?_
  have hhas : s₂.has inst.var inst.indices = true :=
    varSlotGetOrCreate_has hvar (Nat.not_lt.mp hexcess) (fun _ => ne_of_not_mem hmax) hcreate
  refine CalmAt.derefSlot_bind hhas (CalmAt.get_bind ?_)
  exact CalmAt.ite (fun _ => CalmAt.pure _) fun _ => CalmAt.pure _

theorem varInstanceDoSetValue_calm {instN : VarInstance} {newBound : Int}
    (hupdate : SoundBoundUpdate D instN newBound) :
    CalmAt (varInstanceDoSetValue D c (boundRequest instN newBound)) s := by
  obtain ⟨⟨v, var, hvar, hb⟩, hcomplete, hmax, hnonzero, hrange⟩ := hupdate
  obtain ⟨varN, hvarN, -, htype, -⟩ := D.boundGraph.bound hvar hb
  refine CalmAt.deref_bind fun varN' hvarN' => ?_
  obtain rfl : varN = varN' := Option.some.inj (hvarN.symm.trans hvarN')
  refine CalmAt.ite (fun _ => CalmAt.pure _) fun _ => ?_
  refine CalmAt.bind (varInstanceGetSlotForWriting_calm hcalm hwrite hvarN
    (hcomplete varN hvarN) hmax _ _ _) fun access s₁ _ => ?_
  cases access with
  | invalid => exact CalmAt.pure _
  | rejected => exact CalmAt.pure _
  | granted =>
      refine CalmAt.bind (CalmAt.pure _) fun ok s₂ hok => CalmAt.ite (fun hpassed => ?_)
        fun _ => CalmAt.pure _
      -- the type of array bounds has rejected negative numbers
      obtain ⟨hmatch, rfl⟩ := Exec.pure_ok_iff.mp hok
      have hpos : 0 ≤ newBound := by
        rw [← hmatch, htype, D.types.arrayBoundType_formatInt] at hpassed
        exact of_decide_eq_true hpassed
      have hnumber := boundNumber_formatInt hpos hrange
      refine CalmAt.bind (CalmAt.bind (storeValue_calm c.depth varN hmax ?_)
        fun _ _ _ => CalmAt.modify rfl) fun _ _ _ => CalmAt.pure _
      rw [hnumber]
      exact hnonzero

end calm

theorem calls_doSetValue_calm {D : Defs} (hfree : D.NeverClears) (depth : Nat)
    {instN : VarInstance} {newBound : Int} (s : Slots)
    (hupdate : SoundBoundUpdate D instN newBound) :
    CalmAt ((calls D depth).doSetValue (boundRequest instN newBound)) s := by
  induction depth generalizing instN newBound s with
  | zero => exact CalmAt.throw (by decide)
  | succ depth ih =>
      exact varInstanceDoSetValue_calm (calls_calm hfree depth)
        (fun instN newBound s hupdate => ih s hupdate) hupdate

/-! ### Writes -/

/-- The call clears no array.  If it does not come back, it has come to no match that succeeds: without an
array for the matched groups, such a match is where it would have ended. -/
def ClearsNothing {α : Type} (D : Defs) (x : Defs → SlotExec α) (s : Slots) : Prop :=
  match x D s with
  | .ok (_, s') => s'.clears = s.clears
  | .error _ => x (D.withMatchArray none) s ≠ .error .definitionAdded

theorem ClearsNothing.stays {D : Defs} {s : Slots} {depth : Nat}
    {mode : AccessMode} {priority : Priority} {ignoreBasePriority : Bool}
    (h : ClearsNothing D (fun D => varInstanceGetSlotForWriting D (calls D depth) inst mode priority
      ignoreBasePriority) s)
    (hvar : D.vars inst.var = some var) (hlen : var.level ≤ inst.indices.length)
    (hmax : uintMax ∉ inst.indices) :
    varInstanceGetSlotForWriting D (calls D depth) inst mode priority ignoreBasePriority s ≠
      .error .outOfBounds := by
  intro hrun
  unfold ClearsNothing at h
  dsimp only at h
  rw [hrun] at h
  have hfree : (D.withMatchArray none).NeverClears := Defs.neverClears_of_none rfl
  have hcalm : CalmAt (varInstanceGetSlotForWriting (D.withMatchArray none)
      (calls (D.withMatchArray none) depth) inst mode priority ignoreBasePriority) s :=
    varInstanceGetSlotForWriting_calm (calls_calm hfree depth)
      (fun _ _ s hupdate => calls_doSetValue_calm hfree depth s hupdate) hvar hlen hmax mode priority
      ignoreBasePriority
  -- up to the first match that succeeds, the call is the one without an array for its groups
  have hsame := respected_upToMatch.ofVarInstanceGetSlotForWriting (m := none) (calls_upToMatch depth (D := D))
    inst mode priority ignoreBasePriority s
  rcases hsame with hadded | hsame
  · exact h hadded
  · exact hcalm.2 (hsame.symm.trans hrun)

/-- Index safety of the writes that text leads to, for a complete instance and any state of the
slots.  If the write is safe, it is refused at once or no index of the text wraps; conversely, it is
then safe if it clears nothing.  The first part is about calls that come back or leave an array, not
about those that end in another fault. -/
theorem indexSafe_iff_not_wraps {D : Defs} {lookup : CString → Option VarId} {s : Slots}
    {route : NameRoute} {inst : VarInstance} {var : Var} (depth : Nat) (mode : AccessMode)
    (priority : Priority) (ignoreBasePriority : Bool)
    (hroute : route.varInstance D lookup s = some inst) (hvar : D.vars inst.var = some var)
    (hcomplete : ¬ inst.indices.length < var.level) :
    ((∀ e, varInstanceGetSlotForWriting D (calls D depth) inst mode priority
          ignoreBasePriority s = .error e → e = .outOfBounds) →
      IndexSafe var inst priority ignoreBasePriority s
        (varInstanceGetSlotForWriting D (calls D depth) inst mode priority
          ignoreBasePriority s) →
      RefusedAtOnce var inst priority ignoreBasePriority ∨ ¬ route.Wraps D lookup s) ∧
    (ClearsNothing D (fun D => varInstanceGetSlotForWriting D (calls D depth) inst mode priority
        ignoreBasePriority) s →
      RefusedAtOnce var inst priority ignoreBasePriority ∨ ¬ route.Wraps D lookup s →
      IndexSafe var inst priority ignoreBasePriority s
        (varInstanceGetSlotForWriting D (calls D depth) inst mode priority
          ignoreBasePriority s)) := by
  constructor
  · intro hfault hsafe
    by_contra hnot
    rw [not_or, not_not, ← NameRoute.uintMax_mem_iff hroute] at hnot
    obtain ⟨hopen, hmax⟩ := hnot
    cases hrun : varInstanceGetSlotForWriting D (calls D depth) inst mode priority
        ignoreBasePriority s with
    | error e =>
        rw [hrun] at hsafe
        exact hsafe (hfault e hrun)
    | ok result =>
        obtain ⟨access, s'⟩ := result
        rw [hrun] at hsafe
        have hhas := hsafe.2.resolve_left hopen
        -- an index that wraps is `UINT_MAX`, and no array has a slot there
        exact Slots.ne_uintMax_of_has hhas uintMax hmax rfl
  · intro hclears hcond
    by_cases hrefused : RefusedAtOnce var inst priority ignoreBasePriority
    · obtain ⟨access, -, hrun⟩ := varInstanceGetSlotForWriting_refused mode s hvar hrefused
      rw [hrun]
      exact ⟨fun _ _ _ => UInt32.le_refl _, Or.inl hrefused⟩
    · have hmax : uintMax ∉ inst.indices := by
        rw [NameRoute.uintMax_mem_iff hroute]
        exact hcond.resolve_left hrefused
      have hstays := hclears.stays hvar (Nat.not_lt.mp hcomplete) hmax
      unfold ClearsNothing at hclears
      dsimp only at hclears
      cases hrun : varInstanceGetSlotForWriting D (calls D depth) inst mode priority
          ignoreBasePriority s with
      | error e =>
          rintro rfl
          exact hstays hrun
      | ok result =>
          obtain ⟨access, s'⟩ := result
          rw [hrun] at hclears
          rw [varInstanceGetSlotForWriting_opened mode s hvar hrefused] at hrun
          obtain ⟨hmoves, hhas⟩ := openSlot_moves (calls_sound D depth) hvar hrun
          -- only a clear makes an array smaller
          exact ⟨fun v p hp => (Moves.numSlots_le hmoves hclears hp).1, Or.inr hhas⟩

/-- Look up a variable of the sample definitions. -/
def sampleLookup (name : CString) : Option VarId := sampleVars.findIdx? fun var => var.name = name

/-- A condition with a match that is not evaluated. -/
def shortCondition : Expr :=
  .logicalOr (.literal (.boolean true)) (.regexMatch (.literal (.string ['a'])) (.literal (.string ['b'])))

/-- `X_3` is written safely. -/
theorem indexSafe_iff_not_wraps_X_3 :
    ∃ inst var, (NameRoute.classic "X_3".toList).varInstance
        (sampleDefs shortCondition) sampleLookup Slots.init = some inst ∧
      IndexSafe var inst .configuration false Slots.init
        (varInstanceGetSlotForWriting (sampleDefs shortCondition)
          (calls (sampleDefs shortCondition) 8) inst .weak .configuration false Slots.init) := by
  let D := sampleDefs shortCondition
  have hroute : (NameRoute.classic "X_3".toList).varInstance D sampleLookup Slots.init =
      some ⟨1, [2]⟩ := by decide
  have hvar : D.vars 1 = some sampleVars[1] := rfl
  have hwraps : ¬ (NameRoute.classic "X_3".toList).Wraps D sampleLookup Slots.init := by
    rw [← NameRoute.uintMax_mem_iff hroute]
    decide
  have hclears : ClearsNothing D (fun D => varInstanceGetSlotForWriting D (calls D 8) ⟨1, [2]⟩ .weak
      .configuration false) Slots.init := by
    unfold ClearsNothing
    rfl
  exact ⟨⟨1, [2]⟩, sampleVars[1], hroute,
    (indexSafe_iff_not_wraps 8 .weak .configuration false hroute hvar (by decide)).2
      hclears (Or.inr hwraps)⟩

/-- Writing the sample array through `route` leaves the array. -/
def UnsafeRoute (route : NameRoute) : Prop :=
  ∃ inst var, route.varInstance (sampleDefs (.literal (.boolean true))) sampleLookup
      Slots.init = some inst ∧
    (sampleDefs (.literal (.boolean true))).vars inst.var = some var ∧
    inst.indices.length = var.level ∧
    varInstanceGetSlotForWriting (sampleDefs (.literal (.boolean true)))
      (calls (sampleDefs (.literal (.boolean true))) 8) inst .strong .configuration false
      Slots.init = .error .outOfBounds ∧
    ¬ IndexSafe var inst .configuration false Slots.init (.error .outOfBounds)

theorem unsafeRoute_of_uintMax {route : NameRoute}
    (hroute : route.varInstance (sampleDefs (.literal (.boolean true))) sampleLookup
      Slots.init = some ⟨1, [uintMax]⟩) : UnsafeRoute route := by
  have hsafe : ¬ IndexSafe sampleVars[1] ⟨1, [uintMax]⟩ .configuration false Slots.init
      (.error .outOfBounds) := fun h => h rfl
  exact ⟨⟨1, [uintMax]⟩, sampleVars[1], hroute, rfl, rfl, rfl, hsafe⟩

/-- Neither the classic name `X_0` nor the target `X[4294967296]` is written safely: both denote
the largest index, and the write leaves the array. -/
theorem indexSafe_broken_by_zero_index :
    UnsafeRoute (.classic "X_0".toList) ∧ UnsafeRoute (.target "X[4294967296]".toList) :=
  ⟨unsafeRoute_of_uintMax (by decide), unsafeRoute_of_uintMax (by decide)⟩

end Mkfli4l
