import Mkfli4l.Var.ReadEffects

/-!
# When a failed write leaves no trace

A write is refused at once when there is nothing to write, when indices are missing or
excessive and when its priority is below the base priority of the variable.  The other
two reasons to fail, the priority of the slot and the type of the value, are looked at
only after the bound of the array has been raised and the slot has been created.

The module determines when such a late failure changes nothing: the slot exists and the
bound is settled, which means that it need not be raised, or that it is written without
effect and that its own bound is settled in turn.  This is about calls that clear no
array, among them all calls with definitions that contain no regular expression match:
for them, reading a bound has no effect of its own.
-/

namespace Mkfli4l

open Lib Exec

/-! ### Nothing is cleared -/

section keeps

variable {D : Defs} {c : Callees}

/-- Computations that clear no array. -/
abbrev KeepsArrays {α : Type} (x : SlotExec α) : Prop :=
  Exec.Steps (fun s s' : Slots => s'.clears = s.clears) x

theorem readArrayBound_keeps (hcalm : c.Calm D) (instN : VarInstance) :
    KeepsArrays (readArrayBound c instN) :=
  fun _ _ _ h => (readArrayBound_calm hcalm instN).1 _ _ h

variable (hcalm : c.Calm D) (hwrite : ∀ r, KeepsArrays (c.doSetValue r))

include hcalm hwrite

theorem raiseBound_keeps (var : Var) (inst : VarInstance) :
    KeepsArrays (raiseBound D c var inst) := by
  intro s u s' h
  rcases raiseBound_cases h with ⟨-, rfl⟩ | ⟨last, b, varN, bound, s₁, -, -, -, -, hread, hend⟩
  · rfl
  · have hread := readArrayBound_keeps hcalm _ hread
    rcases hend with ⟨-, rfl⟩ | ⟨old, res, s₂, value, -, -, hset, hget⟩
    · exact hread
    · have hset := hwrite _ hset
      have hget := (hcalm.tryGetValue _ s₂).1 _ _ hget
      exact (hget.trans hset).trans hread

theorem openSlot_keeps (var : Var) (inst : VarInstance) (mode : AccessMode) (priority : Priority) :
    KeepsArrays (openSlot D c var inst mode priority) := by
  intro s access s' h
  obtain ⟨s₁, hraise, hcreate, -, -⟩ := openSlot_cases h
  have hgrows := varSlotGetOrCreate_creates c.depth inst hcreate
  exact hgrows.clears_eq.trans (raiseBound_keeps hcalm hwrite var inst hraise)

theorem varInstanceDoSetValue_keeps (r : SetRequest) :
    KeepsArrays (varInstanceDoSetValue D c r) := by
  intro s res s' h
  obtain ⟨var, -, ⟨-, -, rfl⟩ | ⟨-, -, access, s₁, hopen, hend⟩⟩ := varInstanceDoSetValue_cases h
  · rfl
  · have hopen := openSlot_keeps hcalm hwrite var r.inst r.mode r.priority hopen
    rcases hend with ⟨-, -, rfl⟩ | ⟨-, hgranted, hcommit⟩
    · exact hopen
    · exact (commit_grows hgranted.has hcommit).clears_eq.trans hopen

end keeps

theorem calls_keeps {D : Defs} (hfree : D.MatchFree) (depth : Nat) (r : SetRequest) :
    KeepsArrays ((calls D depth).doSetValue r) := by
  induction depth generalizing r with
  | zero => exact Exec.Steps.throw _
  | succ depth ih => exact varInstanceDoSetValue_keeps (calls_calm hfree.neverClears depth) ih r

/-! ### Settled bounds -/

/-- Writing the number to the bound has no effect: the slot exists and is protected by its
priority, the number is no numeral, or it is what a bound update has written before. -/
def BoundKept (s : Slots) (instN : VarInstance) (newBound : Int) : Prop :=
  s.has instN.var instN.indices = true ∧
    (.arrayBound < (s.entry instN.var instN.indices).priority ∨ newBound < 0 ∨
      ((s.entry instN.var instN.indices).value = some (formatInt newBound) ∧
        (s.entry instN.var instN.indices).priority = .arrayBound))

/-- The bound of an array is large enough for an element, or trying to raise it has no effect.
In the latter case its own bound has been tried first, after the bound has been read. -/
def Settled (D : Defs) : Nat → Slots → VarInstance → Prop
  | 0, _, _ => True
  | depth + 1, s, inst =>
      ∀ var last b varN old s₁, D.vars inst.var = some var →
        inst.indices.getLast? = some last → var.varN = some b → D.vars b = some varN →
        readArrayBound (calls D (depth + 1)) ⟨b, inst.indices.take varN.level⟩ s =
          .ok (some old, s₁) →
        uint32ToInt (last + 1) ≤ old ∨
          (BoundKept s ⟨b, inst.indices.take varN.level⟩ (uint32ToInt (last + 1)) ∧
            Settled D depth s₁ ⟨b, inst.indices.take varN.level⟩)

/-- A slot has been created, or the content of a slot on a level below `k` has changed. -/
def ChangedBelow (D : Defs) (k : Nat) (s s' : Slots) : Prop :=
  ∃ v var p, D.vars v = some var ∧ p.length = var.level ∧
    ((s.has v p = false ∧ s'.has v p = true) ∨
      (var.level < k ∧ s.has v p = true ∧ s'.has v p = true ∧
        ((s'.entry v p).value ≠ (s.entry v p).value ∨
          (s'.entry v p).priority ≠ (s.entry v p).priority)))

variable {depth : Nat} {res : WriteResult}

namespace ChangedBelow

variable {D : Defs} {k k' : Nat} {s t u : Slots}

theorem mono (h : ChangedBelow D k s t) (hle : k ≤ k') : ChangedBelow D k' s t := by
  obtain ⟨v, var, p, hvar, hlen, hnew | ⟨hlevel, hchange⟩⟩ := h
  · exact ⟨v, var, p, hvar, hlen, Or.inl hnew⟩
  · exact ⟨v, var, p, hvar, hlen, Or.inr ⟨hlevel.trans_le hle, hchange⟩⟩

theorem of_readEffect (heff : ReadEffect s t) (h : ChangedBelow D k t u) : ChangedBelow D k s u := by
  obtain ⟨v, var, p, hvar, hlen, h⟩ := h
  rw [heff.has_eq, (heff.entry v p).value, (heff.entry v p).priority] at h
  exact ⟨v, var, p, hvar, hlen, h⟩

theorem readEffect (h : ChangedBelow D k s t) (heff : ReadEffect t u) : ChangedBelow D k s u := by
  obtain ⟨v, var, p, hvar, hlen, h⟩ := h
  rw [← heff.has_eq, ← (heff.entry v p).value, ← (heff.entry v p).priority] at h
  exact ⟨v, var, p, hvar, hlen, h⟩

theorem grows (h : ChangedBelow D k s t) (hgrows : t.Grows D u) : ChangedBelow D k s u := by
  obtain ⟨v, var, p, hvar, hlen, ⟨hnot, hhas⟩ | ⟨hlevel, hold, hhas, hchange⟩⟩ := h
  · exact ⟨v, var, p, hvar, hlen, Or.inl ⟨hnot, hgrows.has hhas⟩⟩
  · refine ⟨v, var, p, hvar, hlen, Or.inr ⟨hlevel, hold, hgrows.has hhas, ?_⟩⟩
    rwa [hgrows.entry_eq v p hhas]

theorem commit {r : SetRequest} {rvar : Var} (h : ChangedBelow D k s t)
    (hgranted : Granted D t r rvar) (hcommit : commit D depth rvar r t = .ok ((), u))
    (hk : k ≤ rvar.level) : ChangedBelow D k s u := by
  refine grows ?_ (commit_grows hgranted.has hcommit)
  obtain ⟨v, var, p, hvar, hlen, ⟨hnot, hhas⟩ | ⟨hlevel, hold, hhas, hchange⟩⟩ := h
  · exact ⟨v, var, p, hvar, hlen, Or.inl ⟨hnot, by rwa [Slots.updateEntry_has]⟩⟩
  · have hne : ¬ (v = r.inst.var ∧ p = r.inst.indices) := by
      rintro ⟨rfl, -⟩
      obtain rfl : var = rvar := Option.some.inj (hvar.symm.trans hgranted.var_eq)
      omega
    refine ⟨v, var, p, hvar, hlen, Or.inr ⟨hlevel, hold, by rwa [Slots.updateEntry_has], ?_⟩⟩
    rwa [Slots.updateEntry_entry, if_neg hne]

end ChangedBelow

/-! ### Raising a bound -/

section raising

variable {D : Defs} {s s' : Slots}

variable {instN : VarInstance} {varN : Var} {newBound : Int}

theorem granted_boundRequest_iff
    (hvarN : D.vars instN.var = some varN) (hlen : instN.indices.length = varN.level)
    (htype : varN.type = D.types.arrayBoundType) (hhas : s.has instN.var instN.indices = true) :
    Granted D s (boundRequest instN newBound) varN ↔
      (s.entry instN.var instN.indices).priority ≤ .arrayBound ∧ 0 ≤ newBound := by
  have hmatch : D.types.vartypeMatch varN.type (formatInt newBound) = decide (0 ≤ newBound) := by
    rw [htype, D.types.arrayBoundType_formatInt]
  constructor
  · intro hgranted
    obtain ⟨text, htext, hok⟩ := hgranted.conforms rfl
    obtain rfl := Option.some.inj htext
    rw [hmatch] at hok
    exact ⟨of_decide_eq_true hgranted.admits, of_decide_eq_true hok⟩
  · rintro ⟨hpriority, hpos⟩
    exact ⟨hvarN, hlen, hhas, Or.inl rfl, decide_eq_true hpriority,
      fun _ => ⟨_, rfl, hmatch.trans (decide_eq_true hpos)⟩⟩

theorem commit_boundRequest_same
    (hvalue : (s.entry instN.var instN.indices).value = some (formatInt newBound))
    (hpriority : (s.entry instN.var instN.indices).priority = .arrayBound)
    (h : commit D depth varN (boundRequest instN newBound) s = .ok ((), s')) :
    ReadEffect s s' := by
  obtain ⟨s₁, hstore, rfl⟩ := commit_ok h
  have hsame : boundNumber (some (formatInt newBound)) ≤
      boundNumber (s.entry instN.var instN.indices).value := by
    rw [hvalue]
  obtain rfl := storeValue_of_le hsame hstore
  refine ⟨rfl, fun v p => ?_⟩
  simp only [Slots.updateEntry_entry, boundRequest]
  by_cases hhere : v = instN.var ∧ p = instN.indices
  · obtain ⟨rfl, rfl⟩ := hhere
    simp only [and_self, if_true]
    exact ⟨hvalue.symm, rfl, hpriority.symm, rfl, fun _ h => h⟩
  · simp only [if_neg hhere]
    exact ⟨rfl, rfl, rfl, rfl, fun _ h => h⟩

theorem raiseBound_clears {bound : Option Int} {value : Option VarValue} {s₁ s₂ : Slots}
    (hbound : ∃ v var, D.vars v = some var ∧ var.varN = some instN.var)
    (hread : readArrayBound (calls D depth) instN s = .ok (bound, s₁))
    (hset : (calls D depth).doSetValue (boundRequest instN newBound) s₁ = .ok (res, s₂))
    (hget : (calls D depth).tryGetValue instN s₂ = .ok (value, s')) (hclears : s'.clears = s.clears) :
    ReadEffect s s₁ ∧ s₂.clears = s₁.clears ∧ ReadEffect s₂ s' := by
  have hfirst := readArrayBound_reads (calls_reads D depth) instN hread
  have hmiddle := Moves.clears_le
    ((calls_sound D depth).doSetValue _ (Or.inl ⟨instN, newBound, rfl, hbound⟩) hset)
  have hlast := (calls_reads D depth).tryGetValue instN hget
  have hle := hfirst.1
  have hle' := hlast.1
  exact ⟨hfirst.2 (by omega), by omega, hlast.2 (by omega)⟩

theorem raiseBound_settled {inst : VarInstance} {var : Var} {u : Unit}
    (hvar : D.vars inst.var = some var) (hsettled : Settled D depth s inst)
    (h : raiseBound D (calls D depth) var inst s = .ok (u, s'))
    (hclears : s'.clears = s.clears) : ReadEffect s s' := by
  induction depth generalizing inst var s s' with
  | zero =>
      rcases raiseBound_cases h with ⟨-, rfl⟩ | ⟨last, b, varN, bound, s₁, -, -, -, -, hread, -⟩
      · exact ReadEffect.refl _
      · obtain ⟨value, s₂, hget, -⟩ := bind_ok_iff.mp hread
        exact (throw_ok_iff.mp hget).elim
  | succ depth ih =>
      rcases raiseBound_cases h with
        ⟨-, rfl⟩ | ⟨last, b, varN, bound, s₁, hlast, hb, hvarN, -, hread, hend⟩
      · exact ReadEffect.refl _
      · rcases hend with ⟨-, rfl⟩ | ⟨old, res, s₂, value, rfl, hless, hset, hget⟩
        · exact (readArrayBound_reads (calls_reads D _) _ hread).2 hclears
        · obtain ⟨heff, hclears₂, hagain⟩ :=
            raiseBound_clears ⟨inst.var, var, hvar, hb⟩ hread hset hget hclears
          rcases hsettled var last b varN old s₁ hvar hlast hb hvarN hread with
            hreached | ⟨⟨hhas, hkept⟩, hbelow⟩
          · exact absurd hless (not_lt.mpr hreached)
          · refine (heff.trans ?_).trans hagain
            obtain ⟨varN', hvarN', ⟨-, -, rfl⟩ | ⟨hlen, -, access, s₃, hopen, hwritten⟩⟩ :=
              varInstanceDoSetValue_cases hset
            · exact ReadEffect.refl _
            · obtain rfl : varN = varN' := Option.some.inj (hvarN.symm.trans hvarN')
              obtain ⟨s₄, hraise, hcreate, -, -⟩ := openSlot_cases hopen
              have hclears₃ : s₂.clears = s₃.clears := by
                rcases hwritten with ⟨-, -, rfl⟩ | ⟨-, hgranted, hcommit⟩
                · rfl
                · exact (commit_grows hgranted.has hcommit).clears_eq
              have hclears₄ := (varSlotGetOrCreate_creates _ _ hcreate).clears_eq
              have hraised := ih hvarN hbelow hraise (by omega)
              have hboth := heff.trans hraised
              have hhas₄ : s₄.has b (inst.indices.take varN.level) = true := by
                rw [hboth.has_eq]
                exact hhas
              obtain rfl := varSlotGetOrCreate_of_has hhas₄ hcreate
              rcases hwritten with ⟨-, -, rfl⟩ | ⟨-, hgranted, hcommit⟩
              · exact hraised
              · obtain ⟨varN'', hvarN'', -, htype, -⟩ := D.boundGraph.bound hvar hb
                obtain rfl : varN = varN'' := Option.some.inj (hvarN.symm.trans hvarN'')
                obtain ⟨hpriority, hpos⟩ :=
                  (granted_boundRequest_iff hvarN hlen htype hhas₄).mp hgranted
                have hentry := hboth.entry b (inst.indices.take varN.level)
                rcases hkept with hprotected | hneg | ⟨hvalue, hsame⟩
                · rw [← hentry.priority] at hprotected
                  exact absurd hprotected (not_lt.mpr hpriority)
                · exact absurd hneg (not_lt.mpr hpos)
                · exact hraised.trans (commit_boundRequest_same (hentry.value.trans hvalue)
                    (hentry.priority.trans hsame) hcommit)

/-- Writing a bound that is not kept, or whose own bound is not settled, changes something on a
level that is not above that of the bound. -/
theorem varInstanceDoSetValue_changes
    (hvarN : D.vars instN.var = some varN) (hlen : instN.indices.length = varN.level)
    (htype : varN.type = D.types.arrayBoundType)
    (hbelow : ∀ s₁, raiseBound D (calls D depth) varN instN s = .ok ((), s₁) →
      s₁.clears = s.clears → Settled D depth s instN ∨ ChangedBelow D varN.level s s₁)
    (hnot : ¬ (BoundKept s instN newBound ∧ Settled D depth s instN))
    (h : varInstanceDoSetValue D (calls D depth) (boundRequest instN newBound) s =
      .ok (res, s')) (hclears : s'.clears = s.clears) : ChangedBelow D (varN.level + 1) s s' := by
  obtain ⟨varN', hvarN', ⟨hrefused, -, -⟩ | ⟨-, -, access, s₁, hopen, hwritten⟩⟩ :=
    varInstanceDoSetValue_cases h
  · obtain rfl : varN = varN' := Option.some.inj (hvarN.symm.trans hvarN')
    rcases hrefused with hmissing | ⟨hbase, -⟩ | hexcess
    · exact absurd hlen (Nat.ne_of_lt hmissing)
    · exact nomatch hbase
    · exact absurd hlen (Nat.ne_of_gt hexcess)
  · obtain rfl : varN = varN' := Option.some.inj (hvarN.symm.trans hvarN')
    obtain ⟨s₂, hraise, hcreate, hhas₁, -⟩ := openSlot_cases hopen
    have hgrows := varSlotGetOrCreate_creates _ _ hcreate
    by_cases hsettled : Settled D depth s instN
    · -- the bound itself is not kept: compare the first state with the last one
      have hkept : ¬ BoundKept s instN newBound := fun hkept => hnot ⟨hkept, hsettled⟩
      have hend : s'.has instN.var instN.indices = true ∧
          (¬ Granted D s₁ (boundRequest instN newBound) varN ∧ s' = s₁ ∨
            (s'.entry instN.var instN.indices).value = some (formatInt newBound) ∧
              (s'.entry instN.var instN.indices).priority = .arrayBound) := by
        rcases hwritten with ⟨-, hrefused, rfl⟩ | ⟨-, hgranted, hcommit⟩
        · exact ⟨hhas₁, Or.inl ⟨hrefused, rfl⟩⟩
        · have hcommitted := commit_grows hgranted.has hcommit
          have hhas := hgranted.has
          rw [← Slots.updateEntry_has] at hhas
          refine ⟨hcommitted.has hhas, Or.inr ?_⟩
          have hentry := hcommitted.entry_eq _ _ hhas
          rw [Slots.updateEntry_entry, if_pos ⟨rfl, rfl⟩] at hentry
          exact ⟨congrArg SlotEntry.value hentry, congrArg SlotEntry.priority hentry⟩
      refine ⟨instN.var, varN, instN.indices, hvarN, hlen, ?_⟩
      by_cases hhas : s.has instN.var instN.indices = true
      · refine Or.inr ⟨Nat.lt_succ_self _, hhas, hend.1, ?_⟩
        by_contra hsame
        obtain ⟨hvalue, hpriority⟩ := not_or.mp hsame
        rw [ne_eq, not_not] at hvalue hpriority
        refine hkept ⟨hhas, ?_⟩
        rcases hend.2 with ⟨hrefused, rfl⟩ | ⟨hstored, hprio⟩
        · rw [granted_boundRequest_iff hvarN hlen htype hhas₁, not_and_or, hpriority, not_le,
            not_le] at hrefused
          rcases hrefused with hprotected | hneg
          · exact Or.inl hprotected
          · exact Or.inr (Or.inl hneg)
        · exact Or.inr (Or.inr ⟨hvalue.symm.trans hstored, hpriority.symm.trans hprio⟩)
      · exact Or.inl ⟨Bool.eq_false_iff.mpr hhas, hend.1⟩
    · have hclears₁ : s'.clears = s₁.clears := by
        rcases hwritten with ⟨-, -, rfl⟩ | ⟨-, hgranted, hcommit⟩
        · rfl
        · exact (commit_grows hgranted.has hcommit).clears_eq
      have hclears₂ := hgrows.clears_eq
      have hchanged := ((hbelow s₂ hraise (by omega)).resolve_left hsettled).grows hgrows
      refine ChangedBelow.mono ?_ (Nat.le_succ varN.level)
      rcases hwritten with ⟨-, -, rfl⟩ | ⟨-, hgranted, hcommit⟩
      · exact hchanged
      · exact hchanged.commit hgranted hcommit (Nat.le_refl _)

theorem raiseBound_not_settled {inst : VarInstance} {var : Var} {u : Unit}
    (hvar : D.vars inst.var = some var) (h : raiseBound D (calls D depth) var inst s = .ok (u, s'))
    (hclears : s'.clears = s.clears) :
    Settled D depth s inst ∨ ChangedBelow D var.level s s' := by
  induction depth generalizing inst var s s' with
  | zero => exact Or.inl trivial
  | succ depth ih =>
      by_cases hsettled : Settled D (depth + 1) s inst
      · exact Or.inl hsettled
      right
      rcases raiseBound_cases h with
        ⟨hnil, -⟩ | ⟨last, b, varN, bound, s₁, hlast, hb, hvarN, hlen, hread, hend⟩
      · refine absurd ?_ hsettled
        intro _ last _ _ _ _ _ hlast
        rw [hnil] at hlast
        exact nomatch hlast
      · obtain ⟨varN', hvarN', hlevel, htype, -⟩ := D.boundGraph.bound hvar hb
        obtain rfl : varN = varN' := Option.some.inj (hvarN.symm.trans hvarN')
        -- what the definition of settled bounds says about this bound
        have hunsettled : ∃ old, bound = some old ∧ old < uint32ToInt (last + 1) ∧
            ¬ (BoundKept s ⟨b, inst.indices.take varN.level⟩ (uint32ToInt (last + 1)) ∧
              Settled D depth s₁ ⟨b, inst.indices.take varN.level⟩) := by
          by_contra hall
          refine hsettled ?_
          intro var₁ last₁ b₁ varN₁ old s₂ hvar₁ hlast₁ hb₁ hvarN₁ hread₁
          obtain rfl : var = var₁ := Option.some.inj (hvar.symm.trans hvar₁)
          obtain rfl : last = last₁ := Option.some.inj (hlast.symm.trans hlast₁)
          obtain rfl : b = b₁ := Option.some.inj (hb.symm.trans hb₁)
          obtain rfl : varN = varN₁ := Option.some.inj (hvarN.symm.trans hvarN₁)
          obtain ⟨rfl, rfl⟩ := Prod.mk.inj (Except.ok.inj (hread.symm.trans hread₁))
          by_contra hneither
          obtain ⟨hless, hnot⟩ := not_or.mp hneither
          exact hall ⟨old, rfl, not_le.mp hless, hnot⟩
        obtain ⟨old, rfl, hless, hnot⟩ := hunsettled
        rcases hend with ⟨hreached, -⟩ | ⟨_, res, s₂, value, -, -, hset, hget⟩
        · exact absurd hless (not_lt.mpr (hreached old rfl))
        · obtain ⟨heff, hclears₂, hagain⟩ :=
            raiseBound_clears ⟨inst.var, var, hvar, hb⟩ hread hset hget hclears
          have hkept : ¬ (BoundKept s₁ ⟨b, inst.indices.take varN.level⟩
                (uint32ToInt (last + 1)) ∧
              Settled D depth s₁ ⟨b, inst.indices.take varN.level⟩) := by
            intro hboth
            refine hnot ⟨?_, hboth.2⟩
            have hentry := heff.entry b (inst.indices.take varN.level)
            have hkept₁ := hboth.1
            unfold BoundKept at hkept₁
            rwa [heff.has_eq, hentry.priority, hentry.value] at hkept₁
          have htake : (inst.indices.take varN.level).length = varN.level := by
            rw [List.length_take]
            omega
          have hchanged := varInstanceDoSetValue_changes hvarN htake htype
            (fun s₃ hraise hclears₃ => ih hvarN hraise hclears₃) hkept hset hclears₂
          rw [hlevel] at hchanged
          exact (ChangedBelow.of_readEffect heff hchanged).readEffect hagain

end raising

/-! ### Failed writes -/

/-- The stored value and the priority of every slot and the number of slots of every array are
the same. -/
def Unchanged (D : Defs) (s s' : Slots) : Prop :=
  ∀ v var p, D.vars v = some var → p.length ≤ var.level →
    s'.has v p = s.has v p ∧
      (s.has v p = true →
        (p.length < var.level → s'.numSlots v p = s.numSlots v p) ∧
        (p.length = var.level → (s'.entry v p).value = (s.entry v p).value ∧
          (s'.entry v p).priority = (s.entry v p).priority))

theorem ReadEffect.unchanged {D : Defs} {s s' : Slots} (h : ReadEffect s s') : Unchanged D s s' := by
  intro v var p _ _
  refine ⟨h.has_eq v p, fun _ => ⟨fun _ => by rw [h.numSlots], fun _ => ?_⟩⟩
  exact ⟨(h.entry v p).value, (h.entry v p).priority⟩

theorem ChangedBelow.not_unchanged {D : Defs} {k : Nat} {s s' : Slots}
    (h : ChangedBelow D k s s') : ¬ Unchanged D s s' := by
  obtain ⟨v, var, p, hvar, hlen, hchange⟩ := h
  intro hsame
  obtain ⟨hhas, hcontent⟩ := hsame v var p hvar (le_of_eq hlen)
  rcases hchange with ⟨hnot, hnew⟩ | ⟨-, hold, -, hchange⟩
  · rw [hnew, hnot] at hhas
    exact nomatch hhas
  · obtain ⟨hvalue, hpriority⟩ := (hcontent hold).2 hlen
    rcases hchange with hne | hne
    · exact hne hvalue
    · exact hne hpriority

namespace Call

/-- The call has nothing to write. -/
def Empty : Call → Prop
  | setValue _ value extra _ _ => value = none ∧ extra = none
  | setAndCheckValue _ value _ _ _ => value = none

/-- The call is refused before any slot is looked at: there is nothing to write, indices are
missing or excessive, or the priority is below the base priority. -/
def Refused (D : Defs) (call : Call) : Prop :=
  call.Empty ∨ ∃ var, D.vars call.request.inst.var = some var ∧
    (call.request.inst.indices.length ≠ var.level ∨ call.request.priority < var.priority)

theorem exec_empty {D : Defs} {c : Callees} {call : Call} {s s' : Slots}
    (hempty : call.Empty) (h : call.exec D c s = .ok (res, s')) : s' = s := by
  cases call with
  | setValue inst value extra mode priority =>
      rw [show (setValue inst value extra mode priority).exec D c = pure .ignored from
        if_pos hempty] at h
      exact (pure_ok_iff.mp h).2.symm
  | setAndCheckValue inst value extra mode priority =>
      obtain rfl : value = none := hempty
      exact (pure_ok_iff.mp h).2.symm

theorem exec_eq_doSetValue {D : Defs} {c : Callees} {call : Call} (hempty : ¬ call.Empty) :
    call.exec D c = varInstanceDoSetValue D c call.request := by
  cases call with
  | setValue inst value extra mode priority => exact if_neg hempty
  | setAndCheckValue inst value extra mode priority =>
      cases value with
      | none => exact absurd rfl hempty
      | some text => rfl

end Call

/-- A call that fails or is ignored changes no stored value, no priority and no number of slots
exactly if it is refused at once, or the slot exists and its bound is settled.  The definitions
contain no match, or at least the call has not cleared the array of matched groups. -/
theorem failed_call_unchanged_iff {D : Defs} {depth : Nat} {call : Call} {res : WriteResult}
    {s s' : Slots} (hexec : call.exec D (calls D depth) s = .ok (res, s'))
    (hres : res ≠ .written) (hquiet : D.MatchFree ∨ s'.clears = s.clears) :
    Unchanged D s s' ↔
      call.Refused D ∨
        (s.has call.request.inst.var call.request.inst.indices = true ∧
          Settled D depth s call.request.inst) := by
  by_cases hempty : call.Empty
  · obtain rfl := Call.exec_empty hempty hexec
    exact ⟨fun _ => Or.inl (Or.inl hempty), fun _ => (ReadEffect.refl s').unchanged⟩
  rw [Call.exec_eq_doSetValue hempty] at hexec
  have hclears : s'.clears = s.clears := by
    rcases hquiet with hfree | hclears
    · exact calls_keeps hfree (depth + 1) call.request hexec
    · exact hclears
  obtain ⟨var, hvar, ⟨hrefused, -, rfl⟩ | ⟨hlen, hopen, access, s₁, haccess, hend⟩⟩ :=
    varInstanceDoSetValue_cases hexec
  · refine ⟨fun _ => Or.inl (Or.inr ⟨var, hvar, ?_⟩), fun _ => (ReadEffect.refl s').unchanged⟩
    rcases hrefused with hmissing | ⟨-, hbase⟩ | hexcess
    · exact Or.inl (Nat.ne_of_lt hmissing)
    · exact Or.inr hbase
    · exact Or.inl (Nat.ne_of_gt hexcess)
  · -- a late failure: the slot has been opened and the request has not been granted
    obtain rfl : s' = s₁ := by
      rcases hend with ⟨-, -, rfl⟩ | ⟨hwritten, -, -⟩
      · rfl
      · exact absurd hwritten hres
    obtain ⟨s₂, hraise, hcreate, hhas, -⟩ := openSlot_cases haccess
    have hgrows := varSlotGetOrCreate_creates _ _ hcreate
    have hclears₂ : s₂.clears = s.clears := hgrows.clears_eq.symm.trans hclears
    constructor
    · intro hsame
      refine Or.inr ⟨?_, ?_⟩
      · rw [← (hsame _ var _ hvar (le_of_eq hlen)).1]
        exact hhas
      · rcases raiseBound_not_settled hvar hraise hclears₂ with hsettled | hchanged
        · exact hsettled
        · exact absurd hsame (hchanged.grows hgrows).not_unchanged
    · rintro ((hempty' | ⟨var', hvar', hrefused⟩) | ⟨hold, hsettled⟩)
      · exact absurd hempty' hempty
      · obtain rfl : var = var' := Option.some.inj (hvar.symm.trans hvar')
        rcases hrefused with hne | hbase
        · exact absurd hlen hne
        · exact absurd (Or.inl ⟨call.request_ignoreBasePriority, hbase⟩) hopen
      · have heff := raiseBound_settled hvar hsettled hraise hclears₂
        have hstill : s₂.has call.request.inst.var call.request.inst.indices = true := by
          rw [heff.has_eq]
          exact hold
        obtain rfl := varSlotGetOrCreate_of_has hstill hcreate
        exact heff.unchanged

/-! ### An array of numbers -/

/-- `X_N` and an array `X_%` of numbers. -/
def numberVars : List Var :=
  [ { name := "X_N".toList, type := 0, level := 0, varN := none, varNClients := [1],
      priority := .configuration, props := boundProps },
    { name := "X_%".toList, type := 0, level := 1, varN := some 0, varNClients := [],
      priority := .configuration, props := plainProps } ]

/-- The definitions made of `X_N` and an array `X_%` of numbers. -/
def numberDefs : Defs where
  types := sampleTypes
  vars := fun v => numberVars[v]?
  condition := fun _ => .literal (.boolean true)
  defValue := fun v => (numberVars[v]?).bind fun var => var.props.defValue
  matchArray := none
  boundGraph := BoundGraph.of_list (by decide)

/-- Set `X_3` and check the value. -/
def setX3 (text : CString) : SlotExec WriteResult :=
  (Call.setAndCheckValue ⟨1, [2]⟩ (some text) none .weak .configuration).exec numberDefs
    (calls numberDefs 8)

/-- When `X_3` is a number already, setting it to something else fails without a trace. -/
theorem failed_call_unchanged_iff_X_3 :
    ∃ s s', setX3 ['1'] Slots.init = .ok (.written, s) ∧ setX3 ['a'] s = .ok (.failed, s') ∧
      Unchanged numberDefs s s' := by
  let s := (setX3 ['1']).stateAfter Slots.init
  let read : SlotExec (Option Int) := readArrayBound (calls numberDefs 8) ⟨0, []⟩
  have hfirst : setX3 ['1'] Slots.init = .ok (.written, s) := ok_of_result (by decide)
  have hsecond : setX3 ['a'] s = .ok (.failed, (setX3 ['a']).stateAfter s) :=
    ok_of_result (by decide)
  have hread : read s = .ok (some 3, read.stateAfter s) := ok_of_result (by decide)
  have hsettled : Settled numberDefs 8 s ⟨1, [2]⟩ := by
    intro var last b varN old s₁ hvar hlast hb hvarN hbound
    obtain rfl : numberVars[1] = var := Option.some.inj hvar
    obtain rfl : 0 = b := Option.some.inj hb
    obtain rfl : numberVars[0] = varN := Option.some.inj hvarN
    obtain rfl : 2 = last := Option.some.inj hlast
    obtain ⟨hold, -⟩ := Prod.mk.inj (Except.ok.inj (hread.symm.trans hbound))
    obtain rfl := Option.some.inj hold
    exact Or.inl (by decide)
  exact ⟨s, (setX3 ['a']).stateAfter s, hfirst, hsecond,
    (failed_call_unchanged_iff hsecond (by decide) (Or.inr (by decide))).mpr
      (Or.inr ⟨by decide, hsettled⟩)⟩

/-- Setting `X_3` to something that is no number fails, but leaves `X_N` at 3 and three slots. -/
theorem failed_call_changes_bound :
    ∃ s', setX3 ['a'] Slots.init = .ok (.failed, s') ∧ (s'.entry 0 []).value = some ['3'] ∧
      s'.numSlots 1 [] = 3 ∧ ¬ Unchanged numberDefs Slots.init s' := by
  let s' := (setX3 ['a']).stateAfter Slots.init
  have hexec : setX3 ['a'] Slots.init = .ok (.failed, s') := ok_of_result (by decide)
  have hvalue : (s'.entry 0 []).value = some ['3'] := by decide
  refine ⟨s', hexec, hvalue, by decide, fun hsame => ?_⟩
  have hbound := ((hsame 0 numberVars[0] [] rfl (by decide)).2 rfl).2 rfl
  rw [hvalue] at hbound
  exact nomatch hbound.1

end Mkfli4l
