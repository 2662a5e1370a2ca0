import Mkfli4l.Var.Coverage

/-!
# The shapes of the arrays below a bound

The arrays that descend from an array bound variable are meant to have one shape: at the
leading indices of the bound all of them have the same number of slots.  Growth is passed
on by a recursion over the clients which stops at every array that is large enough.

`var_slot_get_or_create` enlarges an array before it tells the clients of the bound, so the
recursion stops at that very array and never reaches its own clients.  `PendingBelow` describes
the slots afterwards: the shapes are equal except for what is below that array.  Creating a
slot of one of its clients moves the exception down to that client, and an array without
clients leaves no exception behind.
-/

namespace Mkfli4l

open Lib Exec Relation

/-- `v` is a client of the array bound variable `b`. -/
def ClientOf (D : Defs) (b v : VarId) : Prop := ∃ varN, D.vars b = some varN ∧ v ∈ varN.varNClients

/-- `v` is a client of `b`, a client of a client and so on. -/
abbrev Descends (D : Defs) : VarId → VarId → Prop := TransGen (ClientOf D)

/-- The arrays below a bound have the same number of slots at the leading indices of the bound. -/
def EqualShapes (D : Defs) (s : Slots) : Prop :=
  ∀ (b : VarId) (varN : Var) (v w : VarId) (p : List UInt32), D.vars b = some varN →
    Descends D b v → Descends D b w → p.length = varN.level → s.slotCount v p = s.slotCount w p

/-! ### The clients form a forest -/

variable {level : Nat} {p done rest : List UInt32} {y : VarId}

section forest

variable {D : Defs} {b b' v w : VarId} {varN var : Var}

theorem ClientOf.levels (h : ClientOf D b v) :
    ∃ varN var, D.vars b = some varN ∧ D.vars v = some var ∧ var.varN = some b ∧
      varN.level + 1 = var.level := by
  obtain ⟨varN, hvarN, hmem⟩ := h
  obtain ⟨var, hvar, hbound⟩ := D.boundGraph.client hvarN hmem
  obtain ⟨varN', hvarN', hlevel, -⟩ := D.boundGraph.bound hvar hbound
  obtain rfl : varN = varN' := Option.some.inj (hvarN.symm.trans hvarN')
  exact ⟨varN, var, hvarN, hvar, hbound, hlevel⟩

theorem ClientOf.level_eq (h : ClientOf D b v) (hb : D.vars b = some varN) :
    ∃ var, D.vars v = some var ∧ varN.level + 1 = var.level := by
  obtain ⟨varN', var, hb', hvar, -, hlevel⟩ := h.levels
  obtain rfl : varN = varN' := Option.some.inj (hb.symm.trans hb')
  exact ⟨var, hvar, hlevel⟩

theorem clientOf_of_varN (hvar : D.vars v = some var) (hb : var.varN = some b) :
    ClientOf D b v := by
  obtain ⟨varN, hvarN, -, -, -, hcount⟩ := D.boundGraph.bound hvar hb
  exact ⟨varN, hvarN, List.count_pos_iff.mp (by omega)⟩

theorem ClientOf.unique (h : ClientOf D b v) (h' : ClientOf D b' v) : b = b' := by
  obtain ⟨-, var, -, hvar, hb, -⟩ := h.levels
  obtain ⟨-, var', -, hvar', hb', -⟩ := h'.levels
  obtain rfl : var = var' := Option.some.inj (hvar.symm.trans hvar')
  exact Option.some.inj (hb.symm.trans hb')

theorem Descends.level_lt (h : Descends D b v) (hb : D.vars b = some varN) :
    ∃ var, D.vars v = some var ∧ varN.level < var.level := by
  induction h with
  | single hclient =>
      obtain ⟨var, hvar, hlevel⟩ := hclient.level_eq hb
      exact ⟨var, hvar, by omega⟩
  | tail _ hclient ih =>
      obtain ⟨var, hvar, hlt⟩ := ih
      obtain ⟨cvar, hcvar, hlevel⟩ := hclient.level_eq hvar
      exact ⟨cvar, hcvar, by omega⟩

theorem Descends.bound (h : Descends D b v) : ∃ varN, D.vars b = some varN := by
  obtain ⟨c, hclient, -⟩ := TransGen.head'_iff.mp h
  obtain ⟨varN, hvarN, -⟩ := hclient
  exact ⟨varN, hvarN⟩

theorem not_descends_self (v : VarId) : ¬ Descends D v v := by
  intro h
  obtain ⟨var, hvar⟩ := h.bound
  obtain ⟨var', hvar', hlt⟩ := h.level_lt hvar
  obtain rfl : var = var' := Option.some.inj (hvar.symm.trans hvar')
  omega

theorem Descends.above_client (h : Descends D b v) (hclient : ClientOf D b' v) :
    b = b' ∨ Descends D b b' := by
  obtain ⟨c, hbc, hcv⟩ := TransGen.tail'_iff.mp h
  obtain rfl := hcv.unique hclient
  rcases Relation.reflTransGen_iff_eq_or_transGen.mp hbc with rfl | hdesc
  · exact Or.inl rfl
  · exact Or.inr hdesc

theorem Descends.unique {varN' : Var} (h : Descends D b v) (h' : Descends D b' v)
    (hb : D.vars b = some varN) (hb' : D.vars b' = some varN') (hlevel : varN.level = varN'.level) :
    b = b' := by
  induction h with
  | single hclient =>
      rcases h'.above_client hclient with rfl | habove
      · rfl
      · obtain ⟨var, hvar, hlt⟩ := habove.level_lt hb'
        obtain rfl : varN = var := Option.some.inj (hb.symm.trans hvar)
        omega
  | tail hdesc hclient ih =>
      rcases h'.above_client hclient with rfl | habove
      · obtain ⟨var, hvar, hlt⟩ := Descends.level_lt hdesc hb
        obtain rfl : varN' = var := Option.some.inj (hb'.symm.trans hvar)
        omega
      · exact ih habove

/-- There is a bound above the variable on each of its levels. -/
def Chained (D : Defs) (v : VarId) (level : Nat) : Prop :=
  ∀ j < level, ∃ b varN, D.vars b = some varN ∧ varN.level = j ∧ Descends D b v

theorem Chained.bound (h : Chained D v level) (hclient : ClientOf D b v)
    (hb : D.vars b = some varN) (hlevel : varN.level ≤ level) : Chained D b varN.level := by
  intro j hj
  obtain ⟨b', varN', hb', hlevel', hdesc⟩ := h j (by omega)
  rcases hdesc.above_client hclient with rfl | habove
  · obtain rfl : varN = varN' := Option.some.inj (hb.symm.trans hb')
    omega
  · exact ⟨b', varN', hb', hlevel', habove⟩

theorem Chained.client (h : Chained D b varN.level) (hclient : ClientOf D b v)
    (hb : D.vars b = some varN) : Chained D v (varN.level + 1) := by
  intro j hj
  by_cases hlast : j = varN.level
  · exact ⟨b, varN, hb, hlast.symm, .single hclient⟩
  · obtain ⟨b', varN', hb', hlevel', hdesc⟩ := h j (by omega)
    exact ⟨b', varN', hb', hlevel', hdesc.tail hclient⟩

theorem Chained.above (h : Chained D v level) (hdesc : Descends D b v)
    (hb : D.vars b = some varN) (hvar : D.vars v = some var) (hlevel : var.level = level) :
    Chained D b varN.level := by
  induction hdesc generalizing var level with
  | single hclient =>
      obtain ⟨var', hvar', hnext⟩ := hclient.level_eq hb
      obtain rfl : var = var' := Option.some.inj (hvar.symm.trans hvar')
      exact h.bound hclient hb (by omega)
  | tail hdesc hclient ih =>
      obtain ⟨cvar, hcvar, -⟩ := Descends.level_lt hdesc hb
      obtain ⟨var', hvar', hnext⟩ := hclient.level_eq hcvar
      obtain rfl : var = var' := Option.some.inj (hvar.symm.trans hvar')
      exact ih (h.bound hclient hcvar (by omega)) hcvar rfl

theorem varNArray_ok {bounds : List VarId} {s s' : Slots}
    (hvar : D.vars v = some var) (hlevel : var.level = level)
    (h : varNArray D level var.varN s = .ok (bounds, s')) :
    bounds.length = level ∧ ∀ j b, bounds[j]? = some b →
      ∃ varN, D.vars b = some varN ∧ varN.level = j ∧ Descends D b v := by
  induction level generalizing v var bounds s s' with
  | zero =>
      obtain ⟨rfl, -⟩ := pure_ok_iff.mp h
      exact ⟨rfl, fun j b hb => nomatch hb⟩
  | succ level ih =>
      cases hb : var.varN with
      | none =>
          rw [hb] at h
          exact (throw_ok_iff.mp h).elim
      | some b =>
          rw [hb] at h
          obtain ⟨varN, s₁, hderef, hrun⟩ := bind_ok_iff.mp h
          obtain ⟨hvarN, rfl⟩ := Defs.deref_ok_iff.mp hderef
          obtain ⟨lower, s₂, hlower, hrun⟩ := bind_ok_iff.mp hrun
          obtain ⟨rfl, -⟩ := pure_ok_iff.mp hrun
          obtain ⟨varN', hvarN', hlevelN, -⟩ := D.boundGraph.bound hvar hb
          obtain rfl : varN = varN' := Option.some.inj (hvarN.symm.trans hvarN')
          have hclient := clientOf_of_varN hvar hb
          obtain ⟨hlen, hbounds⟩ := ih hvarN (by omega) hlower
          refine ⟨by simp [hlen], fun j b' hj => ?_⟩
          rcases Nat.lt_or_ge j level with hlt | hge
          · rw [List.getElem?_append_left (by omega)] at hj
            obtain ⟨varN', hb', hj', hdesc⟩ := hbounds j b' hj
            exact ⟨varN', hb', hj', hdesc.tail hclient⟩
          · rw [List.getElem?_append_right (by omega), hlen] at hj
            obtain ⟨hlt, heq⟩ := List.getElem?_eq_some_iff.mp hj
            simp only [List.length_singleton] at hlt
            simp only [List.getElem_singleton] at heq
            subst heq
            exact ⟨varN, hvarN, by omega, .single hclient⟩

end forest

/-! ### What indices ask of an array -/

/-- The number of slots that a slot with the given indices asks for at `q`: one more than the
index behind `q` if `q` is among its leading indices.  The successor of the largest index is
zero. -/
def demand (indices q : List UInt32) : Nat :=
  match indices[q.length]? with
  | some i => if indices.take q.length = q then (i + 1).toNat else 0
  | none => 0

section demand

variable {D : Defs} {s s' : Slots} {v : VarId} {indices q : List UInt32} {i : UInt32}

theorem demand_of_length_le (h : indices.length ≤ q.length) : demand indices q = 0 := by
  rw [demand, List.getElem?_eq_none h]

theorem demand_self (q rest : List UInt32) (i : UInt32) :
    demand (q ++ i :: rest) q = (i + 1).toNat := by
  simp [demand]

theorem demand_append (rest : List UInt32) (h : q.length < indices.length) :
    demand (indices ++ rest) q = demand indices q := by
  rw [demand, demand, List.getElem?_append_left h, List.take_append_of_le_length (by omega)]

theorem demand_concat_of_ne (h : q.length = indices.length) (hne : q ≠ indices) :
    demand (indices ++ [i]) q = 0 := by
  rw [demand, h]
  simp [Ne.symm hne]

theorem demand_take (indices : List UInt32) (k : Nat) (q : List UInt32) :
    demand (indices.take k) q = 0 ∨ demand (indices.take k) q = demand indices q := by
  by_cases h : q.length < (indices.take k).length
  · refine Or.inr ?_
    have happend := demand_append (indices.drop k) h
    rw [List.take_append_drop] at happend
    exact happend.symm
  · exact Or.inl (demand_of_length_le (by omega))

theorem Slots.slotCount_of_has (h : s.has v p = true) :
    s.slotCount v p = (s.numSlots v p).toNat := by
  rw [Slots.slotCount, if_pos h]

theorem Slots.has_iff_demand_le (hmax : ∀ i ∈ indices, i ≠ uintMax) :
    s.has v indices = true ↔ ∀ q, demand indices q ≤ s.slotCount v q := by
  induction indices using List.reverseRecOn with
  | nil => simp [demand]
  | append_singleton p i ih =>
      have hi : (i + 1).toNat = i.toNat + 1 := by
        have hne : i.toNat ≠ 4294967295 := fun h =>
          hmax i (by simp) (UInt32.toNat_inj.mp h)
        have hlt : i.toNat < 4294967296 := i.toNat_lt
        rw [UInt32.toNat_add, UInt32.toNat_one]
        omega
      have ih := ih fun j hj => hmax j (List.mem_append_left _ hj)
      rw [Slots.has_concat_iff, ih]
      constructor
      · rintro ⟨hp, hlt⟩ q
        rcases Nat.lt_trichotomy q.length p.length with hq | hq | hq
        · rw [demand_append _ hq]
          exact hp q
        · by_cases hqp : q = p
          · subst hqp
            rw [demand_self, hi, Slots.slotCount_of_has (ih.mpr hp)]
            exact hlt
          · rw [demand_concat_of_ne hq hqp]
            exact Nat.zero_le _
        · rw [demand_of_length_le (by simp; omega)]
          exact Nat.zero_le _
      · intro h
        have hp : ∀ q, demand p q ≤ s.slotCount v q := by
          intro q
          by_cases hq : q.length < p.length
          · rw [← demand_append [i] hq]
            exact h q
          · rw [demand_of_length_le (by omega)]
            exact Nat.zero_le _
        refine ⟨hp, ?_⟩
        have hlast := h p
        rw [demand_self, hi, Slots.slotCount_of_has (ih.mpr hp)] at hlast
        exact hlast

theorem Slots.demand_le_of_has (h : s.has v indices = true) (q : List UInt32) :
    demand indices q ≤ s.slotCount v q :=
  (Slots.has_iff_demand_le (Slots.ne_uintMax_of_has h)).mp h q

theorem Slots.has_eq_of_slotCount_eq (h : ∀ q, q.length < level → s'.slotCount v q = s.slotCount v q)
    (hp : p.length ≤ level) : s'.has v p = s.has v p := by
  induction p using List.reverseRecOn with
  | nil => rfl
  | append_singleton p i ih =>
      rw [List.length_append, List.length_singleton] at hp
      have ih := ih (by omega)
      have hcount := h p (by omega)
      rw [Bool.eq_iff_iff, Slots.has_concat_iff, Slots.has_concat_iff, ih]
      by_cases hhas : s.has v p = true
      · rw [Slots.slotCount_of_has hhas, Slots.slotCount_of_has (ih.trans hhas)] at hcount
        rw [UInt32.toNat_inj.mp hcount]
      · simp [hhas]

theorem Slots.resized_slotCount {tot : UInt32} {var uvar : Var} {u : VarId}
    (hvar : D.vars v = some var) (hhas : s.has v p = true) (hle : s.numSlots v p ≤ tot)
    (hu : D.vars u = some uvar) (hq : q.length < uvar.level) :
    (s.resized v p var.level tot).slotCount u q =
      if u = v ∧ q = p then tot.toNat else s.slotCount u q := by
  by_cases hne : u = v
  · subst hne
    obtain rfl : var = uvar := Option.some.inj (hvar.symm.trans hu)
    by_cases hold : s.has u q = true
    · rw [Slots.slotCount_of_has ((Slots.resized_grows hvar hle).has hold),
        Slots.resized_numSlots_of_has hold, Slots.slotCount_of_has hold]
      split <;> rfl
    · have hqp : ¬ (u = u ∧ q = p) := by
        rintro ⟨-, rfl⟩
        exact hold hhas
      rw [if_neg hqp, Slots.slotCount, Slots.slotCount, if_neg hold]
      split
      · next hnew =>
          rcases Slots.resized_has_cases (by omega) hnew with hold' | hsub
          · exact absurd hold' hold
          · have hlen : q.length = p.length + 1 := by
              cases q using List.reverseRecOn with
              | nil => simp [isSubslotIn] at hsub
              | append_singleton r j =>
                  obtain ⟨rfl, -, -⟩ := isSubslotIn_concat.mp hsub
                  simp
            have hdeep : ¬ p.length + 1 = var.level := by omega
            have hne : q ≠ p := fun h => hqp ⟨rfl, h⟩
            simp [Slots.resized, Slots.initSubslots, hdeep, hne, hsub]
      · rfl
  · rw [if_neg fun h => hne h.1, Slots.slotCount, Slots.slotCount,
      Slots.has_congr (Slots.resized_numSlots_of_ne hne) q, Slots.resized_numSlots_of_ne hne]

end demand

/-! ### Passing growth on -/

/-- The effect of growth: the arrays in `T` may have been brought up to what the indices ask for,
and nothing else has changed. -/
def Raises (D : Defs) (T : VarId → Prop) (indices : List UInt32) (s s' : Slots) : Prop :=
  ∀ u uvar q, D.vars u = some uvar → q.length < uvar.level →
    s'.slotCount u q = s.slotCount u q ∨
      (T u ∧ s'.slotCount u q = max (s.slotCount u q) (demand indices q))

namespace Raises

variable {D : Defs} {T T' : VarId → Prop} {indices : List UInt32} {s t u : Slots}

protected theorem refl (s : Slots) : Raises D T indices s s := fun _ _ _ _ _ => Or.inl rfl

protected theorem trans (h : Raises D T indices s t) (h' : Raises D T indices t u) :
    Raises D T indices s u := by
  intro v var q hvar hq
  rcases h v var q hvar hq with heq | ⟨hT, heq⟩ <;>
    rcases h' v var q hvar hq with heq' | ⟨hT', heq'⟩
  · exact Or.inl (heq'.trans heq)
  · exact Or.inr ⟨hT', by rw [heq', heq]⟩
  · exact Or.inr ⟨hT, by rw [heq', heq]⟩
  · refine Or.inr ⟨hT, ?_⟩
    rw [heq', heq]
    omega

theorem mono (h : Raises D T indices s t) (hT : ∀ v, T v → T' v) : Raises D T' indices s t := by
  intro v var q hvar hq
  rcases h v var q hvar hq with heq | ⟨hv, heq⟩
  · exact Or.inl heq
  · exact Or.inr ⟨hT v hv, heq⟩

theorem of_take {k : Nat} (h : Raises D T (indices.take k) s t) : Raises D T indices s t := by
  intro v var q hvar hq
  rcases h v var q hvar hq with heq | ⟨hv, heq⟩
  · exact Or.inl heq
  · rcases demand_take indices k q with hzero | hsame
    · rw [hzero, Nat.max_zero] at heq
      exact Or.inl heq
    · rw [hsame] at heq
      exact Or.inr ⟨hv, heq⟩

theorem slotCount_eq (h : Raises D T indices s t) {v : VarId} {var : Var} {q : List UInt32}
    (hvar : D.vars v = some var) (hq : q.length < var.level) (hv : ¬ T v) :
    t.slotCount v q = s.slotCount v q := by
  rcases h v var q hvar hq with heq | ⟨hT, -⟩
  · exact heq
  · exact absurd hT hv

theorem slotCount_eq_max (h : Raises D T indices s t) {v : VarId} {var : Var} {q : List UInt32}
    (hvar : D.vars v = some var) (hq : q.length < var.level) (hhas : t.has v indices = true) :
    t.slotCount v q = max (s.slotCount v q) (demand indices q) := by
  rcases h v var q hvar hq with heq | ⟨-, heq⟩
  · have hle := Slots.demand_le_of_has hhas q
    omega
  · exact heq

theorem has_eq (h : Raises D T indices s t) {v : VarId} {var : Var}
    (hvar : D.vars v = some var) (hp : p.length ≤ var.level) (hv : ¬ T v) :
    t.has v p = s.has v p :=
  Slots.has_eq_of_slotCount_eq (fun _ hq => h.slotCount_eq hvar hq hv) hp

theorem resized {v : VarId} {var : Var} {i : UInt32}
    (hvar : D.vars v = some var) (hdone : s.has v done = true) (hle : s.numSlots v done ≤ i + 1)
    (hv : T v) : Raises D T (done ++ i :: rest) s (s.resized v done var.level (i + 1)) := by
  intro u uvar q hu hq
  rw [Slots.resized_slotCount hvar hdone hle hu hq]
  split
  · next h =>
      obtain ⟨rfl, rfl⟩ := h
      refine Or.inr ⟨hv, ?_⟩
      rw [demand_self, Slots.slotCount_of_has hdone]
      have : (s.numSlots u q).toNat ≤ (i + 1).toNat := hle
      omega
  · exact Or.inl rfl

end Raises

section passing

variable {D : Defs} {depth : Nat} {indices : List UInt32} {s s' : Slots}

variable {expandClients : List UInt32 → SlotExec Unit} {x : VarId} {X : VarId → Prop}

theorem growPath_raises {v : VarId} {var : Var} {T : VarId → Prop} {u : Unit} {s₀ : Slots}
    (hvar : D.vars v = some var) (hv : T v) (hdone : done ++ rest <+: indices)
    (hclients : ∀ q, CreatesOnly D (expandClients q))
    (hexpand : ∀ q s₁ s₂, q <+: indices → q ≠ [] → s₀.Grows D s₁ →
      expandClients q s₁ = .ok ((), s₂) → Raises D T indices s₁ s₂) (hs : s₀.Grows D s)
    (h : growPath v var.level expandClients done rest s = .ok (u, s')) :
    Raises D T indices s s' := by
  induction rest generalizing done s with
  | nil =>
      obtain ⟨-, rfl⟩ := pure_ok_iff.mp h
      exact Raises.refl s
  | cons i rest ih =>
      obtain ⟨_, s₁, hderef, hrun⟩ := bind_ok_iff.mp h
      obtain ⟨hhas, rfl⟩ := derefSlot_ok_iff.mp hderef
      obtain ⟨_, s₂, hgrow, hrest⟩ := bind_ok_iff.mp hrun
      have hnext : done ++ [i] ++ rest <+: indices := by simpa using hdone
      rcases growSlot_ok_cases hgrow with ⟨-, rfl⟩ | ⟨-, hle, hcall⟩
      · exact ih hnext hs hrest
      · have hresized : s₀.Grows D (s.resized v done var.level (i + 1)) :=
          hs.trans (Slots.resized_grows hvar hle)
        have hfirst : Raises D T indices s (s.resized v done var.level (i + 1)) := by
          obtain ⟨tail, rfl⟩ := hdone
          rw [List.append_assoc, List.cons_append]
          exact Raises.resized hvar hhas hle hv
        have hpath : done ++ [i] <+: indices := (List.prefix_append _ _).trans hnext
        exact (hfirst.trans (hexpand _ _ _ hpath (by simp) hresized hcall)).trans
          (ih hnext (hresized.trans (hclients _ hcall)) hrest)

theorem growPath_append {v : VarId} {maxlevel : Nat} {q : List UInt32} {u : Unit}
    (h : growPath v maxlevel expandClients done (p ++ q) s = .ok (u, s')) :
    ∃ s₁, growPath v maxlevel expandClients done p s = .ok ((), s₁) ∧
      growPath v maxlevel expandClients (done ++ p) q s₁ = .ok (u, s') := by
  induction p generalizing done s with
  | nil => exact ⟨s, rfl, by simpa using h⟩
  | cons i p ih =>
      obtain ⟨_, s₁, hderef, hrun⟩ := bind_ok_iff.mp h
      obtain ⟨_, s₂, hgrow, hrest⟩ := bind_ok_iff.mp hrun
      obtain ⟨s₃, hfirst, hsecond⟩ := ih hrest
      refine ⟨s₃, bind_ok_iff.mpr ⟨(), s₁, hderef, ?_⟩, by simpa using hsecond⟩
      exact bind_ok_iff.mpr ⟨(), s₂, hgrow, hfirst⟩

/-- `x` or something below it. -/
abbrev Subtree (D : Defs) (x : VarId) : VarId → Prop := ReflTransGen (ClientOf D) x

theorem forM_raises {var : Var} {u : Unit} (hvar : D.vars x = some var)
    (hround : ∀ client ∈ var.varNClients, ∀ s₁ s₂, s.Grows D s₁ →
      varSlotExpand D depth ⟨client, indices⟩ s₁ = .ok ((), s₂) →
      Raises D (fun y => Subtree D client y ∧ ¬ X y) indices s₁ s₂)
    (h : forM var.varNClients (fun client => varSlotExpand D depth ⟨client, indices⟩) s =
      .ok (u, s')) :
    Raises D (fun y => Descends D x y ∧ ¬ X y) indices s s' := by
  have hloop : ∀ (l : List VarId) (s₁ : Slots), (∀ client ∈ l, client ∈ var.varNClients) →
      s.Grows D s₁ →
      forM l (fun client => varSlotExpand D depth ⟨client, indices⟩) s₁ = .ok (u, s') →
      Raises D (fun y => Descends D x y ∧ ¬ X y) indices s₁ s' := by
    intro l
    induction l with
    | nil =>
        intro s₁ _ _ hrun
        obtain ⟨-, rfl⟩ := pure_ok_iff.mp hrun
        exact Raises.refl s₁
    | cons client l ih =>
        intro s₁ hl hs₁ hrun
        rw [List.forM_cons] at hrun
        obtain ⟨_, s₂, hcall, hrest⟩ := bind_ok_iff.mp hrun
        have hmem := hl client List.mem_cons_self
        have hfirst : Raises D (fun y => Descends D x y ∧ ¬ X y) indices s₁ s₂ :=
          (hround client hmem s₁ s₂ hs₁ hcall).mono fun y hy =>
            ⟨TransGen.head' ⟨var, hvar, hmem⟩ hy.1, hy.2⟩
        exact hfirst.trans (ih s₂ (fun c hc => hl c (List.mem_cons_of_mem _ hc))
          (hs₁.trans (varSlotExpand_creates depth _ hcall)) hrest)
  exact hloop var.varNClients s (fun _ hmem => hmem) (Slots.Grows.refl s) h

theorem varSlotExpand_raises {u : Unit}
    (hX : ∀ y z, ClientOf D y z → X z → X y ∨ s.has y indices = true) (hx : ¬ X x)
    (h : varSlotExpand D depth ⟨x, indices⟩ s = .ok (u, s')) :
    Raises D (fun y => Subtree D x y ∧ ¬ X y) indices s s' := by
  induction depth generalizing x s s' u with
  | zero => exact (throw_ok_iff.mp h).elim
  | succ depth ih =>
      by_cases hhas : s.has x indices = true
      · obtain ⟨var, s₁, hderef, hrun⟩ := bind_ok_iff.mp h
        obtain ⟨-, rfl⟩ := Defs.deref_ok_iff.mp hderef
        rw [growPath_of_has (Slots.has_take hhas _) hrun]
        exact Raises.refl s
      · obtain ⟨var, s₁, hderef, hrun⟩ := bind_ok_iff.mp h
        obtain ⟨hvar, rfl⟩ := Defs.deref_ok_iff.mp hderef
        have hclients : ∀ client ∈ var.varNClients, ¬ X client := by
          intro client hclient hXclient
          rcases hX x client ⟨var, hvar, hclient⟩ hXclient with hXx | hhas'
          · exact hx hXx
          · exact hhas hhas'
        have hpath : [] ++ indices.take var.level <+: indices :=
          ⟨indices.drop var.level, List.take_append_drop var.level indices⟩
        refine growPath_raises hvar ⟨.refl, hx⟩ hpath ?_ ?_ (Slots.Grows.refl s) hrun
        · exact fun _ => CreatesOnly.forM _ fun client _ => varSlotExpand_creates depth _
        · intro _ s₁ s₂ _ _ hs₁ hloop
          have hbelow := forM_raises hvar (fun client hmem s₃ s₄ hs₃ hcall =>
            ih (fun y z hyz hz => (hX y z hyz hz).imp_right (hs₁.trans hs₃).has)
              (hclients client hmem) hcall) hloop
          exact hbelow.mono fun y hy => ⟨hy.1.to_reflTransGen, hy.2⟩

theorem varSlotExpandClients_raises {b : VarId} {u : Unit}
    (hX : ∀ y z, ClientOf D y z → X z → X y ∨ s.has y indices = true) (hb : ∀ y, ClientOf D b y → ¬ X y)
    (h : varSlotExpandClients D depth b indices s = .ok (u, s')) :
    Raises D (fun y => Descends D b y ∧ ¬ X y) indices s s' := by
  obtain ⟨varN, s₁, hderef, hloop⟩ := bind_ok_iff.mp h
  obtain ⟨hvarN, rfl⟩ := Defs.deref_ok_iff.mp hderef
  exact forM_raises hvarN (fun client hmem s₃ s₄ hs₃ hcall =>
    varSlotExpand_raises (fun y z hyz hz => (hX y z hyz hz).imp_right hs₃.has)
      (hb client ⟨varN, hvarN, hmem⟩) hcall) hloop

theorem growPath_first {v : VarId} {var : Var} {u : Unit} (hvar : D.vars v = some var)
    (hclients : ∀ q, CreatesOnly D (expandClients q)) (hdone : s.has v done = true)
    (hnot : s.has v (done ++ rest) = false)
    (h : growPath v var.level expandClients done rest s = .ok (u, s')) :
    ∃ d i s₂, s.numSlots v d ≤ i + 1 ∧
      expandClients (d ++ [i]) (s.resized v d var.level (i + 1)) = .ok ((), s₂) ∧
      s₂.Grows D s' := by
  induction rest generalizing done with
  | nil =>
      rw [List.append_nil, hdone] at hnot
      exact nomatch hnot
  | cons i rest ih =>
      obtain ⟨_, s₁, hderef, hrun⟩ := bind_ok_iff.mp h
      obtain ⟨-, rfl⟩ := derefSlot_ok_iff.mp hderef
      obtain ⟨_, s₂, hgrow, hrest⟩ := bind_ok_iff.mp hrun
      rcases growSlot_ok_cases hgrow with ⟨hlt, rfl⟩ | ⟨-, hle, hcall⟩
      · exact ih ((Slots.has_concat_iff done i).mpr ⟨hdone, hlt⟩) (by simpa using hnot) hrest
      · exact ⟨done, i, s₂, hle, hcall, growPath_creates hvar hclients _ _ hrest⟩

/-- Where an array is large enough, everything below it outside of `X` is large enough. -/
def StopsSoundly (D : Defs) (X : VarId → Prop) (indices : List UInt32) (s : Slots)
    (S : VarId → Prop) : Prop :=
  ∀ y z, S y → s.has y indices = true → Descends D y z → ¬ X z → s.has z indices = true

/-- The loop over the clients of an array reaches everything below it. -/
theorem forM_covers {var : Var} {u : Unit}
    (hvar : D.vars x = some var) (hlen : indices.length ≤ var.level + 1)
    (hX : ∀ y z, ClientOf D y z → X z → X y ∨ s.has y indices = true)
    (hclients : ∀ client ∈ var.varNClients, ¬ X client)
    (hsound : StopsSoundly D X indices s (Descends D x))
    (hround : ∀ client ∈ var.varNClients, ∀ s₁ s₂, s.Grows D s₁ →
      StopsSoundly D X indices s₁ (Subtree D client) →
      varSlotExpand D depth ⟨client, indices⟩ s₁ = .ok ((), s₂) →
      ∀ y, Subtree D client y → ¬ X y → s₂.has y indices = true)
    (h : forM var.varNClients (fun client => varSlotExpand D depth ⟨client, indices⟩) s =
      .ok (u, s')) (hy : Descends D x y) (hXy : ¬ X y) :
    s'.has y indices = true := by
  have hloop : ∀ (l : List VarId) (s₁ : Slots), (∀ client ∈ l, client ∈ var.varNClients) →
      s.Grows D s₁ → StopsSoundly D X indices s₁ (Descends D x) →
      forM l (fun client => varSlotExpand D depth ⟨client, indices⟩) s₁ = .ok (u, s') →
      ∀ client ∈ l, ∀ y, Subtree D client y → ¬ X y → s'.has y indices = true := by
    intro l
    induction l with
    | nil => exact fun _ _ _ _ _ client hclient => absurd hclient List.not_mem_nil
    | cons first l ih =>
        intro s₁ hl hs₁ hsound₁ hrun
        rw [List.forM_cons] at hrun
        obtain ⟨_, s₂, hcall, hrest⟩ := bind_ok_iff.mp hrun
        have hmem := hl first List.mem_cons_self
        have hfirst : ClientOf D x first := ⟨var, hvar, hmem⟩
        have hgrows := varSlotExpand_creates depth _ hcall
        have hcovered := hround first hmem s₁ s₂ hs₁
          (fun y z hy => hsound₁ y z (TransGen.head' hfirst hy)) hcall
        have hraises := varSlotExpand_raises
          (fun y z hyz hz => (hX y z hyz hz).imp_right hs₁.has) (hclients first hmem) hcall
        -- what has become large enough lies below the client that has been expanded
        have hsound₂ : StopsSoundly D X indices s₂ (Descends D x) := by
          intro y z hy hhas hyz hXz
          by_cases hold : s₁.has y indices = true
          · exact hgrows.has (hsound₁ y z hy hold hyz hXz)
          · by_cases hT : Subtree D first y ∧ ¬ X y
            · exact hcovered z (hT.1.trans hyz.to_reflTransGen) hXz
            · obtain ⟨yvar, hyvar, hlt⟩ := hy.level_lt hvar
              rw [hraises.has_eq hyvar (by omega) hT] at hhas
              exact absurd hhas hold
        have hrounds := ih s₂ (fun c hc => hl c (List.mem_cons_of_mem _ hc)) (hs₁.trans hgrows)
          hsound₂ hrest
        intro client hclient
        rcases List.mem_cons.mp hclient with rfl | hclient
        · intro y hy hXy
          exact (CreatesOnly.forM _ (fun c _ => varSlotExpand_creates depth _) hrest).has
            (hcovered y hy hXy)
        · exact hrounds client hclient
  obtain ⟨client, ⟨var', hvar', hmem⟩, hsub⟩ := TransGen.head'_iff.mp hy
  obtain rfl : var = var' := Option.some.inj (hvar.symm.trans hvar')
  exact hloop var.varNClients s (fun _ hmem => hmem) (Slots.Grows.refl s) hsound h client hmem y
    hsub hXy

/-- Expanding an array makes everything in its subtree large enough, provided that the recursion
stops soundly. -/
theorem varSlotExpand_covers {var : Var} {u : Unit}
    (hmax : ∀ i ∈ indices, i ≠ uintMax) (hvar : D.vars x = some var) (hlen : indices.length ≤ var.level)
    (hX : ∀ y z, ClientOf D y z → X z → X y ∨ s.has y indices = true) (hx : ¬ X x)
    (hsound : StopsSoundly D X indices s (Subtree D x))
    (h : varSlotExpand D depth ⟨x, indices⟩ s = .ok (u, s')) (hy : Subtree D x y)
    (hXy : ¬ X y) : s'.has y indices = true := by
  induction depth generalizing x var s s' u y with
  | zero => exact (throw_ok_iff.mp h).elim
  | succ depth ih =>
      obtain ⟨var', s₁, hderef, hrun⟩ := bind_ok_iff.mp h
      obtain ⟨hvar', rfl⟩ := Defs.deref_ok_iff.mp hderef
      obtain rfl : var = var' := Option.some.inj (hvar.symm.trans hvar')
      rw [List.take_of_length_le hlen] at hrun
      have hcreates : ∀ q : List UInt32, CreatesOnly D
          (forM var.varNClients fun client => varSlotExpand D depth ⟨client, indices⟩) :=
        fun _ => CreatesOnly.forM _ fun client _ => varSlotExpand_creates depth _
      rcases Relation.reflTransGen_iff_eq_or_transGen.mp hy with rfl | hdesc
      · exact growPath_has hvar hcreates Slots.has_nil hmax hrun
      · by_cases hhas : s.has x indices = true
        · rw [growPath_of_has hhas hrun]
          exact hsound x y .refl hhas hdesc hXy
        · have hclients : ∀ client ∈ var.varNClients, ¬ X client := by
            intro client hclient hXclient
            rcases hX x client ⟨var, hvar, hclient⟩ hXclient with hXx | hhas'
            · exact hx hXx
            · exact hhas hhas'
          obtain ⟨d, i, s₂, hle, hcall, hgrows⟩ :=
            growPath_first hvar hcreates Slots.has_nil (Bool.eq_false_iff.mpr hhas) hrun
          have hresized : s.Grows D (s.resized x d var.level (i + 1)) :=
            Slots.resized_grows hvar hle
          refine hgrows.has (forM_covers hvar (by omega)
            (fun y z hyz hz => (hX y z hyz hz).imp_right hresized.has) hclients ?_ ?_ hcall hdesc
            hXy)
          · intro y z hxy hy hyz hXz
            have hne : y ≠ x := fun heq => not_descends_self x (heq ▸ hxy)
            have hsame : (s.resized x d var.level (i + 1)).has y indices = s.has y indices :=
              Slots.has_congr (Slots.resized_numSlots_of_ne hne) indices
            rw [hsame] at hy
            exact hresized.has (hsound y z hxy.to_reflTransGen hy hyz hXz)
          · intro client hmem s₃ s₄ hs₃ hsound₃ hcall₃ y hy hXy
            obtain ⟨cvar, hcvar, hlevel⟩ := ClientOf.level_eq ⟨var, hvar, hmem⟩ hvar
            exact ih hcvar (by omega)
              (fun y z hyz hz => (hX y z hyz hz).imp_right (hresized.trans hs₃).has)
              (hclients client hmem) hsound₃ hcall₃ hy hXy

theorem varSlotExpandClients_covers {b : VarId} {varN : Var} {u : Unit}
    (hmax : ∀ i ∈ indices, i ≠ uintMax) (hb : D.vars b = some varN)
    (hlen : indices.length ≤ varN.level + 1)
    (hX : ∀ y z, ClientOf D y z → X z → X y ∨ s.has y indices = true)
    (hclients : ∀ y, ClientOf D b y → ¬ X y) (hsound : StopsSoundly D X indices s (Descends D b))
    (h : varSlotExpandClients D depth b indices s = .ok (u, s'))
    (hy : Descends D b y) (hXy : ¬ X y) : s'.has y indices = true := by
  obtain ⟨varN', s₁, hderef, hloop⟩ := bind_ok_iff.mp h
  obtain ⟨hvarN', rfl⟩ := Defs.deref_ok_iff.mp hderef
  obtain rfl : varN = varN' := Option.some.inj (hb.symm.trans hvarN')
  refine forM_covers hb hlen hX (fun client hmem => hclients client ⟨varN, hb, hmem⟩) hsound ?_
    hloop hy hXy
  intro client hmem s₁ s₂ hs₁ hsound₁ hcall y hy hXy
  obtain ⟨cvar, hcvar, hlevel⟩ := ClientOf.level_eq ⟨varN, hb, hmem⟩ hb
  exact varSlotExpand_covers hmax hcvar (by omega)
    (fun y z hyz hz => (hX y z hyz hz).imp_right hs₁.has) (hclients client ⟨varN, hb, hmem⟩)
    hsound₁ hcall hy hXy

theorem varSlotExpand_of_has {u : Unit} (hhas : s.has x indices = true)
    (h : varSlotExpand D depth ⟨x, indices⟩ s = .ok (u, s')) : s' = s := by
  cases depth with
  | zero => exact (throw_ok_iff.mp h).elim
  | succ depth =>
      obtain ⟨var, s₁, hderef, hrun⟩ := bind_ok_iff.mp h
      obtain ⟨-, rfl⟩ := Defs.deref_ok_iff.mp hderef
      exact growPath_of_has (Slots.has_take hhas _) hrun

theorem forM_of_idle {f : VarId → SlotExec Unit} {l : List VarId} {u : Unit}
    (hidle : ∀ a ∈ l, ∀ s₁, f a s = .ok ((), s₁) → s₁ = s) (h : forM l f s = .ok (u, s')) :
    s' = s := by
  induction l with
  | nil => exact (pure_ok_iff.mp h).2.symm
  | cons a l ih =>
      rw [List.forM_cons] at h
      obtain ⟨_, s₁, hcall, hrest⟩ := bind_ok_iff.mp h
      obtain rfl := hidle a List.mem_cons_self s₁ hcall
      exact ih (fun b hb => hidle b (List.mem_cons_of_mem a hb)) hrest

theorem varSlotExpandClients_of_has {b : VarId} {u : Unit}
    (hhas : ∀ y, ClientOf D b y → s.has y indices = true)
    (h : varSlotExpandClients D depth b indices s = .ok (u, s')) : s' = s := by
  obtain ⟨varN, s₁, hderef, hloop⟩ := bind_ok_iff.mp h
  obtain ⟨hvarN, rfl⟩ := Defs.deref_ok_iff.mp hderef
  exact forM_of_idle
    (fun client hmem s₁ hcall => varSlotExpand_of_has (hhas client ⟨varN, hvarN, hmem⟩) hcall) hloop

end passing

/-! ### Arrays that have been enlarged on their own account -/

open Classical in
/-- The number of slots an array has once the arrays below `t` have caught up with it. -/
noncomputable def Slots.pendingCount (D : Defs) (s : Slots) (t : VarId) (indices : List UInt32)
    (v : VarId) (p : List UInt32) : Nat :=
  if Descends D t v then max (s.slotCount v p) (demand indices p) else s.slotCount v p

/-- The shapes are equal, except that the arrays below `t` may still have to be enlarged for the
slot of `t` at `indices`. -/
structure PendingBelow (D : Defs) (s : Slots) (t : VarId) (indices : List UInt32) : Prop where
  has : s.has t indices = true
  level : ∃ tvar, D.vars t = some tvar ∧ tvar.level = indices.length
  chained : Chained D t indices.length
  equal : ∀ (b : VarId) (varN : Var) (v w : VarId) (p : List UInt32), D.vars b = some varN →
    Descends D b v → Descends D b w → p.length = varN.level →
    s.pendingCount D t indices v p = s.pendingCount D t indices w p
  inside : ∀ v w p, Descends D t v → Descends D t w → p.length < indices.length →
    s.slotCount v p = s.slotCount w p

section pending

variable {D : Defs} {s s' : Slots} {t : VarId} {indices : List UInt32}

theorem Slots.pendingCount_of_not {v : VarId} (h : ¬ Descends D t v) (p : List UInt32) :
    s.pendingCount D t indices v p = s.slotCount v p := by
  rw [Slots.pendingCount, if_neg h]

theorem Slots.pendingCount_of_descends {v : VarId} (h : Descends D t v) (p : List UInt32) :
    s.pendingCount D t indices v p = max (s.slotCount v p) (demand indices p) := by
  rw [Slots.pendingCount, if_pos h]

theorem EqualShapes.congr (h : EqualShapes D s) (hnum : s'.numSlots = s.numSlots) :
    EqualShapes D s' := by
  intro b varN v w p hb hv hw hp
  rw [Slots.slotCount_congr hnum, Slots.slotCount_congr hnum]
  exact h b varN v w p hb hv hw hp

theorem PendingBelow.congr (h : PendingBelow D s t indices) (hnum : s'.numSlots = s.numSlots) :
    PendingBelow D s' t indices where
  has := (Slots.has_congr (fun q => by rw [hnum]) indices).trans h.has
  level := h.level
  chained := h.chained
  equal := by
    intro b varN v w p hb hv hw hp
    have heq := h.equal b varN v w p hb hv hw hp
    simpa only [Slots.pendingCount, Slots.slotCount_congr hnum] using heq
  inside := by
    intro v w p hv hw hp
    rw [Slots.slotCount_congr hnum, Slots.slotCount_congr hnum]
    exact h.inside v w p hv hw hp

variable {tvar : Var} {f : VarId}

theorem EqualShapes.pending (h : EqualShapes D s) (ht : D.vars t = some tvar)
    (hlevel : tvar.level = indices.length) (hchained : Chained D t indices.length)
    (hhas : s.has t indices = true) : PendingBelow D s t indices := by
  have habove : ∀ v p, Descends D t v → p.length < indices.length →
      s.slotCount v p = s.slotCount t p := by
    intro v p hv hp
    obtain ⟨b, varN, hb, hlen, hdesc⟩ := hchained p.length hp
    exact h b varN v t p hb (hdesc.trans hv) hdesc hlen.symm
  have hsame : ∀ v p, s.pendingCount D t indices v p = s.slotCount v p := by
    intro v p
    by_cases hv : Descends D t v
    · rw [Slots.pendingCount_of_descends hv]
      by_cases hp : p.length < indices.length
      · have hle := Slots.demand_le_of_has hhas p
        rw [← habove v p hv hp] at hle
        omega
      · rw [demand_of_length_le (by omega), Nat.max_zero]
    · exact Slots.pendingCount_of_not hv p
  refine ⟨hhas, ⟨tvar, ht, hlevel⟩, hchained, ?_, ?_⟩
  · intro b varN v w p hb hv hw hp
    rw [hsame, hsame]
    exact h b varN v w p hb hv hw hp
  · intro v w p hv hw hp
    rw [habove v p hv hp, habove w p hw hp]

namespace PendingBelow

theorem equalShapes_of_leaf (h : PendingBelow D s t indices) (hleaf : ∀ v, ¬ ClientOf D t v) :
    EqualShapes D s := by
  have hnone : ∀ v, ¬ Descends D t v := by
    intro v hv
    obtain ⟨c, hclient, -⟩ := TransGen.head'_iff.mp hv
    exact hleaf c hclient
  intro b varN v w p hb hv hw hp
  have heq := h.equal b varN v w p hb hv hw hp
  rwa [Slots.pendingCount_of_not (hnone v), Slots.pendingCount_of_not (hnone w)] at heq

theorem has_beside (h : PendingBelow D s t indices) {b : VarId} {bvar : Var}
    (hb : D.vars b = some bvar) (hdesc : Descends D b t) (hclient : ClientOf D b y) :
    s.has y (indices.take (bvar.level + 1)) = true := by
  obtain ⟨tvar, ht, hlevel⟩ := h.level
  obtain ⟨tvar', ht', hlt⟩ := hdesc.level_lt hb
  obtain rfl : tvar = tvar' := Option.some.inj (ht.symm.trans ht')
  obtain ⟨yvar, hyvar, hylevel⟩ := hclient.level_eq hb
  have hnot : ¬ Descends D t y := by
    intro hty
    obtain ⟨yvar', hyvar', hlt'⟩ := hty.level_lt ht
    obtain rfl : yvar = yvar' := Option.some.inj (hyvar.symm.trans hyvar')
    omega
  have hmax : ∀ i ∈ indices.take (bvar.level + 1), i ≠ uintMax := fun i hi =>
    Slots.ne_uintMax_of_has h.has i (List.mem_of_mem_take hi)
  rw [Slots.has_iff_demand_le hmax]
  intro q
  by_cases hq : q.length < (indices.take (bvar.level + 1)).length
  · have hdemand : demand (indices.take (bvar.level + 1)) q ≤ demand indices q := by
      rcases demand_take indices (bvar.level + 1) q with hzero | heq
      · omega
      · omega
    rw [List.length_take] at hq
    obtain ⟨c, cvar, hc, hclevel, hct, hcy⟩ : ∃ c cvar, D.vars c = some cvar ∧
        cvar.level = q.length ∧ Descends D c t ∧ Descends D c y := by
      by_cases hlast : q.length = bvar.level
      · exact ⟨b, bvar, hb, hlast.symm, hdesc, .single hclient⟩
      · obtain ⟨c, cvar, hc, hclevel, hcb⟩ :=
          h.chained.above hdesc hb ht hlevel q.length (by omega)
        exact ⟨c, cvar, hc, hclevel, hcb.trans hdesc, hcb.tail hclient⟩
    have heq := h.equal c cvar y t q hc hcy hct hclevel.symm
    rw [Slots.pendingCount_of_not hnot, Slots.pendingCount_of_not (not_descends_self t)] at heq
    have hle := Slots.demand_le_of_has h.has q
    omega
  · rw [demand_of_length_le (by omega)]
    exact Nat.zero_le _

theorem has_sibling (h : PendingBelow D s t indices) {b : VarId} (ht : ClientOf D b t)
    (hy : ClientOf D b y) : s.has y indices = true := by
  obtain ⟨bvar, tvar, hb, htvar, -, hlevel⟩ := ht.levels
  obtain ⟨tvar', htvar', hlen⟩ := h.level
  obtain rfl : tvar = tvar' := Option.some.inj (htvar.symm.trans htvar')
  have hhas := h.has_beside hb (.single ht) hy
  rwa [List.take_of_length_le (by omega)] at hhas

/-- The effect of enlarging a client `f` of `t` and telling the clients of `t`: everything below `t`
except for what is below `f` has been brought up to the slot of `f`. -/
theorem of_raises (h : PendingBelow D s t indices) {i : UInt32} (hf : ClientOf D t f)
    (hraises : Raises D (fun y => Descends D t y ∧ ¬ Descends D f y) (indices ++ [i]) s s')
    (hhas : ∀ y, Descends D t y → ¬ Descends D f y → s'.has y (indices ++ [i]) = true) :
    PendingBelow D s' f (indices ++ [i]) := by
  obtain ⟨tvar, ht, hlevel⟩ := h.level
  obtain ⟨fvar, hfvar, hflevel⟩ := hf.level_eq ht
  have htf : Descends D t f := .single hf
  -- the counts that are to be equal, in terms of the counts before
  have hbelow : ∀ y yvar p, D.vars y = some yvar → p.length < yvar.level → Descends D t y →
      s'.pendingCount D f (indices ++ [i]) y p =
        max (s.slotCount y p) (demand (indices ++ [i]) p) := by
    intro y yvar p hyvar hp hy
    by_cases hfy : Descends D f y
    · rw [Slots.pendingCount_of_descends hfy,
        hraises.slotCount_eq hyvar hp fun hT => hT.2 hfy]
    · rw [Slots.pendingCount_of_not hfy, hraises.slotCount_eq_max hyvar hp (hhas y hy hfy)]
  have hbeside : ∀ y yvar p, D.vars y = some yvar → p.length < yvar.level → ¬ Descends D t y →
      s'.pendingCount D f (indices ++ [i]) y p = s.slotCount y p := by
    intro y yvar p hyvar hp hy
    rw [Slots.pendingCount_of_not fun hfy => hy (htf.trans hfy),
      hraises.slotCount_eq hyvar hp fun hT => hy hT.1]
  refine ⟨hhas f htf (not_descends_self f), ⟨fvar, hfvar, by simp; omega⟩, ?_, ?_, ?_⟩
  · have hchained := h.chained
    rw [← hlevel] at hchained
    simpa [hlevel] using hchained.client hf ht
  · intro b varN v w p hb hv hw hp
    obtain ⟨vvar, hvvar, hvlt⟩ := hv.level_lt hb
    obtain ⟨wvar, hwvar, hwlt⟩ := hw.level_lt hb
    have heq := h.equal b varN v w p hb hv hw hp
    by_cases hshort : p.length < indices.length
    · have hsame : ∀ y yvar, D.vars y = some yvar → p.length < yvar.level →
          s'.pendingCount D f (indices ++ [i]) y p = s.pendingCount D t indices y p := by
        intro y yvar hyvar hlt
        by_cases hy : Descends D t y
        · rw [hbelow y yvar p hyvar hlt hy, Slots.pendingCount_of_descends hy,
            demand_append [i] hshort]
        · rw [hbeside y yvar p hyvar hlt hy, Slots.pendingCount_of_not hy]
      rw [hsame v vvar hvvar (by omega), hsame w wvar hwvar (by omega)]
      exact heq
    · have hplain : ∀ y, s.pendingCount D t indices y p = s.slotCount y p := by
        intro y
        by_cases hy : Descends D t y
        · rw [Slots.pendingCount_of_descends hy, demand_of_length_le (by omega), Nat.max_zero]
        · exact Slots.pendingCount_of_not hy p
      rw [hplain, hplain] at heq
      -- the bound of this level above both arrays is `t`, or it is above neither
      by_cases hbt : varN.level = tvar.level ∧ Descends D t v
      · obtain rfl : b = t := hv.unique hbt.2 hb ht hbt.1
        rw [hbelow v vvar p hvvar (by omega) hv, hbelow w wvar p hwvar (by omega) hw, heq]
      · have hnone : ∀ y yvar, Descends D b y → D.vars y = some yvar → p.length < yvar.level →
            s'.pendingCount D f (indices ++ [i]) y p = s.slotCount y p := by
          intro y yvar hy hyvar hlt
          by_cases hty : Descends D t y
          · rw [hbelow y yvar p hyvar hlt hty]
            by_cases hlonger : indices.length < p.length
            · rw [demand_of_length_le (by simp; omega), Nat.max_zero]
            · have hlevels : varN.level = tvar.level := by omega
              obtain rfl : b = t := hy.unique hty hb ht hlevels
              exact absurd ⟨hlevels, hv⟩ hbt
          · exact hbeside y yvar p hyvar hlt hty
        rw [hnone v vvar hv hvvar (by omega), hnone w wvar hw hwvar (by omega), heq]
  · intro v w p hv hw hp
    obtain ⟨vvar, hvvar, hvlt⟩ := hv.level_lt hfvar
    obtain ⟨wvar, hwvar, hwlt⟩ := hw.level_lt hfvar
    rw [List.length_append, List.length_singleton] at hp
    rw [hraises.slotCount_eq hvvar (by omega) fun hT => hT.2 hv,
      hraises.slotCount_eq hwvar (by omega) fun hT => hT.2 hw]
    by_cases hshort : p.length < indices.length
    · exact h.inside v w p (htf.trans hv) (htf.trans hw) hshort
    · have heq := h.equal t tvar v w p ht (htf.trans hv) (htf.trans hw) (by omega)
      rw [Slots.pendingCount_of_descends (htf.trans hv),
        Slots.pendingCount_of_descends (htf.trans hw), demand_of_length_le (by omega),
        Nat.max_zero, Nat.max_zero] at heq
      exact heq

theorem equalShapes_of_has (h : PendingBelow D s t indices) (hf : Descends D t f)
    (hhas : s.has f indices = true) : EqualShapes D s := by
  have hsame : ∀ y p, s.pendingCount D t indices y p = s.slotCount y p := by
    intro y p
    by_cases hy : Descends D t y
    · rw [Slots.pendingCount_of_descends hy]
      by_cases hp : p.length < indices.length
      · have hle := Slots.demand_le_of_has hhas p
        rw [h.inside f y p hf hy hp] at hle
        omega
      · rw [demand_of_length_le (by omega), Nat.max_zero]
    · exact Slots.pendingCount_of_not hy p
  intro b varN v w p hb hv hw hp
  have heq := h.equal b varN v w p hb hv hw hp
  rwa [hsame, hsame] at heq

theorem slotCount_eq_client (h : PendingBelow D s t indices) {v w : VarId} (hv : Descends D t v)
    (hw : Descends D t w) : s.slotCount v indices = s.slotCount w indices := by
  obtain ⟨tvar, ht, hlevel⟩ := h.level
  have heq := h.equal t tvar v w indices ht hv hw hlevel.symm
  rwa [Slots.pendingCount_of_descends hv, Slots.pendingCount_of_descends hw,
    demand_of_length_le (Nat.le_refl _), Nat.max_zero, Nat.max_zero] at heq

/-- What creating a slot of a client does: it makes room on the levels above, where nobody else has
to be told, and then for the slot itself, about which the clients of the bound are told. -/
theorem create_cases (h : PendingBelow D s t indices) {fvar : Var} {i : UInt32}
    {depth : Nat} {u : Unit} (hf : ClientOf D t f) (hfvar : D.vars f = some fvar)
    (hrun : varSlotGetOrCreate D depth ⟨f, indices ++ [i]⟩ s = .ok (u, s')) :
    ∃ s₁, Raises D (· = f) indices s s₁ ∧ (s.has f indices = true → s₁ = s) ∧
      s₁.has f indices = true ∧
      ((i < s₁.numSlots f indices ∧ s' = s₁) ∨
        (s₁.numSlots f indices ≤ i ∧ s₁.numSlots f indices ≤ i + 1 ∧
          varSlotExpandClients D depth t (indices ++ [i])
            (s₁.resized f indices fvar.level (i + 1)) = .ok ((), s'))) := by
  obtain ⟨tvar, ht, hlevel⟩ := h.level
  obtain ⟨fvar', hfvar', hflevel⟩ := hf.level_eq ht
  obtain rfl : fvar = fvar' := Option.some.inj (hfvar.symm.trans hfvar')
  have htf : Descends D t f := .single hf
  obtain ⟨fvar', s₀, hderef, hbody⟩ := bind_ok_iff.mp hrun
  obtain ⟨hfvar', rfl⟩ := Defs.deref_ok_iff.mp hderef
  obtain rfl : fvar = fvar' := Option.some.inj (hfvar.symm.trans hfvar')
  obtain ⟨bounds, s₀, hbounds, hloop⟩ := bind_ok_iff.mp hbody
  obtain rfl := varNArray_state hbounds
  obtain ⟨-, hbound⟩ := varNArray_ok hfvar rfl hbounds
  rw [List.take_of_length_le (by simp; omega)] at hloop
  obtain ⟨s₁, hlower, hlast⟩ := growPath_append hloop
  have hcreates := expandBoundClients_creates (D := D) depth bounds
  -- on the levels above, the clients have all they need
  have hquiet : Raises D (· = f) indices s₀ s₁ := by
    have hpath : [] ++ indices <+: indices := List.prefix_refl indices
    refine growPath_raises hfvar rfl hpath hcreates ?_ (Slots.Grows.refl s₀) hlower
    intro q s₂ s₃ hq hne hs₂ hcall
    have hlen : 0 < q.length := List.length_pos_of_ne_nil hne
    have hqlen := hq.length_le
    unfold expandBoundClients at hcall
    cases hb : bounds[q.length - 1]? with
    | none =>
        rw [hb] at hcall
        exact (throw_ok_iff.mp hcall).elim
    | some b =>
        rw [hb] at hcall
        obtain ⟨bvar, hbvar, hblevel, hbf⟩ := hbound _ b hb
        have hbt : Descends D b t := by
          rcases hbf.above_client hf with rfl | hbt
          · obtain rfl : tvar = bvar := Option.some.inj (ht.symm.trans hbvar)
            omega
          · exact hbt
        have hpath : indices.take (bvar.level + 1) = q := by
          rw [hblevel, Nat.sub_add_cancel hlen]
          exact (List.prefix_iff_eq_take.mp hq).symm
        rw [varSlotExpandClients_of_has
          (fun y hy => hs₂.has (hpath ▸ h.has_beside hbvar hbt hy)) hcall]
        exact Raises.refl s₂
  obtain ⟨_, s₁, hderef, hlast⟩ := bind_ok_iff.mp hlast
  obtain ⟨hhas, rfl⟩ := derefSlot_ok_iff.mp hderef
  obtain ⟨_, s₂, hgrow, hend⟩ := bind_ok_iff.mp hlast
  obtain ⟨-, rfl⟩ := pure_ok_iff.mp hend
  rw [List.nil_append] at hhas hgrow
  refine ⟨s₁, hquiet, fun hold => growPath_of_has hold hlower, hhas, ?_⟩
  rcases growSlot_ok_cases hgrow with hidle | ⟨hle, hle', hcall⟩
  · exact Or.inl hidle
  · refine Or.inr ⟨hle, hle', ?_⟩
    unfold expandBoundClients at hcall
    cases hb : bounds[(indices ++ [i]).length - 1]? with
    | none =>
        rw [hb] at hcall
        exact (throw_ok_iff.mp hcall).elim
    | some b =>
        rw [hb] at hcall
        obtain ⟨bvar, hbvar, hblevel, hbf⟩ := hbound _ b hb
        rw [List.length_append, List.length_singleton, Nat.add_sub_cancel] at hblevel
        obtain rfl : b = t := hbf.unique htf hbvar ht (by omega)
        exact hcall

/-- Creating a slot of a client brings everything below the bound up to it, except for what is
below the client. -/
theorem create (h : PendingBelow D s t indices) {i : UInt32} {depth : Nat} {u : Unit}
    (hf : ClientOf D t f) (hi : i ≠ uintMax)
    (hrun : varSlotGetOrCreate D depth ⟨f, indices ++ [i]⟩ s = .ok (u, s')) :
    PendingBelow D s' f (indices ++ [i]) := by
  obtain ⟨tvar, ht, hlevel⟩ := h.level
  obtain ⟨fvar, hfvar, hflevel⟩ := hf.level_eq ht
  have htf : Descends D t f := .single hf
  have hchained : Chained D f (indices ++ [i]).length := by
    have hchained := h.chained
    rw [← hlevel] at hchained
    simpa [hlevel] using hchained.client hf ht
  obtain ⟨s₁, hlower, hsame, hhas, hend⟩ := h.create_cases hf hfvar hrun
  have hkept : s₁.slotCount f indices = s.slotCount f indices := by
    rcases hlower f fvar indices hfvar (by omega) with heq | ⟨-, heq⟩
    · exact heq
    · rwa [demand_of_length_le (Nat.le_refl _), Nat.max_zero] at heq
  rcases hend with ⟨hlt, rfl⟩ | ⟨hle, hle', hcall⟩
  · -- the slot was there, and nothing has happened
    have hold : s.has f indices = true := by
      by_contra hnot
      rw [Slots.slotCount_of_has hhas, Slots.slotCount, if_neg hnot] at hkept
      have : i.toNat < 0 := hkept ▸ hlt
      omega
    obtain rfl := hsame hold
    exact (h.equalShapes_of_has htf hold).pending hfvar (by simp; omega) hchained
      ((Slots.has_concat_iff indices i).mpr ⟨hhas, hlt⟩)
  · have hfew : s.slotCount f indices ≤ i.toNat := by
      rw [← hkept, Slots.slotCount_of_has hhas]
      exact hle
    have hresized : Raises D (· = f) (indices ++ [i]) s
        (s₁.resized f indices fvar.level (i + 1)) := by
      have hlower' : Raises D (· = f) (indices ++ [i]) s s₁ := by
        refine Raises.of_take (k := indices.length) ?_
        rwa [List.take_append_of_le_length (Nat.le_refl _), List.take_length]
      exact hlower'.trans (Raises.resized hfvar hhas hle' rfl)
    have hfhas : (s₁.resized f indices fvar.level (i + 1)).has f (indices ++ [i]) = true := by
      refine (Slots.has_concat_iff indices i).mpr ⟨(Slots.resized_grows hfvar hle').has hhas, ?_⟩
      rw [Slots.resized_numSlots_of_has hhas, if_pos ⟨rfl, rfl⟩]
      exact lt_add_one_of_ne_uintMax hi
    have hX : ∀ y z, ClientOf D y z → Descends D f z → Descends D f y ∨
        (s₁.resized f indices fvar.level (i + 1)).has y (indices ++ [i]) = true := by
      intro y z hyz hz
      rcases hz.above_client hyz with rfl | hy
      · exact Or.inr hfhas
      · exact Or.inl hy
    have hclients : ∀ y, ClientOf D t y → ¬ Descends D f y := by
      intro y hy hfy
      obtain ⟨yvar, hyvar, hylevel⟩ := hy.level_eq ht
      obtain ⟨yvar', hyvar', hlt⟩ := hfy.level_lt hfvar
      obtain rfl : yvar = yvar' := Option.some.inj (hyvar.symm.trans hyvar')
      omega
    -- `f` is the only array that has the slot, so the recursion stops at `f` alone
    have hsound : StopsSoundly D (Descends D f) (indices ++ [i])
        (s₁.resized f indices fvar.level (i + 1)) (Descends D t) := by
      intro y z hy hyhas hyz hXz
      by_cases hyf : y = f
      · exact absurd (hyf ▸ hyz) hXz
      · obtain ⟨yvar, hyvar, hlt⟩ := hy.level_lt ht
        rw [hresized.has_eq hyvar (by simp; omega) hyf] at hyhas
        have hdemand := Slots.lt_slotCount_of_has hyhas
        rw [h.slotCount_eq_client hy htf] at hdemand
        omega
    have hraises := varSlotExpandClients_raises hX hclients hcall
    refine h.of_raises hf ((hresized.mono ?_).trans hraises) ?_
    · rintro y rfl
      exact ⟨htf, not_descends_self y⟩
    · intro y hy hfy
      exact varSlotExpandClients_covers (Slots.ne_uintMax_of_has hfhas) ht (by simp; omega) hX
        hclients hsound hcall hy hfy

theorem createAll (h : PendingBelow D s t indices) {rest : List VarId}
    {i : UInt32} {depth : Nat} {u : Unit} (ht : D.vars t = some tvar)
    (hclients : tvar.varNClients = f :: rest) (hi : i ≠ uintMax) (hloop : forM tvar.varNClients
      (fun client => varSlotGetOrCreate D depth ⟨client, indices ++ [i]⟩) s = .ok (u, s')) :
    PendingBelow D s' f (indices ++ [i]) := by
  have hclient : ∀ y ∈ f :: rest, ClientOf D t y := fun y hy => ⟨tvar, ht, hclients ▸ hy⟩
  rw [hclients, List.forM_cons] at hloop
  obtain ⟨_, s₁, hcall, hothers⟩ := bind_ok_iff.mp hloop
  have hfirst := h.create (hclient f List.mem_cons_self) hi hcall
  have hidle : s' = s₁ := by
    refine forM_of_idle (fun y hy s₂ hcall₂ => ?_) hothers
    exact varSlotGetOrCreate_of_has (hfirst.has_sibling (hclient f List.mem_cons_self)
      (hclient y (List.mem_cons_of_mem f hy))) hcall₂
  exact hidle ▸ hfirst

end PendingBelow

/-- A request for the largest index, whose successor is zero, comes back only if it finds nothing to
change. -/
theorem EqualShapes.create_uintMax (h : EqualShapes D s) {depth : Nat}
    {u : Unit} (ht : D.vars t = some tvar) (hlevel : tvar.level = indices.length)
    (hchained : Chained D t indices.length) (hhas : s.has t indices = true) (hf : ClientOf D t f)
    (hrun : varSlotGetOrCreate D depth ⟨f, indices ++ [uintMax]⟩ s = .ok (u, s')) :
    ∀ v var q, D.vars v = some var → q.length < var.level →
      s'.slotCount v q = s.slotCount v q := by
  have hpending := h.pending ht hlevel hchained hhas
  have hbelow : ∀ y, Descends D t y → s.has y indices = true := by
    intro y hy
    rw [Slots.has_iff_demand_le (Slots.ne_uintMax_of_has hhas)]
    intro q
    by_cases hq : q.length < indices.length
    · obtain ⟨b, varN, hb, hlen, hdesc⟩ := hchained q.length hq
      rw [h b varN y t q hb (hdesc.trans hy) hdesc hlen.symm]
      exact Slots.demand_le_of_has hhas q
    · rw [demand_of_length_le (by omega)]
      exact Nat.zero_le _
  have hasks : ∀ y q, Descends D t y → demand (indices ++ [uintMax]) q ≤ s.slotCount y q := by
    intro y q hy
    rcases Nat.lt_trichotomy q.length indices.length with hq | hq | hq
    · rw [demand_append _ hq]
      exact Slots.demand_le_of_has (hbelow y hy) q
    · by_cases heq : q = indices
      · rw [heq, demand_self, uintMax_add_one]
        exact Nat.zero_le _
      · rw [demand_concat_of_ne hq heq]
        exact Nat.zero_le _
    · rw [demand_of_length_le (by simp; omega)]
      exact Nat.zero_le _
  suffices hraises : Raises D (Descends D t) (indices ++ [uintMax]) s s' by
    intro v var q hvar hq
    rcases hraises v var q hvar hq with heq | ⟨hv, heq⟩
    · exact heq
    · have hle := hasks v q hv
      omega
  obtain ⟨fvar, hfvar, -⟩ := hf.level_eq ht
  obtain ⟨s₁, -, hsame, hfhas, hend⟩ := hpending.create_cases hf hfvar hrun
  obtain rfl := hsame (hbelow f (.single hf))
  rcases hend with ⟨-, rfl⟩ | ⟨-, hle, hcall⟩
  · exact Raises.refl s'
  · have hnone : ∀ y z, ClientOf D y z → False → False ∨
        (s₁.resized f indices fvar.level (uintMax + 1)).has y (indices ++ [uintMax]) = true :=
      fun _ _ _ h => h.elim
    have hfirst : Raises D (Descends D t) (indices ++ [uintMax]) s₁
        (s₁.resized f indices fvar.level (uintMax + 1)) :=
      Raises.resized hfvar hfhas hle (.single hf)
    have hsecond := varSlotExpandClients_raises hnone (fun _ _ h => h) hcall
    exact hfirst.trans (hsecond.mono fun y hy => hy.1)

theorem EqualShapes.of_slotCount_eq (h : EqualShapes D s)
    (hsame : ∀ v var q, D.vars v = some var → q.length < var.level →
      s'.slotCount v q = s.slotCount v q) : EqualShapes D s' := by
  intro b varN v w p hb hv hw hp
  obtain ⟨vvar, hvvar, hvlt⟩ := hv.level_lt hb
  obtain ⟨wvar, hwvar, hwlt⟩ := hw.level_lt hb
  rw [hsame v vvar p hvvar (by omega), hsame w wvar p hwvar (by omega)]
  exact h b varN v w p hb hv hw hp

/-- Creating a slot for every client of a bound keeps the shapes equal if the first client has no
clients of its own or has the slot already. -/
theorem EqualShapes.createAll (h : EqualShapes D s) {i : UInt32} {depth : Nat}
    {u : Unit} (ht : D.vars t = some tvar) (hlevel : tvar.level = indices.length)
    (hchained : Chained D t indices.length) (hhas : s.has t indices = true)
    (hfirst : ∀ f, tvar.varNClients.head? = some f →
      (∀ v, ¬ ClientOf D f v) ∨ s.has f (indices ++ [i]) = true) (hloop : forM tvar.varNClients
      (fun client => varSlotGetOrCreate D depth ⟨client, indices ++ [i]⟩) s = .ok (u, s')) :
    EqualShapes D s' := by
  by_cases hi : i = uintMax
  · subst hi
    have hrounds : ∀ (l : List VarId) (s₁ : Slots), (∀ y ∈ l, ClientOf D t y) →
        EqualShapes D s₁ → s₁.has t indices = true →
        forM l (fun client => varSlotGetOrCreate D depth ⟨client, indices ++ [uintMax]⟩) s₁ =
          .ok (u, s') → EqualShapes D s' := by
      intro l
      induction l with
      | nil =>
          intro s₁ _ hequal _ hrun
          obtain ⟨-, rfl⟩ := pure_ok_iff.mp hrun
          exact hequal
      | cons f l ih =>
          intro s₁ hl hequal hhas₁ hrun
          rw [List.forM_cons] at hrun
          obtain ⟨_, s₂, hcall, hrest⟩ := bind_ok_iff.mp hrun
          have hsame := hequal.create_uintMax ht hlevel hchained hhas₁ (hl f List.mem_cons_self)
            hcall
          exact ih s₂ (fun y hy => hl y (List.mem_cons_of_mem f hy))
            (hequal.of_slotCount_eq hsame)
            ((varSlotGetOrCreate_creates depth _ hcall).has hhas₁) hrest
    exact hrounds _ s (fun y hy => ⟨tvar, ht, hy⟩) h hhas hloop
  · cases hclients : tvar.varNClients with
    | nil =>
        rw [hclients] at hloop
        obtain ⟨-, rfl⟩ := pure_ok_iff.mp hloop
        exact h
    | cons f rest =>
        have hclient : ∀ y ∈ f :: rest, ClientOf D t y := fun y hy => ⟨tvar, ht, hclients ▸ hy⟩
        rcases hfirst f (by rw [hclients]; rfl) with hleaf | hfhas
        · have hpending := h.pending ht hlevel hchained hhas
          exact (hpending.createAll ht hclients hi hloop).equalShapes_of_leaf hleaf
        · have hidle : s' = s := by
            refine forM_of_idle (fun y hy s₁ hcall => ?_) hloop
            refine varSlotGetOrCreate_of_has ?_ hcall
            obtain ⟨fvar, hfvar, hflevel⟩ := (hclient f List.mem_cons_self).level_eq ht
            have hfchained : Chained D f (indices ++ [i]).length := by
              rw [← hlevel] at hchained
              simpa [hlevel] using hchained.client (hclient f List.mem_cons_self) ht
            exact (h.pending hfvar (by simp; omega) hfchained hfhas).has_sibling
              (hclient f List.mem_cons_self) ⟨tvar, ht, hy⟩
          exact hidle ▸ h

end pending

end Mkfli4l
