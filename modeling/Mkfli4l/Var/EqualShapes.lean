import Mkfli4l.Var.Shapes
import Mkfli4l.Var.HighWater
import Mkfli4l.Var.IndexSafety

/-!
# Which runs of writes keep the shapes equal

Writing an element raises the bounds above it from the outermost one inwards, and each of
them enlarges the arrays of its clients, the first client first.  If that client is a bound
itself, the arrays below it are left behind; they catch up in the same write if the client is
the next bound on the way to the element.  A write is sound if this never leaves anything
behind, and runs of sound writes keep the shapes equal.
-/

namespace Mkfli4l

open Lib Exec

/-- The variable has no clients. -/
def isLeaf (D : Defs) (v : VarId) : Bool :=
  (D.vars v).elim true fun var => var.varNClients.isEmpty

/-- The client that is served first. -/
def firstClient (D : Defs) (b : VarId) : Option VarId :=
  (D.vars b).bind fun varN => varN.varNClients.head?

/-- Wherever the way to an element has to be enlarged, the first client of the bound is an array
without clients or the next variable on the way.  The indices of the element are given last one
first. -/
def growsSoundly (D : Defs) (s : Slots) : VarId → List UInt32 → Bool
  | _, [] => true
  | v, i :: rest =>
      match (D.vars v).bind Var.varN with
      | none => true
      | some b =>
          (s.has v (i :: rest).reverse || (firstClient D b).all fun f => f == v || isLeaf D f) &&
            growsSoundly D s b rest

/-- Storing the value of a request extends no array, or it extends an array without clients
first. -/
def storesSoundly (D : Defs) (s : Slots) (r : SetRequest) : Bool :=
  r.value.all fun value =>
    decide (boundNumber (some value) ≤ boundNumber (s.storedValue r.inst.var r.inst.indices)) ||
      (firstClient D r.inst.var).all fun f =>
        isLeaf D f || s.has f (r.inst.indices ++ [toUInt32 (boundNumber (some value) - 1)])

/-- A request that is certain to store a positive number in a new slot. -/
def storesInNewSlot (D : Defs) (var : Var) (r : SetRequest) : Bool :=
  r.mode.admits r.priority .undefined &&
    r.value.any fun value =>
      decide (0 < boundNumber (some value)) && (!r.check || D.types.vartypeMatch var.type value)

/-- A call that leaves no array behind: it is refused at once; or the way to its element is enlarged
soundly and its variable has no clients, or its element exists or gets a positive number, which is
passed on to an array without clients first. -/
def Call.GrowsSoundly (D : Defs) (s : Slots) (call : Call) : Prop :=
  ∀ var, D.vars call.request.inst.var = some var →
    call.request.inst.indices.length = var.level →
    ¬ RefusedAtOnce var call.request.inst call.request.priority call.request.ignoreBasePriority →
    growsSoundly D s call.request.inst.var call.request.inst.indices.reverse = true ∧
      (isLeaf D call.request.inst.var = true ∨
        ((s.has call.request.inst.var call.request.inst.indices = true ∨
            storesInNewSlot D var call.request = true) ∧
          storesSoundly D s call.request = true))

section

variable {D : Defs} {s s' : Slots}

variable {v b : VarId} {depth : Nat} {var varN : Var} {r : SetRequest} {inst : VarInstance}
  {indices : List UInt32} {i : UInt32} {s₁ : Slots}

theorem not_clientOf_of_isLeaf (h : isLeaf D v = true) (w : VarId) : ¬ ClientOf D v w := by
  rintro ⟨var, hvar, hmem⟩
  simp only [isLeaf, hvar, Option.elim_some, List.isEmpty_iff] at h
  rw [h] at hmem
  exact absurd hmem List.not_mem_nil

theorem clientOf_of_firstClient {f : VarId} (h : firstClient D b = some f) : ClientOf D b f := by
  cases hb : D.vars b with
  | none => simp [firstClient, hb] at h
  | some varN =>
      simp only [firstClient, hb, Option.bind_some] at h
      exact ⟨varN, hb, List.mem_of_mem_head? h⟩

theorem growsSoundly_congr (hnum : s'.numSlots = s.numSlots) (v : VarId) (l : List UInt32) :
    growsSoundly D s' v l = growsSoundly D s v l := by
  induction l generalizing v with
  | nil => rfl
  | cons i rest ih =>
      have hhas : s'.has v (i :: rest).reverse = s.has v (i :: rest).reverse :=
        Slots.has_congr (fun q => by rw [hnum]) _
      rw [growsSoundly, growsSoundly, hhas]
      cases (D.vars v).bind Var.varN with
      | none => rfl
      | some b => simp only [ih]

theorem commit_creates (h : commit D depth var r s = .ok ((), s')) :
    (s'.numSlots = s.numSlots ∧ ∀ value, r.value = some value →
      boundNumber (some value) ≤ boundNumber (s.entry r.inst.var r.inst.indices).value) ∨
    ∃ value s₁ s₂, r.value = some value ∧
      boundNumber (s.entry r.inst.var r.inst.indices).value < boundNumber (some value) ∧
      s₁.numSlots = s.numSlots ∧ s'.numSlots = s₂.numSlots ∧
      forM var.varNClients (fun client => varSlotGetOrCreate D depth
        ⟨client, r.inst.indices ++ [toUInt32 (boundNumber (some value) - 1)]⟩) s₁ =
          .ok ((), s₂) := by
  obtain ⟨s₁, hstore, rfl⟩ := commit_ok h
  cases hvalue : r.value with
  | none =>
      rw [hvalue] at hstore
      obtain ⟨-, rfl⟩ := pure_ok_iff.mp hstore
      exact Or.inl ⟨rfl, fun value hv => absurd hv (Option.some_ne_none value).symm⟩
  | some value =>
      rw [hvalue] at hstore
      obtain ⟨t, s₂, hget, hrun⟩ := bind_ok_iff.mp hstore
      obtain ⟨rfl, rfl⟩ := get_ok_iff.mp hget
      obtain ⟨_, s₃, hset, hrun⟩ := bind_ok_iff.mp hrun
      obtain rfl := modify_ok_iff.mp hset
      split at hrun
      · next hlt => exact Or.inr ⟨value, _, s₁, rfl, hlt, Slots.updateEntry_numSlots s _ _ _, rfl, hrun⟩
      · next hnot =>
          obtain ⟨-, rfl⟩ := pure_ok_iff.mp hrun
          refine Or.inl ⟨rfl, fun value' hv => ?_⟩
          obtain rfl := Option.some.inj hv
          exact not_lt.mp hnot

theorem readArrayBound_of_not_has {p : List UInt32}
    {bound : Option Int} (hb : D.vars b = some varN) (hlen : p.length = varN.level)
    (hnot : s.has b p = false)
    (h : readArrayBound (calls D depth) ⟨b, p⟩ s = .ok (bound, s')) : bound = some 0 := by
  obtain ⟨value, s₁, hget, hconv⟩ := bind_ok_iff.mp h
  cases depth with
  | zero => exact (throw_ok_iff.mp hget).elim
  | succ depth =>
      obtain ⟨var, s₂, hderef, hrun⟩ := bind_ok_iff.mp hget
      obtain ⟨hvar, rfl⟩ := Defs.deref_ok_iff.mp hderef
      obtain rfl : varN = var := Option.some.inj (hb.symm.trans hvar)
      rw [if_neg (by simp [hlen])] at hrun
      obtain ⟨t, s₃, hstate, hrun⟩ := bind_ok_iff.mp hrun
      obtain ⟨rfl, rfl⟩ := get_ok_iff.mp hstate
      have hnone : varInstanceGetSlotForReading s varN ⟨b, p⟩ = none := by
        simp [varInstanceGetSlotForReading, hlen, hnot]
      rw [hnone] at hrun
      obtain ⟨rfl, -⟩ := pure_ok_iff.mp hrun
      exact (pure_ok_iff.mp hconv).1.symm

theorem varSlotGetOrCreate_chained {u : Unit} (hvar : D.vars inst.var = some var)
    (h : varSlotGetOrCreate D depth inst s = .ok (u, s')) : Chained D inst.var var.level := by
  obtain ⟨var', s₁, hderef, hrun⟩ := bind_ok_iff.mp h
  obtain ⟨hvar', rfl⟩ := Defs.deref_ok_iff.mp hderef
  obtain rfl : var = var' := Option.some.inj (hvar.symm.trans hvar')
  obtain ⟨bounds, s₂, hbounds, -⟩ := bind_ok_iff.mp hrun
  obtain ⟨hlen, hbound⟩ := varNArray_ok hvar rfl hbounds
  intro j hj
  have hget : bounds[j]? = some bounds[j] := List.getElem?_eq_getElem (by omega)
  obtain ⟨varN, hb, hlevel, hdesc⟩ := hbound j _ hget
  exact ⟨_, varN, hb, hlevel, hdesc⟩

theorem PendingBelow.has_bound {t : VarId} {bvar : Var}
    (h : PendingBelow D s t (indices ++ [i])) (hclient : ClientOf D b t) (hb : D.vars b = some bvar)
    (hlevel : bvar.level = indices.length) : s.has b indices = true := by
  obtain ⟨tvar, ht, htlevel⟩ := h.level
  have hnot : ¬ Descends D t b := fun htb => not_descends_self t (htb.tail hclient)
  have hmax : ∀ j ∈ indices, j ≠ uintMax := fun j hj =>
    Slots.ne_uintMax_of_has h.has j (List.mem_append_left _ hj)
  rw [Slots.has_iff_demand_le hmax]
  intro q
  by_cases hq : q.length < indices.length
  · obtain ⟨c, cvar, hc, hclevel, hct⟩ := h.chained q.length (by simp; omega)
    have hcb : Descends D c b := by
      rcases hct.above_client hclient with rfl | hcb
      · obtain rfl : bvar = cvar := Option.some.inj (hb.symm.trans hc)
        omega
      · exact hcb
    have heq := h.equal c cvar b t q hc hcb hct hclevel.symm
    rw [Slots.pendingCount_of_not hnot, Slots.pendingCount_of_not (not_descends_self t)] at heq
    have hle := Slots.demand_le_of_has h.has q
    rw [demand_append [i] hq] at hle
    omega
  · rw [demand_of_length_le (by omega)]
    exact Nat.zero_le _

/-- Values and priorities on the given level and above it are as before. -/
def KeptAbove (D : Defs) (level : Nat) (s s' : Slots) : Prop :=
  ∀ u uvar p, D.vars u = some uvar → level ≤ uvar.level → p.length = uvar.level →
    s'.storedValue u p = s.storedValue u p ∧ s'.storedPriority u p = s.storedPriority u p

namespace KeptAbove

variable {level level' : Nat} {s'' : Slots}

protected theorem trans (h : KeptAbove D level s s') (h' : KeptAbove D level s' s'') :
    KeptAbove D level s s'' := by
  intro u uvar p hu hlevel hp
  obtain ⟨hvalue, hpriority⟩ := h u uvar p hu hlevel hp
  obtain ⟨hvalue', hpriority'⟩ := h' u uvar p hu hlevel hp
  exact ⟨hvalue'.trans hvalue, hpriority'.trans hpriority⟩

theorem mono (h : KeptAbove D level s s') (hle : level ≤ level') : KeptAbove D level' s s' :=
  fun u uvar p hu hlevel hp => h u uvar p hu (hle.trans hlevel) hp

theorem of_readEffect (h : ReadEffect s s') : KeptAbove D level s s' :=
  fun u _ p _ _ _ => ⟨h.storedValue_eq u p, h.storedPriority_eq u p⟩

theorem of_grows (h : s.Grows D s') : KeptAbove D level s s' :=
  fun _ _ _ hu _ hp => ⟨h.storedValue_eq hu hp, h.storedPriority_eq hu hp⟩

theorem of_commit (hgranted : Granted D s r var)
    (hlevel : var.level < level) (h : commit D depth var r s = .ok ((), s')) :
    KeptAbove D level s s' := by
  intro u uvar p hu hle hp
  have hne : ¬ (u = r.inst.var ∧ p = r.inst.indices) := by
    rintro ⟨rfl, -⟩
    obtain rfl : var = uvar := Option.some.inj (hgranted.var_eq.symm.trans hu)
    omega
  have hgrows := commit_grows hgranted.has h
  rw [hgrows.storedValue_eq hu hp, hgrows.storedPriority_eq hu hp,
    Slots.storedValue_updateEntry_ne hne, Slots.storedPriority_updateEntry_ne hne]
  exact ⟨rfl, rfl⟩

end KeptAbove

/-- What opening a slot soundly does: the shapes are equal up to the arrays below the variable, no
array changes if the slot exists, and the contents on the level of the variable stay. -/
structure Opened (D : Defs) (level : Nat) (v : VarId) (indices : List UInt32) (s s' : Slots) :
    Prop where
  pending : PendingBelow D s' v indices
  kept : s.has v indices = true → s'.numSlots = s.numSlots
  above : KeptAbove D level s s'

theorem Opened.of_create (hvar : D.vars v = some var) (hlen : indices.length + 1 = var.level)
    (hi : i ≠ uintMax) (hclient : ClientOf D b v) (hkept : KeptAbove D var.level s s₁)
    (hstate : (s.has v (indices ++ [i]) = true ∧ EqualShapes D s ∧ s₁.numSlots = s.numSlots) ∨
      (s.has v (indices ++ [i]) = false ∧
        (PendingBelow D s₁ b indices ∨ PendingBelow D s₁ v (indices ++ [i]))))
    (hcreate : varSlotGetOrCreate D depth ⟨v, indices ++ [i]⟩ s₁ = .ok ((), s')) :
    Opened D var.level v (indices ++ [i]) s s' := by
  have hgrows := varSlotGetOrCreate_creates depth _ hcreate
  have habove : KeptAbove D var.level s s' := hkept.trans (KeptAbove.of_grows hgrows)
  have hchained := varSlotGetOrCreate_chained hvar hcreate
  have hlength : (indices ++ [i]).length = var.level := by simp [hlen]
  rcases hstate with ⟨hhas, hequal, hnum⟩ | ⟨hnot, hpending | hpending⟩
  · have hhas₁ : s₁.has v (indices ++ [i]) = true :=
      (Slots.has_congr (fun q => by rw [hnum]) _).trans hhas
    obtain rfl := varSlotGetOrCreate_of_has hhas₁ hcreate
    exact ⟨(hequal.congr hnum).pending hvar hlength.symm (hlength ▸ hchained) hhas₁,
      fun _ => hnum, habove⟩
  · exact ⟨hpending.create hclient hi hcreate, fun hhas => absurd hhas (by simp [hnot]), habove⟩
  · obtain rfl := varSlotGetOrCreate_of_has hpending.has hcreate
    exact ⟨hpending, fun hhas => absurd hhas (by simp [hnot]), habove⟩

theorem toUInt32_boundNumber_formatInt (hsmall : i.toNat + 1 < 2147483648) :
    toUInt32 (boundNumber (some (formatInt (uint32ToInt (i + 1)))) - 1) = i := by
  rw [uint32ToInt_add_one hsmall, boundNumber_formatInt (by omega) (by omega)]
  refine UInt32.toNat_inj.mp (Int.natCast_inj.mp ?_)
  rw [toNat_toUInt32 (by omega) (by omega)]
  omega

theorem PendingBelow.commitBound (h : PendingBelow D s b indices) (hb : D.vars b = some varN)
    (hsmall : i.toNat + 1 < 2147483648) (hi : i ≠ uintMax)
    (hcommit : commit D depth varN (boundRequest ⟨b, indices⟩ (uint32ToInt (i + 1))) s =
      .ok ((), s')) :
    PendingBelow D s' b indices ∨
      ∃ f, firstClient D b = some f ∧ PendingBelow D s' f (indices ++ [i]) := by
  rcases commit_creates hcommit with ⟨hnum, -⟩ | ⟨value, s₁, s₂, hvalue, -, hbefore, hafter, hloop⟩
  · exact Or.inl (h.congr hnum)
  · obtain rfl : formatInt (uint32ToInt (i + 1)) = value := Option.some.inj hvalue
    rw [toUInt32_boundNumber_formatInt hsmall] at hloop
    cases hclients : varN.varNClients with
    | nil =>
        rw [hclients] at hloop
        obtain ⟨-, rfl⟩ := pure_ok_iff.mp hloop
        exact Or.inl (h.congr (hafter.trans hbefore))
    | cons f rest =>
        refine Or.inr ⟨f, by simp [firstClient, hb, hclients], ?_⟩
        exact ((h.congr hbefore).createAll hb hclients hi hloop).congr hafter

theorem commitBound_numSlots (hb : D.vars b = some varN)
    (hhas : ∀ y, ClientOf D b y → s.has y (indices ++ [i]) = true) (hsmall : i.toNat + 1 < 2147483648)
    (hcommit : commit D depth varN (boundRequest ⟨b, indices⟩ (uint32ToInt (i + 1))) s =
      .ok ((), s')) : s'.numSlots = s.numSlots := by
  rcases commit_creates hcommit with ⟨hnum, -⟩ | ⟨value, s₁, s₂, hvalue, -, hbefore, hafter, hloop⟩
  · exact hnum
  · obtain rfl : formatInt (uint32ToInt (i + 1)) = value := Option.some.inj hvalue
    rw [toUInt32_boundNumber_formatInt hsmall] at hloop
    have hidle : s₂ = s₁ := by
      refine forM_of_idle (fun y hy s₃ hcall => varSlotGetOrCreate_of_has ?_ hcall) hloop
      exact (Slots.has_congr (fun q => by rw [hbefore]) _).trans (hhas y ⟨varN, hb, hy⟩)
    rw [hafter, hidle, hbefore]

theorem opened_nil (hequal : EqualShapes D s)
    (hvar : D.vars inst.var = some var) (hlen : inst.indices.length = var.level)
    (hnil : inst.indices = []) (hcreate : varSlotGetOrCreate D depth inst s = .ok ((), s')) :
    Opened D var.level inst.var inst.indices s s' := by
  have hhas : s.has inst.var inst.indices = true := by rw [hnil]; rfl
  obtain rfl := varSlotGetOrCreate_of_has hhas hcreate
  refine ⟨hequal.pending hvar hlen.symm ?_ hhas, fun _ => rfl, fun _ _ _ _ _ _ => ⟨rfl, rfl⟩⟩
  rw [hnil]
  exact fun j hj => absurd hj (Nat.not_lt_zero j)

theorem indices_eq_take_concat {last : UInt32} {k : Nat}
    (hlast : inst.indices.getLast? = some last) (hlen : inst.indices.length = k + 1) :
    inst.indices = inst.indices.take k ++ [last] := by
  have hreverse := congrArg List.reverse (indices_split hlast hlen)
  rwa [List.reverse_reverse, List.reverse_cons, List.reverse_reverse] at hreverse

/-- Opening a slot whose way is enlarged soundly. -/
theorem openSlot_opened {mode : AccessMode}
    {priority : Priority} {access : SlotAccess} (hequal : EqualShapes D s)
    (hvar : D.vars inst.var = some var) (hlen : inst.indices.length = var.level)
    (hsmall : ∀ i ∈ inst.indices, i.toNat + 1 < 2147483648)
    (hsound : growsSoundly D s inst.var inst.indices.reverse = true)
    (h : openSlot D (calls D depth) var inst mode priority s = .ok (access, s'))
    (hclears : s'.clears = s.clears) : Opened D var.level inst.var inst.indices s s' := by
  induction depth generalizing inst var s s' mode priority access with
  | zero =>
      obtain ⟨s₁, hraise, hcreate, -, -⟩ := openSlot_cases h
      rcases raiseBound_cases hraise with
        ⟨hnil, rfl⟩ | ⟨last, b, varN, bound, s₂, -, -, -, -, hread, -⟩
      · exact opened_nil hequal hvar hlen hnil hcreate
      · obtain ⟨value, s₃, hget, -⟩ := bind_ok_iff.mp hread
        exact (throw_ok_iff.mp hget).elim
  | succ depth ih =>
      obtain ⟨s₁, hraise, hcreate, -, -⟩ := openSlot_cases h
      have hcreated := (varSlotGetOrCreate_creates _ _ hcreate).clears_eq
      rcases raiseBound_cases hraise with
        ⟨hnil, rfl⟩ | ⟨last, b, varN, bound, s₂, hlast, hb, hvarN, -, hread, hend⟩
      · exact opened_nil hequal hvar hlen hnil hcreate
      · obtain ⟨varN', hvarN', hlevel, -⟩ := D.boundGraph.bound hvar hb
        obtain rfl : varN = varN' := Option.some.inj (hvarN.symm.trans hvarN')
        have hsplit := indices_eq_take_concat hlast (hlen.trans hlevel.symm)
        obtain ⟨v, indices⟩ := inst
        dsimp only at hvar hlen hsmall hsound hcreate hlast hread hend hsplit ⊢
        generalize indices.take varN.level = rest at *
        subst hsplit
        have hrest : rest.length = varN.level := by
          rw [List.length_append, List.length_singleton] at hlen
          omega
        have hclient : ClientOf D b v := clientOf_of_varN hvar hb
        have hlastSmall := hsmall last (by simp)
        have hlastMax : last ≠ uintMax := by
          rintro rfl
          exact absurd hlastSmall (by decide)
        have hchained : Chained D b rest.length := hrest ▸
          (varSlotGetOrCreate_chained hvar hcreate).bound hclient hvarN (by omega)
        have hbound : (D.vars v).bind Var.varN = some b := by rw [hvar, Option.bind_some, hb]
        rw [List.reverse_append, List.reverse_singleton, List.singleton_append, growsSoundly,
          hbound] at hsound
        simp only [Bool.and_eq_true, Bool.or_eq_true, List.reverse_cons, List.reverse_reverse]
          at hsound
        obtain ⟨hfirst, hbelow⟩ := hsound
        suffices hraised : KeptAbove D var.level s s₁ ∧
            ((s.has v (rest ++ [last]) = true ∧ EqualShapes D s ∧ s₁.numSlots = s.numSlots) ∨
              (s.has v (rest ++ [last]) = false ∧
                (PendingBelow D s₁ b rest ∨ PendingBelow D s₁ v (rest ++ [last])))) from
          Opened.of_create hvar (by omega) hlastMax hclient hraised.1 hraised.2 hcreate
        rcases hend with ⟨hreached, rfl⟩ | ⟨old, res, s₃, value, rfl, hless, hset, hget⟩
        · -- the bound has a slot, or it would read zero
          have heff := (readArrayBound_reads (calls_reads D _) _ hread).2 (by omega)
          refine ⟨KeptAbove.of_readEffect heff, ?_⟩
          cases hhas : s.has v (rest ++ [last]) with
          | true => exact Or.inl ⟨rfl, hequal, heff.numSlots⟩
          | false =>
              refine Or.inr ⟨rfl, Or.inl ?_⟩
              refine (hequal.congr heff.numSlots).pending hvarN hrest.symm hchained ?_
              rw [heff.has_eq]
              by_contra hnot
              have hzero := readArrayBound_of_not_has hvarN hrest (Bool.eq_false_iff.mpr hnot) hread
              have hle := hreached 0 hzero
              rw [uint32ToInt_add_one hlastSmall] at hle
              omega
        · obtain ⟨heff, hclears₃, hagain⟩ :=
            raiseBound_clears ⟨v, var, hvar, hb⟩ hread hset hget (by omega)
          obtain ⟨varN', hvarN', ⟨hrefused, -, -⟩ | ⟨-, -, access', s₄, hopen, hwritten⟩⟩ :=
            varInstanceDoSetValue_cases hset
          · obtain rfl : varN = varN' := Option.some.inj (hvarN.symm.trans hvarN')
            rcases hrefused with hmissing | ⟨hbase, -⟩ | hexcess
            · exact absurd hrest (Nat.ne_of_lt hmissing)
            · exact nomatch hbase
            · exact absurd hrest (Nat.ne_of_gt hexcess)
          · obtain rfl : varN = varN' := Option.some.inj (hvarN.symm.trans hvarN')
            have hclears₄ : s₄.clears = s₂.clears := by
              rcases hwritten with ⟨-, -, rfl⟩ | ⟨-, hgranted, hcommit⟩
              · exact hclears₃
              · exact (commit_grows hgranted.has hcommit).clears_eq.symm.trans hclears₃
            have hopened : Opened D varN.level b rest s₂ s₄ :=
              ih (hequal.congr heff.numSlots) hvarN hrest
                (fun i hi => hsmall i (List.mem_append_left _ hi))
                (by rwa [growsSoundly_congr heff.numSlots]) hopen hclears₄
            have hkept : KeptAbove D var.level s₄ s₃ := by
              rcases hwritten with ⟨-, -, rfl⟩ | ⟨-, hgranted, hcommit⟩
              · exact fun _ _ _ _ _ _ => ⟨rfl, rfl⟩
              · exact KeptAbove.of_commit hgranted (by omega) hcommit
            have habove : KeptAbove D var.level s s₁ :=
              (((KeptAbove.of_readEffect heff).trans (hopened.above.mono (by omega))).trans
                hkept).trans (KeptAbove.of_readEffect hagain)
            refine ⟨habove, ?_⟩
            have hvchained : Chained D v (rest ++ [last]).length :=
              hlen ▸ varSlotGetOrCreate_chained hvar hcreate
            cases hhas : s.has v (rest ++ [last]) with
            | true =>
                -- there is room for the element everywhere
                have hpending : PendingBelow D s₂ v (rest ++ [last]) :=
                  (hequal.congr heff.numSlots).pending hvar hlen.symm hvchained
                    ((heff.has_eq v _).trans hhas)
                have hsame := hopened.kept (hpending.has_bound hclient hvarN hrest.symm)
                have hstored : s₃.numSlots = s₄.numSlots := by
                  rcases hwritten with ⟨-, -, rfl⟩ | ⟨-, -, hcommit⟩
                  · rfl
                  · exact commitBound_numSlots hvarN
                      (fun y hy => (hpending.congr hsame).has_sibling hclient hy) hlastSmall hcommit
                refine Or.inl ⟨rfl, hequal, ?_⟩
                rw [hagain.numSlots, hstored, hsame, heff.numSlots]
            | false =>
                refine Or.inr ⟨rfl, ?_⟩
                rcases hwritten with ⟨-, -, rfl⟩ | ⟨-, -, hcommit⟩
                · exact Or.inl (hopened.pending.congr hagain.numSlots)
                · rcases hopened.pending.commitBound hvarN hlastSmall hlastMax hcommit with
                    hpending | ⟨f, hf, hpending⟩
                  · exact Or.inl (hpending.congr hagain.numSlots)
                  · have hpending := hpending.congr hagain.numSlots
                    have hserved := hfirst.resolve_left (by simp [hhas])
                    rw [hf, Option.all_some, Bool.or_eq_true, beq_iff_eq] at hserved
                    rcases hserved with rfl | hleaf
                    · exact Or.inr hpending
                    · have hequal₁ :=
                        hpending.equalShapes_of_leaf (not_clientOf_of_isLeaf hleaf)
                      exact Or.inr (hequal₁.pending hvar hlen.symm hvchained
                        (hpending.has_sibling (clientOf_of_firstClient hf) hclient))

theorem toUInt32_boundNumber_ne_uintMax {value : Option CString} (hpos : 0 < boundNumber value) :
    toUInt32 (boundNumber value - 1) ≠ uintMax := by
  obtain ⟨text, -, hconv⟩ := boundNumber_pos hpos
  have hrange := varValueConvertToInteger_range hconv
  intro hmax
  have htoNat := toNat_toUInt32 (by omega : 0 ≤ boundNumber value - 1) (by omega)
  rw [hmax] at htoNat
  have : ((4294967295 : Nat) : Int) = boundNumber value - 1 := htoNat
  omega

theorem Opened.commit_equalShapes
    (hopened : Opened D var.level r.inst.var r.inst.indices s s₁) (h : EqualShapes D s)
    (hvar : D.vars r.inst.var = some var) (hlen : r.inst.indices.length = var.level)
    (hnew : s.has r.inst.var r.inst.indices = true ∨ 0 < boundNumber r.value)
    (hstores : storesSoundly D s r = true)
    (hcommit : commit D depth var r s₁ = .ok ((), s')) : EqualShapes D s' := by
  have hstored : (s₁.entry r.inst.var r.inst.indices).value =
      s.storedValue r.inst.var r.inst.indices := by
    rw [← (hopened.above _ var _ hvar (Nat.le_refl _) hlen).1, Slots.storedValue,
      if_pos hopened.pending.has]
  rcases commit_creates hcommit with
    ⟨hnum, hsmaller⟩ | ⟨value, s₂, s₃, hvalue, hlarger, hbefore, hafter, hloop⟩
  · by_cases hhas : s.has r.inst.var r.inst.indices = true
    · exact h.congr (hnum.trans (hopened.kept hhas))
    · have hpos := hnew.resolve_left hhas
      obtain ⟨text, hvalue, -⟩ := boundNumber_pos hpos
      have hle := hsmaller text hvalue
      rw [hstored, Slots.storedValue, if_neg hhas, ← hvalue] at hle
      exact absurd hpos (not_lt.mpr hle)
  · have hserved : (firstClient D r.inst.var).all (fun f => isLeaf D f ||
        s.has f (r.inst.indices ++ [toUInt32 (boundNumber (some value) - 1)])) = true := by
      rw [storesSoundly, hvalue, Option.all_some, Bool.or_eq_true, decide_eq_true_eq,
        ← hstored] at hstores
      exact hstores.resolve_left (not_le.mpr hlarger)
    refine EqualShapes.congr ?_ hafter
    have hpending := hopened.pending.congr hbefore
    by_cases hhas : s.has r.inst.var r.inst.indices = true
    · have hnum := hbefore.trans (hopened.kept hhas)
      refine (h.congr hnum).createAll hvar hlen.symm hpending.chained hpending.has ?_ hloop
      intro f hf
      have hf : firstClient D r.inst.var = some f := by
        rwa [firstClient, hvar, Option.bind_some]
      rw [hf, Option.all_some, Bool.or_eq_true] at hserved
      rcases hserved with hleaf | hfhas
      · exact Or.inl (not_clientOf_of_isLeaf hleaf)
      · exact Or.inr ((Slots.has_congr (fun q => by rw [hnum]) _).trans hfhas)
    · have hpos := hnew.resolve_left hhas
      rw [hvalue] at hpos
      cases hclients : var.varNClients with
      | nil =>
          rw [hclients] at hloop
          obtain ⟨-, rfl⟩ := pure_ok_iff.mp hloop
          refine hpending.equalShapes_of_leaf (not_clientOf_of_isLeaf ?_)
          simp [isLeaf, hvar, hclients]
      | cons f rest =>
          have hf : firstClient D r.inst.var = some f := by simp [firstClient, hvar, hclients]
          have hlast := hpending.createAll hvar hclients (toUInt32_boundNumber_ne_uintMax hpos) hloop
          rw [hf, Option.all_some, Bool.or_eq_true] at hserved
          rcases hserved with hleaf | hfhas
          · exact hlast.equalShapes_of_leaf (not_clientOf_of_isLeaf hleaf)
          · -- the client cannot have a slot where its bound has none
            obtain ⟨fvar, hfvar, hflevel⟩ := (clientOf_of_firstClient hf).level_eq hvar
            exact absurd ((h.pending hfvar (by simp; omega) hlast.chained hfhas).has_bound
              (clientOf_of_firstClient hf) hvar hlen.symm) hhas

theorem boundNumber_of_storesInNewSlot
    (h : storesInNewSlot D var r = true) : 0 < boundNumber r.value := by
  simp only [storesInNewSlot, Bool.and_eq_true] at h
  cases hr : r.value with
  | none => simp [hr] at h
  | some value =>
      simp only [hr, Option.any_some, Bool.and_eq_true, decide_eq_true_eq] at h
      exact h.2.1

theorem Opened.granted (hopened : Opened D var.level r.inst.var r.inst.indices s s₁)
    (hvar : D.vars r.inst.var = some var) (hlen : r.inst.indices.length = var.level)
    (hopenable : ¬ RefusedAtOnce var r.inst r.priority r.ignoreBasePriority)
    (hnot : ¬ s.has r.inst.var r.inst.indices = true) (hnew : storesInNewSlot D var r = true) :
    Granted D s₁ r var := by
  have hpriority : (s₁.entry r.inst.var r.inst.indices).priority = .undefined := by
    have hkept := (hopened.above _ var _ hvar (Nat.le_refl _) hlen).2
    rwa [Slots.storedPriority, if_pos hopened.pending.has, Slots.storedPriority,
      if_neg hnot] at hkept
  simp only [storesInNewSlot, Bool.and_eq_true] at hnew
  obtain ⟨hadmits, hvalue⟩ := hnew
  refine ⟨hvar, hlen, hopened.pending.has, ?_, hpriority ▸ hadmits, fun hcheck => ?_⟩
  · by_cases hignore : r.ignoreBasePriority = true
    · exact Or.inl hignore
    · refine Or.inr (not_lt.mp fun hlt => hopenable (Or.inl ⟨?_, hlt⟩))
      simpa using hignore
  · cases hr : r.value with
    | none => simp [hr] at hvalue
    | some value =>
        simp only [hr, Option.any_some, hcheck, Bool.not_true, Bool.false_or,
          Bool.and_eq_true] at hvalue
        exact ⟨value, rfl, hvalue.2⟩

theorem EqualShapes.call {call : Call} {res : WriteResult} (h : EqualShapes D s)
    (hsmall : ∀ i ∈ call.request.inst.indices, i.toNat + 1 < 2147483648)
    (hsound : call.GrowsSoundly D s)
    (hexec : call.exec D (calls D depth) s = .ok (res, s')) (hclears : s'.clears = s.clears) :
    EqualShapes D s' := by
  rcases Call.exec_cases D (calls D depth) call with ⟨res', -, hpure⟩ | hset
  · rw [hpure] at hexec
    obtain ⟨-, rfl⟩ := pure_ok_iff.mp hexec
    exact h
  · rw [hset] at hexec
    unfold Call.GrowsSoundly at hsound
    generalize call.request = r at *
    obtain ⟨var, hvar, ⟨-, -, rfl⟩ | ⟨hlen, hopenable, access, s₁, hopen, hend⟩⟩ :=
      varInstanceDoSetValue_cases hexec
    · exact h
    · have hclears₁ : s₁.clears = s.clears := by
        rcases hend with ⟨-, -, rfl⟩ | ⟨-, hgranted, hcommit⟩
        · exact hclears
        · exact (commit_grows hgranted.has hcommit).clears_eq.symm.trans hclears
      obtain ⟨hway, hrest⟩ := hsound var hvar hlen hopenable
      have hopened := openSlot_opened h hvar hlen hsmall hway hopen hclears₁
      rcases hrest with hleaf | ⟨hnew, hstores⟩
      · have hequal := hopened.pending.equalShapes_of_leaf (not_clientOf_of_isLeaf hleaf)
        rcases hend with ⟨-, -, rfl⟩ | ⟨-, -, hcommit⟩
        · exact hequal
        · rcases commit_creates hcommit with
            ⟨hnum, -⟩ | ⟨value, s₂, s₃, -, -, hbefore, hafter, hloop⟩
          · exact hequal.congr hnum
          · have hnone : var.varNClients = [] := by
              simpa [isLeaf, hvar] using hleaf
            rw [hnone] at hloop
            obtain ⟨-, rfl⟩ := pure_ok_iff.mp hloop
            exact hequal.congr (hafter.trans hbefore)
      · rcases hend with ⟨-, hrefused, rfl⟩ | ⟨-, -, hcommit⟩
        · by_cases hhas : s.has r.inst.var r.inst.indices = true
          · exact h.congr (hopened.kept hhas)
          · exact absurd (hopened.granted hvar hlen hopenable hhas (hnew.resolve_left hhas)) hrefused
        · exact hopened.commit_equalShapes h hvar hlen (hnew.imp_right boundNumber_of_storesInNewSlot)
            hstores hcommit

/-- One sound call of a run, with indices below the largest `int`. -/
def SoundCallStep (D : Defs) (s s' : Slots) : Prop :=
  ∃ (depth : Nat) (call : Call) (res : WriteResult),
    (∀ i ∈ call.request.inst.indices, i.toNat < 2147483647) ∧ call.GrowsSoundly D s ∧
      call.exec D (calls D depth) s = .ok (res, s')

theorem SoundCallStep.callStep (h : SoundCallStep D s s') : CallStep D s s' := by
  obtain ⟨depth, call, res, -, -, hexec⟩ := h
  exact ⟨depth, call, res, hexec⟩

theorem EqualShapes.not_has_nextFree (h : EqualShapes D s) {w : VarId}
    {p : List UInt32} (hb : D.vars b = some varN) (hv : Descends D b v) (hw : Descends D b w)
    (hvar : D.vars v = some var) (hp : p.length = varN.level) :
    s.has w (p ++ [varInstanceGetNextFreeIndex s var ⟨v, p⟩]) = false := by
  obtain ⟨var', hvar', hlt⟩ := hv.level_lt hb
  obtain rfl : var = var' := Option.some.inj (hvar.symm.trans hvar')
  have hcount := h b varN v w p hb hv hw hp
  rw [Bool.eq_false_iff]
  intro hhas
  have hless := Slots.lt_slotCount_of_has hhas
  rw [← hcount] at hless
  unfold varInstanceGetNextFreeIndex at hless
  rw [if_neg (by simp; omega)] at hless
  by_cases hfree : s.has v p = true
  · rw [if_pos hfree, Slots.slotCount_of_has hfree] at hless
    exact absurd hless (lt_irrefl _)
  · rw [if_neg hfree, Slots.slotCount, if_neg hfree] at hless
    exact absurd hless (Nat.not_lt_zero _)

/-- In every run of sound calls that clears no array, the arrays below a bound have equal shapes,
and the next free index of one of them is free in all of them. -/
theorem equalShapes_of_run {D : Defs} {s' : Slots}
    (hrun : Relation.ReflTransGen (SoundCallStep D) Slots.init s')
    (hclears : s'.clears = 0) :
    EqualShapes D s' ∧
      ∀ b varN v var w p, D.vars b = some varN → Descends D b v → Descends D b w →
        D.vars v = some var → p.length = varN.level →
        s'.has w (p ++ [varInstanceGetNextFreeIndex s' var ⟨v, p⟩]) = false := by
  suffices hequal : EqualShapes D s' from
    ⟨hequal, fun b varN v var w p hb hv hw hvar hp => hequal.not_has_nextFree hb hv hw hvar hp⟩
  induction hrun with
  | refl =>
      intro b varN v w p _ _ _ _
      simp [Slots.slotCount, Slots.init]
  | @tail s₁ s₂ hbefore hstep ih =>
      have hmoves : Run D s₁ s₂ := Relation.ReflTransGen.single hstep.callStep
      have hle := hmoves.moves.clears_le
      obtain ⟨depth, call, res, hsmall, hsound, hexec⟩ := hstep
      refine (ih (by omega)).call (fun i hi => ?_) hsound hexec (by omega)
      have := hsmall i hi
      omega

end

/-! ### Two orders of definition -/

/-- `X_N` (variable 0) with the given order of its clients `X_%_NAME` (variable 1) and `X_%_Y_N`
(variable 2), and `X_%_Y_%` (variable 3). -/
def nestedVars (clients : List VarId) : List Var :=
  [ { name := "X_N".toList, type := 0, level := 0, varN := none, varNClients := clients,
      priority := .configuration, props := boundProps },
    { name := "X_%_NAME".toList, type := 1, level := 1, varN := some 0, varNClients := [],
      priority := .configuration, props := plainProps },
    { name := "X_%_Y_N".toList, type := 0, level := 1, varN := some 0, varNClients := [3],
      priority := .configuration, props := boundProps },
    { name := "X_%_Y_%".toList, type := 1, level := 2, varN := some 2, varNClients := [],
      priority := .configuration, props := plainProps } ]

/-- The definitions made of these variables. -/
def nestedDefs (clients : List VarId) (h : boundLinksOk 0 (nestedVars clients) = true) : Defs where
  types := sampleTypes
  vars := fun v => (nestedVars clients)[v]?
  condition := fun _ => .literal (.boolean true)
  defValue := fun v => ((nestedVars clients)[v]?).bind fun var => var.props.defValue
  matchArray := none
  boundGraph := BoundGraph.of_list h

/-- Write `X_N`. -/
def writeXN : Call := .setValue ⟨0, []⟩ (some ['1']) none .weak .configuration

/-- Where `X_%_NAME` has been defined first, writing `X_N` gives all arrays one slot. -/
theorem equalShapes_of_run_X_N :
    ∃ s', Relation.ReflTransGen (SoundCallStep (nestedDefs [1, 2] (by decide))) Slots.init s' ∧
      s'.clears = 0 ∧ s'.slotCount 2 [] = 1 ∧ s'.slotCount 3 [] = 1 ∧
      EqualShapes (nestedDefs [1, 2] (by decide)) s' := by
  let D := nestedDefs [1, 2] (by decide)
  let write : SlotExec WriteResult := writeXN.exec D (calls D 8)
  have hexec : write Slots.init = .ok (.written, write.stateAfter Slots.init) :=
    ok_of_result (by decide)
  have hsound : writeXN.GrowsSoundly D Slots.init := by
    intro var _ _ _
    exact ⟨by decide, Or.inr ⟨Or.inl (by decide), by decide⟩⟩
  have hsmall : ∀ i ∈ writeXN.request.inst.indices, i.toNat < 2147483647 :=
    fun i hi => absurd hi List.not_mem_nil
  have hrun : Relation.ReflTransGen (SoundCallStep D) Slots.init (write.stateAfter Slots.init) :=
    Relation.ReflTransGen.single ⟨8, writeXN, .written, hsmall, hsound, hexec⟩
  exact ⟨write.stateAfter Slots.init, hrun, by decide, by decide, by decide,
    (equalShapes_of_run hrun (by decide)).1⟩

/-- Where `X_%_Y_N` has been defined first, `X_%_Y_%` is left behind: `X_%_Y_N` has an element at
the next free index of `X_%_Y_%`. -/
theorem equalShapes_broken_by_X_N :
    ∃ s', CallStep (nestedDefs [2, 1] (by decide)) Slots.init s' ∧ s'.clears = 0 ∧
      s'.slotCount 2 [] = 1 ∧ s'.slotCount 3 [] = 0 ∧
      ¬ EqualShapes (nestedDefs [2, 1] (by decide)) s' ∧
      s'.has 2 [varInstanceGetNextFreeIndex s' ((nestedVars [2, 1])[3]) ⟨3, []⟩] = true := by
  let D := nestedDefs [2, 1] (by decide)
  let write : SlotExec WriteResult := writeXN.exec D (calls D 8)
  have hexec : write Slots.init = .ok (.written, write.stateAfter Slots.init) :=
    ok_of_result (by decide)
  refine ⟨write.stateAfter Slots.init, ⟨8, writeXN, .written, hexec⟩, by decide, by decide,
    by decide, fun hequal => ?_, by decide⟩
  have hY : ClientOf D 0 2 := ⟨_, rfl, by decide⟩
  have hYs : ClientOf D 2 3 := ⟨_, rfl, by decide⟩
  have hsame := hequal 0 _ 2 3 [] rfl (.single hY) (.tail (.single hY) hYs) rfl
  exact absurd hsame (by decide)

end Mkfli4l
