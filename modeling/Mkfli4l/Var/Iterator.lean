import Mkfli4l.Var.SlotRead

/-!
# Iterating over the values of a variable

The iterators of `var/iter.c`.  A slot iterator walks the tree of slots of a variable, one
frame for each level from the root to the current slot; a value iterator runs it from leaf to
leaf and reads the instances it comes by.  The arrays are looked up again in each step, so a
read that changes them would lead the iterator astray.

The main result is that nothing is left out: as long as the arrays stay as they are, a value
iterator that comes to its end has read every complete instance that has a slot
(`seekValue_visits`).
-/

namespace Mkfli4l

open Lib Exec

/-- `struct varslot_iterator_t`.  Its parents follow it in a list, innermost first. -/
structure SlotIterator where
  slot : List UInt32
  level : Nat
  i : Int
deriving DecidableEq, Repr

/-- `++parent->i`. -/
def incrementIndex (i : Int) : SlotExec Int :=
  if i = 2147483647 then throw .signedOverflow else pure (i + 1)

/-- Does the iterator stay at a leaf or behind the last entry of an array? -/
def SlotIterator.exhausted (v : VarId) (var : Var) (it : SlotIterator) : SlotExec Bool :=
  if it.level = var.level then pure true
  else do
    derefSlot v it.slot
    let s ← get
    pure (decide (toUInt32 it.i = s.numSlots v it.slot))

/-- Go back to the parent iterator; the root iterator comes to its end instead. -/
def SlotIterator.leave (it : SlotIterator) : List SlotIterator → SlotExec (List SlotIterator)
  | parent :: rest => do
      let i ← incrementIndex parent.i
      pure ({ parent with i := i } :: rest)
  | [] => pure [{ it with i := -1 }]

def varSlotIteratorNext (v : VarId) (var : Var) :
    List SlotIterator → SlotExec (List SlotIterator)
  | [] => throw .nullPointer
  | it :: parents =>
      if it.i < 0 then pure ({ it with i := 0 } :: parents)
      else do
        let exhausted ← it.exhausted v var
        if exhausted then it.leave parents
        else pure (⟨it.slot ++ [toUInt32 it.i], it.level + 1, 0⟩ :: it :: parents)

/-- The inner loop of `var_value_iterator_next`: go to the next leaf or to the end. -/
def seekLeaf (v : VarId) (var : Var) : Nat → List SlotIterator → SlotExec (List SlotIterator)
  | 0, _ => throw .roundsExhausted
  | rounds + 1, iter => do
      let iter ← varSlotIteratorNext v var iter
      match iter with
      | [] => throw .nullPointer
      | it :: _ =>
          if 0 ≤ it.i ∧ it.level ≠ var.level then seekLeaf v var rounds iter else pure iter

/-- `struct var_value_iterator_t`, with the indices of its instance. -/
structure ValueIterator where
  indices : List UInt32
  iter : Option (List SlotIterator)
  last : Option VarValue
  all : Bool
deriving DecidableEq, Repr

def varValueIteratorCreate (s : Slots) (var : Var) (inst : VarInstance) (all : Bool) :
    ValueIterator :=
  match varInstanceGetSlotForReading s var inst with
  | some slot =>
      { indices := inst.indices ++ List.replicate (var.level - inst.indices.length) 0
        iter := some [⟨slot, inst.indices.length, -1⟩]
        last := none
        all := all }
  | none =>
      { indices := List.replicate var.level 0, iter := none, last := none, all := all }

/-- Copy the positions of the parents of a leaf into the indices of the instance. -/
def copyIndices (indices : List UInt32) : List SlotIterator → List UInt32
  | [] => indices
  | it :: parents => copyIndices (indices.set it.level (toUInt32 it.i)) parents

/-- Is a value passed over? -/
def ValueIterator.skips (all : Bool) : Option VarValue → Bool
  | none => true
  | some value => !all && value.value.isNone

/-- The outer loop of `var_value_iterator_next`. -/
def seekValue (D : Defs) (c : Callees) (v : VarId) (var : Var) :
    Nat → ValueIterator → List SlotIterator → SlotExec (Bool × ValueIterator)
  | 0, _, _ => throw .roundsExhausted
  | rounds + 1, it, iter => do
      let iter ← seekLeaf v var (rounds + 1) iter
      match iter with
      | [] => throw .nullPointer
      | leaf :: parents =>
          if 0 ≤ leaf.i then do
            let indices := copyIndices it.indices parents
            let last ← varInstanceReadValue D c ⟨v, indices⟩
            let it := { it with indices := indices, iter := some iter, last := last }
            if ValueIterator.skips it.all last then seekValue D c v var rounds it iter
            else pure (true, it)
          else pure (false, { it with iter := some iter, last := none })

def varValueIteratorNext (D : Defs) (c : Callees) (v : VarId) (var : Var) (rounds : Nat)
    (it : ValueIterator) : SlotExec (Bool × ValueIterator) :=
  match it.iter with
  | none => pure (false, it)
  | some iter => seekValue D c v var rounds it iter

/-! ### One step of a slot iterator -/

/-- What a step of a slot iterator does: it starts at the root, it leaves a leaf or an array
that is used up, it comes to its end, or it enters the current entry of an array. -/
inductive SlotIteratorStep (v : VarId) (var : Var) (s : Slots) :
    List SlotIterator → List SlotIterator → Prop
  | start (it : SlotIterator) (parents : List SlotIterator) (hi : it.i < 0) :
      SlotIteratorStep v var s (it :: parents) ({ it with i := 0 } :: parents)
  | leave (it parent : SlotIterator) (rest : List SlotIterator) (hi : 0 ≤ it.i)
      (hend : it.level = var.level ∨ toUInt32 it.i = s.numSlots v it.slot)
      (hmax : parent.i ≠ 2147483647) :
      SlotIteratorStep v var s (it :: parent :: rest) ({ parent with i := parent.i + 1 } :: rest)
  | finish (it : SlotIterator) (hi : 0 ≤ it.i)
      (hend : it.level = var.level ∨ toUInt32 it.i = s.numSlots v it.slot) :
      SlotIteratorStep v var s [it] [{ it with i := -1 }]
  | enter (it : SlotIterator) (parents : List SlotIterator) (hi : 0 ≤ it.i)
      (hlevel : it.level ≠ var.level) (hinside : toUInt32 it.i ≠ s.numSlots v it.slot) :
      SlotIteratorStep v var s (it :: parents)
        (⟨it.slot ++ [toUInt32 it.i], it.level + 1, 0⟩ :: it :: parents)

variable {it : SlotIterator} {s' : Slots} {iter iter' : List SlotIterator} {p : List UInt32}
  {rounds : Nat}

theorem SlotIterator.exhausted_ok {v : VarId} {var : Var} {b : Bool}
    {s : Slots} (h : it.exhausted v var s = .ok (b, s')) :
    s' = s ∧ (b = true ↔ it.level = var.level ∨ toUInt32 it.i = s.numSlots v it.slot) := by
  unfold SlotIterator.exhausted at h
  split at h
  · next hlevel =>
      obtain ⟨rfl, rfl⟩ := pure_ok_iff.mp h
      exact ⟨rfl, by simp [hlevel]⟩
  · next hlevel =>
      obtain ⟨_, s₁, hslot, hrun⟩ := bind_ok_iff.mp h
      obtain ⟨-, rfl⟩ := derefSlot_ok_iff.mp hslot
      obtain ⟨t, s₁, hget, hrun⟩ := bind_ok_iff.mp hrun
      obtain ⟨rfl, rfl⟩ := get_ok_iff.mp hget
      obtain ⟨rfl, rfl⟩ := pure_ok_iff.mp hrun
      exact ⟨rfl, by simp [hlevel]⟩

theorem varSlotIteratorNext_ok {v : VarId} {var : Var}
    {s : Slots} (h : varSlotIteratorNext v var iter s = .ok (iter', s')) :
    s' = s ∧ SlotIteratorStep v var s iter iter' := by
  cases iter with
  | nil => exact (throw_ok_iff.mp h).elim
  | cons it parents =>
      by_cases hi : it.i < 0
      · rw [varSlotIteratorNext, if_pos hi] at h
        obtain ⟨rfl, rfl⟩ := pure_ok_iff.mp h
        exact ⟨rfl, .start it parents hi⟩
      · rw [varSlotIteratorNext, if_neg hi] at h
        have hi : 0 ≤ it.i := Int.not_lt.mp hi
        obtain ⟨b, s₁, hexhausted, hrun⟩ := bind_ok_iff.mp h
        obtain ⟨rfl, hb⟩ := SlotIterator.exhausted_ok hexhausted
        cases b with
        | true =>
            have hend := hb.mp rfl
            cases parents with
            | nil =>
                obtain ⟨rfl, rfl⟩ := pure_ok_iff.mp hrun
                exact ⟨rfl, .finish it hi hend⟩
            | cons parent rest =>
                obtain ⟨i, s₂, hincr, hrun⟩ := bind_ok_iff.mp hrun
                obtain ⟨rfl, rfl⟩ := pure_ok_iff.mp hrun
                unfold incrementIndex at hincr
                split at hincr
                · exact (throw_ok_iff.mp hincr).elim
                · next hmax =>
                    obtain ⟨rfl, rfl⟩ := pure_ok_iff.mp hincr
                    exact ⟨rfl, .leave it parent rest hi hend hmax⟩
        | false =>
            obtain ⟨rfl, rfl⟩ := pure_ok_iff.mp hrun
            have hnot := mt hb.mpr Bool.false_ne_true
            exact ⟨rfl, .enter it parents hi (fun h => hnot (Or.inl h))
              fun h => hnot (Or.inr h)⟩

/-! ### The route of a slot iterator -/

section route

variable (s : Slots) (v : VarId) (var : Var) (base : List UInt32)

/-- A slot iterator stays at an allocated slot, at most behind its last entry. -/
structure SlotIterator.Valid (it : SlotIterator) : Prop where
  slot_length : it.slot.length = it.level
  level_le : it.level ≤ var.level
  has : s.has v it.slot = true
  i_le : it.i ≤ 2147483647
  i_inside : it.level ≠ var.level → it.i ≤ (s.numSlots v it.slot).toNat

/-- The slot of an iterator is the current entry of its parent. -/
structure SlotIterator.Under (it parent : SlotIterator) : Prop where
  slot : it.slot = parent.slot ++ [toUInt32 parent.i]
  level : it.level = parent.level + 1
  i_nonneg : 0 ≤ parent.i
  i_lt : parent.i < (s.numSlots v parent.slot).toNat

/-- The frames of a slot iterator lead from the slot `base` to the current slot. -/
def Route : List SlotIterator → Prop
  | [] => False
  | [it] => it.Valid s v var ∧ it.slot = base
  | it :: parent :: rest => it.Valid s v var ∧ it.Under s v parent ∧ Route (parent :: rest)

end route

section route

variable {s : Slots} {v : VarId} {var : Var} {base : List UInt32}

variable {parents : List SlotIterator}

theorem Route.head (h : Route s v var base (it :: parents)) : it.Valid s v var := by
  cases parents with
  | nil => exact h.1
  | cons parent rest => exact h.1

theorem Route.replace {it' : SlotIterator}
    (h : Route s v var base (it :: parents)) (hslot : it'.slot = it.slot)
    (hlevel : it'.level = it.level) (hvalid : it'.Valid s v var) :
    Route s v var base (it' :: parents) := by
  cases parents with
  | nil => exact ⟨hvalid, hslot.trans h.2⟩
  | cons parent rest =>
      refine ⟨hvalid, ⟨?_, ?_, h.2.1.i_nonneg, h.2.1.i_lt⟩, h.2.2⟩
      · rw [hslot, h.2.1.slot]
      · rw [hlevel, h.2.1.level]

theorem toNat_toUInt32_index {i : Int} (hlo : 0 ≤ i) (hhi : i ≤ 2147483647) :
    ((toUInt32 i).toNat : Int) = i :=
  toNat_toUInt32 hlo (by omega)

theorem Route.step (h : Route s v var base iter)
    (hstep : SlotIteratorStep v var s iter iter') : Route s v var base iter' := by
  cases hstep with
  | start it parents hi =>
      have hv := h.head
      refine h.replace rfl rfl ⟨hv.slot_length, hv.level_le, hv.has, by simp, fun _ => ?_⟩
      exact Int.natCast_nonneg _
  | leave it parent rest hi hend hmax =>
      have hv := h.2.2.head
      have hlt := h.2.1.i_lt
      have hle := hv.i_le
      refine h.2.2.replace rfl rfl ⟨hv.slot_length, hv.level_le, hv.has, ?_, fun _ => ?_⟩
      · dsimp only
        omega
      · dsimp only
        omega
  | finish it hi hend =>
      have hv := h.head
      refine h.replace rfl rfl ⟨hv.slot_length, hv.level_le, hv.has, by simp, fun _ => ?_⟩
      dsimp only
      omega
  | enter it parents hi hlevel hinside =>
      have hv := h.head
      have hindex := toNat_toUInt32_index hi hv.i_le
      have hle := hv.i_inside hlevel
      have hne : (toUInt32 it.i).toNat ≠ (s.numSlots v it.slot).toNat := by
        intro heq
        exact hinside (UInt32.toNat_inj.mp heq)
      have hlevels := hv.level_le
      refine ⟨⟨?_, ?_, ?_, by simp, fun _ => Int.natCast_nonneg _⟩, ⟨rfl, rfl, hi, ?_⟩, h⟩
      · simp [hv.slot_length]
      · dsimp only
        omega
      · rw [Slots.has_concat_iff, UInt32.lt_iff_toNat_lt]
        refine ⟨hv.has, ?_⟩
        omega
      · omega

theorem Route.slot_eq (h : Route s v var base (it :: parents)) : ∃ q, it.slot = base ++ q := by
  induction parents generalizing it with
  | nil => exact ⟨[], by rw [h.2, List.append_nil]⟩
  | cons parent rest ih =>
      obtain ⟨q, hq⟩ := ih h.2.2
      exact ⟨q ++ [toUInt32 parent.i], by rw [h.2.1.slot, hq, List.append_assoc]⟩

theorem Route.base_length_le (h : Route s v var base (it :: parents)) : base.length ≤ it.level := by
  obtain ⟨q, hq⟩ := h.slot_eq
  rw [← h.head.slot_length, hq, List.length_append]
  omega

theorem Route.copyIndices_take (h : Route s v var base (it :: parents)) {indices : List UInt32}
    (hlen : it.level ≤ indices.length) (hbase : indices.take base.length = base) :
    (copyIndices indices parents).take it.level = it.slot ∧
      (copyIndices indices parents).length = indices.length ∧
      ∀ k, it.level ≤ k → (copyIndices indices parents)[k]? = indices[k]? := by
  induction parents generalizing it indices with
  | nil =>
      refine ⟨?_, rfl, fun _ _ => rfl⟩
      rw [copyIndices, ← h.1.slot_length, h.2, hbase]
  | cons parent rest ih =>
      have hlevel := h.2.1.level
      have hle := h.2.2.base_length_le
      have hbase' : (indices.set parent.level (toUInt32 parent.i)).take base.length = base := by
        rw [List.take_set_of_le hle]
        exact hbase
      obtain ⟨htake, hlength, hbehind⟩ := ih h.2.2 (by rw [List.length_set]; omega) hbase'
      rw [copyIndices]
      refine ⟨?_, hlength.trans List.length_set, fun k hk => ?_⟩
      · rw [hlevel, List.take_add_one, htake, hbehind _ (Nat.le_refl _),
          List.getElem?_set_self (by omega), h.2.1.slot]
        rfl
      · rw [hbehind k (by omega), List.getElem?_set_ne (by omega)]

theorem Route.copyIndices_eq (h : Route s v var base (it :: parents)) (hleaf : it.level = var.level)
    {indices : List UInt32} (hlen : indices.length = var.level)
    (hbase : indices.take base.length = base) : copyIndices indices parents = it.slot := by
  obtain ⟨htake, hlength, -⟩ := h.copyIndices_take (by omega) hbase
  rw [← htake, List.take_of_length_le (by omega)]

theorem Route.congr (hsame : s'.numSlots = s.numSlots)
    (h : Route s v var base iter) : Route s' v var base iter := by
  have hvalid : ∀ {it : SlotIterator}, it.Valid s v var → it.Valid s' v var := by
    intro it hv
    have hhas : s'.has v it.slot = s.has v it.slot :=
      Slots.has_congr (fun q => by rw [hsame]) it.slot
    refine ⟨hv.slot_length, hv.level_le, hhas.trans hv.has, hv.i_le, ?_⟩
    rw [hsame]
    exact hv.i_inside
  induction iter with
  | nil => exact h
  | cons it parents ih =>
      cases parents with
      | nil => exact ⟨hvalid h.1, h.2⟩
      | cons parent rest =>
          refine ⟨hvalid h.1, ⟨h.2.1.slot, h.2.1.level, h.2.1.i_nonneg, ?_⟩, ih h.2.2⟩
          rw [hsame]
          exact h.2.1.i_lt

/-! ### What lies ahead of a slot iterator -/

/-- The leaf `p` lies ahead of the current slot iterator. -/
def SlotIterator.Ahead (var : Var) (it : SlotIterator) (p : List UInt32) : Prop :=
  if it.level = var.level then it.i < 0 ∧ p = it.slot
  else ∃ j q, p = it.slot ++ j :: q ∧ it.i ≤ j.toNat

/-- The leaf `p` lies behind the current entry of a parent iterator. -/
def SlotIterator.Behind (parent : SlotIterator) (p : List UInt32) : Prop :=
  ∃ j q, p = parent.slot ++ j :: q ∧ parent.i < j.toNat

/-- The leaf `p` has still to be visited. -/
def Pending (var : Var) : List SlotIterator → List UInt32 → Prop
  | [], _ => False
  | it :: parents, p => it.Ahead var p ∨ ∃ parent ∈ parents, parent.Behind p

/-- The iterator is not at its end, and the leaf `p` is the current one or has still to be
visited. -/
def Coming (var : Var) (iter : List SlotIterator) (p : List UInt32) : Prop :=
  ∃ it parents, iter = it :: parents ∧ 0 ≤ it.i ∧
    ((it.level = var.level ∧ it.slot = p) ∨ Pending var iter p)

theorem Pending.leave {parent : SlotIterator} {rest : List SlotIterator}
    (hlevel : parent.level ≠ var.level) (h : ∃ f ∈ parent :: rest, f.Behind p) :
    Pending var ({ parent with i := parent.i + 1 } :: rest) p := by
  obtain ⟨f, hf, j, q, hp, hlt⟩ := h
  rcases List.mem_cons.mp hf with rfl | hf
  · refine Or.inl ?_
    rw [SlotIterator.Ahead, if_neg hlevel]
    exact ⟨j, q, hp, by dsimp only; omega⟩
  · exact Or.inr ⟨f, hf, j, q, hp, hlt⟩

theorem Route.not_ahead
    (h : Route s v var base (it :: parents)) (hhas : s.has v p = true) (hi : 0 ≤ it.i)
    (hend : it.level = var.level ∨ toUInt32 it.i = s.numSlots v it.slot) :
    ¬ it.Ahead var p := by
  intro hahead
  unfold SlotIterator.Ahead at hahead
  split at hahead
  · omega
  · next hlevel =>
      obtain ⟨j, q, rfl, hj⟩ := hahead
      have hindex := toNat_toUInt32_index hi h.head.i_le
      rw [hend.resolve_left hlevel] at hindex
      have happ : it.slot ++ j :: q = it.slot ++ [j] ++ q := by simp
      rw [happ] at hhas
      have hlt := ((Slots.has_concat_iff _ _).mp (Slots.has_of_append hhas)).2
      rw [UInt32.lt_iff_toNat_lt] at hlt
      omega

theorem Route.step_coming (h : Route s v var base iter) (hstep : SlotIteratorStep v var s iter iter')
    (hhas : s.has v p = true) (hlen : p.length = var.level) (hp : Pending var iter p) :
    Coming var iter' p := by
  cases hstep with
  | start it parents hi =>
      refine ⟨_, _, rfl, Int.le_refl 0, ?_⟩
      rcases hp with hahead | hbehind
      · unfold SlotIterator.Ahead at hahead
        split at hahead
        · next hlevel => exact Or.inl ⟨hlevel, hahead.2.symm⟩
        · next hlevel =>
            obtain ⟨j, q, hp, -⟩ := hahead
            refine Or.inr (Or.inl ?_)
            rw [SlotIterator.Ahead, if_neg hlevel]
            exact ⟨j, q, hp, Int.natCast_nonneg _⟩
      · exact Or.inr (Or.inr hbehind)
  | leave it parent rest hi hend hmax =>
      have hlevel : parent.level ≠ var.level := by
        have hle := h.head.level_le
        have heq := h.2.1.level
        omega
      have hnonneg := h.2.1.i_nonneg
      refine ⟨_, _, rfl, by dsimp only; omega, Or.inr ?_⟩
      exact Pending.leave hlevel (hp.resolve_left (h.not_ahead hhas hi hend))
  | finish it hi hend =>
      obtain ⟨f, hf, -⟩ := hp.resolve_left (h.not_ahead hhas hi hend)
      exact absurd hf List.not_mem_nil
  | enter it parents hi hlevel hinside =>
      refine ⟨_, _, rfl, Int.le_refl 0, ?_⟩
      rcases hp with hahead | ⟨f, hf, hbehind⟩
      · rw [SlotIterator.Ahead, if_neg hlevel] at hahead
        obtain ⟨j, q, rfl, hj⟩ := hahead
        have hslot := h.head.slot_length
        by_cases hhere : it.i = j.toNat
        · have hj : toUInt32 it.i = j := by
            apply UInt32.toNat_inj.mp
            have hindex := toNat_toUInt32_index hi h.head.i_le
            omega
          rw [List.length_append, List.length_cons] at hlen
          rw [hj]
          cases q with
          | nil => exact Or.inl ⟨by simp at hlen ⊢; omega, rfl⟩
          | cons k q =>
              refine Or.inr (Or.inl ?_)
              rw [List.length_cons] at hlen
              rw [SlotIterator.Ahead, if_neg (by dsimp only; omega)]
              exact ⟨k, q, by simp, Int.natCast_nonneg _⟩
        · exact Or.inr (Or.inr ⟨it, List.mem_cons_self, j, q, rfl, by omega⟩)
      · exact Or.inr (Or.inr ⟨f, List.mem_cons_of_mem it hf, hbehind⟩)

theorem seekLeaf_ok
    (h : Route s v var base iter) (hrun : seekLeaf v var rounds iter s = .ok (iter', s')) :
    s' = s ∧ Route s v var base iter' ∧
      (∀ it parents, iter' = it :: parents → 0 ≤ it.i → it.level = var.level) ∧
      ∀ p, s.has v p = true → p.length = var.level → Pending var iter p → Coming var iter' p := by
  induction rounds generalizing iter with
  | zero => exact (throw_ok_iff.mp hrun).elim
  | succ rounds ih =>
      obtain ⟨iter₁, s₁, hnext, hrun⟩ := bind_ok_iff.mp hrun
      obtain ⟨rfl, hstep⟩ := varSlotIteratorNext_ok hnext
      have hroute := h.step hstep
      have hcoming : ∀ p, s₁.has v p = true → p.length = var.level → Pending var iter p →
          Coming var iter₁ p := fun p hhas hlen hp => h.step_coming hstep hhas hlen hp
      cases iter₁ with
      | nil => exact (throw_ok_iff.mp hrun).elim
      | cons it parents =>
          dsimp only at hrun
          split at hrun
          · next hinner =>
              obtain ⟨hstate, hroute', hleaf, hrest⟩ := ih hroute hrun
              refine ⟨hstate, hroute', hleaf, fun p hhas hlen hp => ?_⟩
              obtain ⟨it', parents', heq, -, hcase⟩ := hcoming p hhas hlen hp
              obtain ⟨rfl, rfl⟩ := List.cons.inj heq
              exact hrest p hhas hlen (hcase.resolve_left fun hhere => hinner.2 hhere.1)
          · next hstop =>
              obtain ⟨rfl, rfl⟩ := pure_ok_iff.mp hrun
              refine ⟨rfl, hroute, fun it' parents' heq hi => ?_, hcoming⟩
              obtain ⟨rfl, rfl⟩ := List.cons.inj heq
              by_contra hlevel
              exact hstop ⟨hi, hlevel⟩

end route

/-! ### What a value iterator reads -/

/-- Reading the instance at `p` returns `r` and leads from a store of `I` to a store of `K`. -/
def ReadBetween (I K : Slots → Prop) (D : Defs) (c : Callees) (v : VarId) (p : List UInt32)
    (r : Option VarValue) : Prop :=
  ∃ u u', I u ∧ K u' ∧ varInstanceReadValue D c ⟨v, p⟩ u = .ok (r, u')

/-- A value iterator below the slot `base` whose instance has all its indices. -/
structure ValueIterator.Valid (s : Slots) (v : VarId) (var : Var) (base : List UInt32)
    (it : ValueIterator) (iter : List SlotIterator) : Prop where
  iter_eq : it.iter = some iter
  route : Route s v var base iter
  indices_length : it.indices.length = var.level
  indices_base : it.indices.take base.length = base

theorem varValueIteratorCreate_valid {s : Slots} {var : Var} {inst : VarInstance} {all : Bool}
    {slot : List UInt32} (hslot : varInstanceGetSlotForReading s var inst = some slot) :
    (varValueIteratorCreate s var inst all).Valid s inst.var var inst.indices
      [⟨slot, inst.indices.length, -1⟩] := by
  obtain ⟨hlen, hhas, rfl⟩ := varInstanceGetSlotForReading_eq_some.mp hslot
  unfold varValueIteratorCreate
  rw [hslot]
  have hvalid : SlotIterator.Valid s inst.var var ⟨inst.indices, inst.indices.length, -1⟩ :=
    ⟨rfl, hlen, hhas, by simp, fun _ => by dsimp only; omega⟩
  refine ⟨rfl, ⟨hvalid, rfl⟩, ?_, ?_⟩
  · simp [hlen]
  · simp

theorem pending_start {var : Var} {base q : List UInt32} (hp : p = base ++ q)
    (hlen : p.length = var.level) : Pending var [⟨base, base.length, -1⟩] p := by
  refine Or.inl ?_
  unfold SlotIterator.Ahead
  split
  · next hlevel =>
      have hq : q = [] := by
        rw [hp, List.length_append] at hlen
        dsimp only at hlevel
        exact List.length_eq_zero_iff.mp (by omega)
      exact ⟨by simp, by rw [hp, hq, List.append_nil]⟩
  · next hlevel =>
      cases q with
      | nil => exact absurd (by rw [← hlen, hp, List.append_nil]) hlevel
      | cons j q => exact ⟨j, q, hp, by dsimp only; omega⟩

theorem seekLeaf_state {v : VarId} {var : Var}
    {s : Slots} (h : seekLeaf v var rounds iter s = .ok (iter', s')) : s' = s := by
  induction rounds generalizing iter with
  | zero => exact (throw_ok_iff.mp h).elim
  | succ rounds ih =>
      obtain ⟨iter₁, s₁, hnext, hrun⟩ := bind_ok_iff.mp h
      obtain ⟨rfl, -⟩ := varSlotIteratorNext_ok hnext
      cases iter₁ with
      | nil => exact (throw_ok_iff.mp hrun).elim
      | cons it parents =>
          dsimp only at hrun
          split at hrun
          · exact ih hrun
          · exact (pure_ok_iff.mp hrun).2.symm

theorem seekValue_steps {D : Defs} {c : Callees} {v : VarId} {var : Var} {R : Slots → Slots → Prop}
    (hrefl : ∀ u, R u u) (htrans : ∀ u u' u'', R u u' → R u' u'' → R u u'')
    (hsteps : ∀ p, Exec.Steps R (varInstanceReadValue D c ⟨v, p⟩)) {it : ValueIterator}
    : Exec.Steps R (seekValue D c v var rounds it iter) := by
  induction rounds generalizing it iter with
  | zero => exact Exec.Steps.throw _
  | succ rounds ih =>
      intro u r u' hrun
      obtain ⟨iter₁, u₁, hseek, hrest⟩ := bind_ok_iff.mp hrun
      obtain rfl := seekLeaf_state hseek
      cases iter₁ with
      | nil => exact (throw_ok_iff.mp hrest).elim
      | cons leaf parents =>
          dsimp only at hrest
          split at hrest
          · obtain ⟨last, u₂, hlast, hrest⟩ := bind_ok_iff.mp hrest
            refine htrans _ _ _ (hsteps _ hlast) ?_
            split at hrest
            · exact ih hrest
            · obtain ⟨-, rfl⟩ := pure_ok_iff.mp hrest
              exact hrefl _
          · obtain ⟨-, rfl⟩ := pure_ok_iff.mp hrest
            exact hrefl _

section values

variable {D : Defs} {c : Callees} {s : Slots} {v : VarId} {var : Var} {base : List UInt32}
  {I K : Slots → Prop} (hI : ∀ u, I u → u.numSlots = s.numSlots)
  (hback : ∀ p, Exec.Steps (fun u u' => K u' → K u) (varInstanceReadValue D c ⟨v, p⟩))
  (hread : ∀ p u r u', s.has v p = true → p.length = var.level → I u → K u' →
    varInstanceReadValue D c ⟨v, p⟩ u = .ok (r, u') → I u')

include hI hback hread

/-- A value iterator leaves nothing out: a leaf that has still to be visited is passed over
after it has been read, is the one whose value is returned, or has still to be visited. -/
theorem seekValue_visits {it it' : ValueIterator}
    {more : Bool} {u u' : Slots} (hit : it.Valid s v var base iter) (hu : I u) (hk : K u')
    (hrun : seekValue D c v var rounds it iter u = .ok ((more, it'), u')) :
    I u' ∧ it'.all = it.all ∧ (more = true → it'.last.isSome = true) ∧
      ∃ iter', it'.Valid s v var base iter' ∧
      ∀ p, s.has v p = true → p.length = var.level → Pending var iter p →
        (∃ r, ReadBetween I K D c v p r ∧ ValueIterator.skips it.all r = true) ∨
          more = true ∧ (ReadBetween I K D c v p it'.last ∨ Pending var iter' p) := by
  induction rounds generalizing it iter u with
  | zero => exact (throw_ok_iff.mp hrun).elim
  | succ rounds ih =>
      rw [seekValue] at hrun
      obtain ⟨iter₁, u₁, hseek, hrest⟩ := bind_ok_iff.mp hrun
      have hsame : s.numSlots = u.numSlots := (hI u hu).symm
      obtain ⟨rfl, hroute, hleaf, hcoming⟩ :=
        seekLeaf_ok (hit.route.congr (hI u hu)) hseek
      have hroute : Route s v var base iter₁ := hroute.congr hsame
      have hhas : ∀ p, u₁.has v p = s.has v p := fun p =>
        Slots.has_congr (fun q => by rw [hsame]) p
      cases iter₁ with
      | nil => exact (throw_ok_iff.mp hrest).elim
      | cons leaf parents =>
          dsimp only at hrest
          split at hrest
          · next hi =>
              obtain ⟨last, u₂, hlast, hrest⟩ := bind_ok_iff.mp hrest
              have hlevel := hleaf leaf parents rfl hi
              have hindices : copyIndices it.indices parents = leaf.slot :=
                hroute.copyIndices_eq hlevel hit.indices_length hit.indices_base
              rw [hindices] at hlast hrest
              have hlength : leaf.slot.length = var.level :=
                hroute.head.slot_length.trans hlevel
              have hk₂ : K u₂ := by
                split at hrest
                · exact seekValue_steps (R := fun u u' => K u' → K u) (fun _ => id) (fun _ _ _ h h' => h ∘ h')
                    hback hrest hk
                · obtain ⟨-, rfl⟩ := pure_ok_iff.mp hrest
                  exact hk
              have hu₂ : I u₂ := hread _ _ _ _ hroute.head.has hlength hu hk₂ hlast
              obtain ⟨q, hq⟩ := hroute.slot_eq
              have hvalid : ValueIterator.Valid s v var base
                  ⟨leaf.slot, some (leaf :: parents), last, it.all⟩ (leaf :: parents) :=
                ⟨rfl, hroute, hlength, by rw [hq, List.take_left]⟩
              have hhere : ∀ p, leaf.slot = p → ReadBetween I K D c v p last := by
                rintro p rfl
                exact ⟨u₁, u₂, hu, hk₂, hlast⟩
              have hcases : ∀ p, s.has v p = true → p.length = var.level → Pending var iter p →
                  leaf.slot = p ∨ Pending var (leaf :: parents) p := by
                intro p hp hlen hpending
                obtain ⟨it₁, parents₁, heq, -, hcase⟩ :=
                  hcoming p ((hhas p).trans hp) hlen hpending
                obtain ⟨rfl, rfl⟩ := List.cons.inj heq
                exact hcase.imp And.right id
              split at hrest
              · next hskip =>
                  obtain ⟨hu', hall, hsome, iter', hvalid', hvisit⟩ := ih hvalid hu₂ hrest
                  refine ⟨hu', hall, hsome, iter', hvalid', fun p hp hlen hpending => ?_⟩
                  rcases hcases p hp hlen hpending with hleafHere | hlater
                  · exact Or.inl ⟨last, hhere p hleafHere, hskip⟩
                  · exact hvisit p hp hlen hlater
              · next hkeep =>
                  obtain ⟨hpair, rfl⟩ := pure_ok_iff.mp hrest
                  obtain ⟨rfl, rfl⟩ := Prod.mk.inj hpair
                  refine ⟨hu₂, rfl, fun _ => ?_, _, hvalid, fun p hp hlen hpending => ?_⟩
                  · cases last with
                    | none => exact absurd rfl hkeep
                    | some value => rfl
                  · exact Or.inr ⟨rfl, (hcases p hp hlen hpending).imp (hhere p) id⟩
          · next hi =>
              obtain ⟨hpair, rfl⟩ := pure_ok_iff.mp hrest
              obtain ⟨rfl, rfl⟩ := Prod.mk.inj hpair
              refine ⟨hu, rfl, fun h => (nomatch h), _,
                ⟨rfl, hroute, hit.indices_length, hit.indices_base⟩, fun p hp hlen hpending => ?_⟩
              -- the iterator is at its end, where nothing is pending
              obtain ⟨it₁, parents₁, heq, hnonneg, -⟩ :=
                hcoming p ((hhas p).trans hp) hlen hpending
              obtain ⟨rfl, rfl⟩ := List.cons.inj heq
              exact absurd hnonneg hi

end values

end Mkfli4l
