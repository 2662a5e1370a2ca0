import Mkfli4l.Lib.TreeWalk
import Mkfli4l.Expression.Evaluate
import Mkfli4l.Var.Iterator
import Mkfli4l.Var.Runs

/-!
# The order in which values are iterated over

A slot iterator makes the walk around the tree of slots below the slot at which it starts: its frames are the
slots that have been entered and not yet left (`agenda`).  So a value iterator delivers each
instance below its prefix once and in lexicographic order, and then it is back where it has started.

The position in an array is an `int`, while `num_slots` is `unsigned`.  An array with more than `INT_MAX`
entries is never left (`valueIteration_exact_iff`).
-/

namespace Mkfli4l

open Lib Exec

/-! ### What is delivered -/

def varValueIteratorGetVarIndices (it : ValueIterator) : Option (List UInt32) :=
  match it.iter with
  | some (leaf :: _) => if 0 ≤ leaf.i then some it.indices else none
  | _ => none

def varValueIteratorGet (it : ValueIterator) : Option VarValue := it.last

/-- The slot at which an iterator stays. -/
def ValueIterator.slot (it : ValueIterator) : Option (List UInt32) :=
  match it.iter with
  | some (leaf :: _) => some leaf.slot
  | _ => none

/-- What an iterator delivers: the indices that it reports, the slot that it has read, and the value. -/
structure Delivery where
  indices : Option (List UInt32)
  slot : Option (List UInt32)
  value : Option VarValue

def ValueIterator.delivery (it : ValueIterator) : Delivery :=
  ⟨varValueIteratorGetVarIndices it, it.slot, varValueIteratorGet it⟩

/-- Call `var_value_iterator_next` until it returns FALSE. -/
def valuePass (D : Defs) (c : Callees) (v : VarId) (var : Var) (rounds : ℕ) :
    ℕ → ValueIterator → SlotExec (List Delivery × ValueIterator)
  | 0, _ => throw .roundsExhausted
  | calls + 1, it => do
      let (more, it) ← varValueIteratorNext D c v var rounds it
      if more then do
        let (rest, last) ← valuePass D c v var rounds calls it
        pure (it.delivery :: rest, last)
      else pure ([], it)

/-- Do this several times in succession. -/
def valuePasses (D : Defs) (c : Callees) (v : VarId) (var : Var) (rounds : ℕ) :
    ℕ → ValueIterator → SlotExec (List (List Delivery) × ValueIterator)
  | 0, it => pure ([], it)
  | passes + 1, it => do
      let (deliveries, it) ← valuePass D c v var rounds rounds it
      let (rest, last) ← valuePasses D c v var rounds passes it
      pure (deliveries :: rest, last)

/-! ### The walk of a slot iterator -/

section walks

variable (s : Slots) (v : VarId) (var : Var)

/-- What is left of the walk below a slot, from an entry of the slot on. -/
def SlotIterator.movesFrom (it : SlotIterator) (i : ℕ) : List WalkMove :=
  walkFrom (s.numSlots v) (var.level - it.level) it.slot i

/-- What is left of the walk of a slot iterator. -/
def agenda : List SlotIterator → List WalkMove
  | [] => []
  | it :: parents =>
      (if it.i < 0 then .enter it.slot :: it.movesFrom s v var 0
        else it.movesFrom s v var it.i.toNat) ++
        parents.flatMap fun parent => parent.movesFrom s v var (parent.i.toNat + 1)

/-- Can the slot be left, so that its position has not passed the largest `int`? -/
def Leavable : WalkMove → Prop
  | .enter _ => True
  | .leave p => p.length < var.level → (s.numSlots v p).toNat ≤ 2147483647

/-- What a step contributes to the walk. -/
inductive AgendaStep (base : List UInt32) : List SlotIterator → List SlotIterator → Prop
  | enter (iter : List SlotIterator) (it : SlotIterator) (parents : List SlotIterator)
      (hi : 0 ≤ it.i)
      (hagenda : agenda s v var iter = .enter it.slot :: agenda s v var (it :: parents)) :
      AgendaStep base iter (it :: parents)
  | leave (iter : List SlotIterator) (p : List UInt32) (it : SlotIterator)
      (parents : List SlotIterator) (hi : 0 ≤ it.i) (hlevel : it.level ≠ var.level)
      (hleavable : Leavable s v var (.leave p))
      (hagenda : agenda s v var iter = .leave p :: agenda s v var (it :: parents)) :
      AgendaStep base iter (it :: parents)
  | finish (iter : List SlotIterator) (hleavable : Leavable s v var (.leave base))
      (hagenda : agenda s v var iter = [.leave base]) :
      AgendaStep base iter [⟨base, base.length, -1⟩]

end walks

variable {iter iter' : List SlotIterator} {rounds : ℕ} {p : List UInt32}

section walks

variable {s : Slots} {v : VarId} {var : Var} {base : List UInt32}

theorem Route.movesFrom_of_end {it : SlotIterator} {parents : List SlotIterator}
    (h : Route s v var base (it :: parents)) (hi : 0 ≤ it.i)
    (hend : it.level = var.level ∨ toUInt32 it.i = s.numSlots v it.slot) :
    it.movesFrom s v var it.i.toNat = [.leave it.slot] ∧ Leavable s v var (.leave it.slot) := by
  have hslot := h.head.slot_length
  have hle := h.head.level_le
  unfold SlotIterator.movesFrom
  by_cases hlevel : it.level = var.level
  · rw [hlevel, Nat.sub_self]
    refine ⟨rfl, fun hlt => ?_⟩
    omega
  · have hindex := toNat_toUInt32_index hi h.head.i_le
    rw [hend.resolve_left hlevel] at hindex
    have hmax := h.head.i_le
    obtain ⟨k, hk⟩ : ∃ k, var.level - it.level = k + 1 := ⟨var.level - it.level - 1, by omega⟩
    rw [hk]
    refine ⟨walkFrom_of_le (by omega), fun _ => ?_⟩
    omega

theorem Route.agendaStep (h : Route s v var base iter)
    (hstep : SlotIteratorStep v var s iter iter') : AgendaStep s v var base iter iter' := by
  cases hstep with
  | start it parents hi =>
      refine .enter _ _ _ (Int.le_refl 0) ?_
      show agenda s v var (it :: parents) = .enter it.slot :: agenda s v var _
      rw [agenda, if_pos hi, agenda, if_neg (by simp)]
      rfl
  | leave it parent rest hi hend hmax =>
      obtain ⟨hmoves, hleavable⟩ := h.movesFrom_of_end hi hend
      have hnonneg := h.2.1.i_nonneg
      have hlevel := h.2.1.level
      have hle := h.head.level_le
      refine .leave _ it.slot _ _ (by dsimp only; omega) (by dsimp only; omega) hleavable ?_
      have hnext : (parent.i + 1).toNat = parent.i.toNat + 1 := by omega
      rw [agenda, if_neg (by omega), hmoves, List.flatMap_cons, agenda, if_neg (by dsimp only; omega)]
      dsimp only
      rw [hnext]
      rfl
  | finish it hi hend =>
      obtain ⟨hmoves, hleavable⟩ := h.movesFrom_of_end hi hend
      obtain ⟨hvalid, hbase⟩ := h
      have hlength := hvalid.slot_length
      obtain ⟨slot, level, i⟩ := it
      dsimp only at *
      subst hbase
      subst hlength
      refine .finish _ hleavable ?_
      rw [agenda, if_neg (by dsimp only; omega), hmoves]
      rfl
  | enter it parents hi hlevel hinside =>
      have hle := h.head.level_le
      have hindex := toNat_toUInt32_index hi h.head.i_le
      have hwidth := h.head.i_inside hlevel
      have hne : (toUInt32 it.i).toNat ≠ (s.numSlots v it.slot).toNat := by
        intro heq
        exact hinside (UInt32.toNat_inj.mp heq)
      obtain ⟨k, hk⟩ : ∃ k, var.level - it.level = k + 1 := ⟨var.level - it.level - 1, by omega⟩
      have hchild : var.level - (it.level + 1) = k := by omega
      have hofNat : UInt32.ofNat it.i.toNat = toUInt32 it.i := by
        apply UInt32.toNat_inj.mp
        rw [UInt32.toNat_ofNat_of_lt' (Nat.lt_of_le_of_lt (by omega) (toUInt32 it.i).toNat_lt_size)]
        omega
      refine .enter _ _ _ (Int.le_refl 0) ?_
      have hmoves : it.movesFrom s v var it.i.toNat =
          walk (s.numSlots v) k (it.slot ++ [toUInt32 it.i]) ++
            it.movesFrom s v var (it.i.toNat + 1) := by
        unfold SlotIterator.movesFrom
        rw [hk, walkFrom_of_lt (by omega), hofNat]
      rw [agenda, if_neg (by omega), hmoves, walk_eq, agenda, if_neg (by simp), List.flatMap_cons,
        List.append_assoc]
      simp only [SlotIterator.movesFrom, hchild]
      rfl

theorem Route.next_total (h : Route s v var base iter)
    (hleavable : ∀ move ∈ agenda s v var iter, Leavable s v var move) :
    ∃ iter', varSlotIteratorNext v var iter s = .ok (iter', s) := by
  cases iter with
  | nil => exact h.elim
  | cons it parents =>
      by_cases hi : it.i < 0
      · exact ⟨_, by rw [varSlotIteratorNext, if_pos hi]; rfl⟩
      · have hexhausted : ∃ b, it.exhausted v var s = .ok (b, s) := by
          unfold SlotIterator.exhausted
          split
          · exact ⟨_, rfl⟩
          · exact ⟨_, bind_ok_iff.mpr ⟨(), s, derefSlot_ok_iff.mpr ⟨h.head.has, rfl⟩, rfl⟩⟩
        obtain ⟨b, hb⟩ := hexhausted
        rw [varSlotIteratorNext, if_neg hi, bind_of_ok hb]
        cases b with
        | false => exact ⟨_, rfl⟩
        | true =>
            cases parents with
            | nil => exact ⟨_, rfl⟩
            | cons parent rest =>
                -- the parent has been entered and will have to be left
                have hinside := h.2.1.i_lt
                have hlevel := h.2.1.level
                have hle := h.head.level_le
                have hslot := h.2.2.head.slot_length
                have hmem : WalkMove.leave parent.slot ∈ agenda s v var (it :: parent :: rest) := by
                  rw [agenda, List.flatMap_cons]
                  refine List.mem_append_right _ (List.mem_append_left _ ?_)
                  exact leave_mem_walkFrom _ _ _
                have hmax := hleavable _ hmem (by omega)
                have hincrement : incrementIndex parent.i s = .ok (parent.i + 1, s) := by
                  unfold incrementIndex
                  rw [if_neg (by omega)]
                  rfl
                exact ⟨_, bind_of_ok hincrement⟩

/-- Seeking the next leaf makes the moves up to the one that enters it, or all moves. -/
theorem seekLeaf_moves {s' : Slots}
    (h : Route s v var base iter) (hrun : seekLeaf v var rounds iter s = .ok (iter', s')) :
    ∃ past, (∀ move ∈ past, move.leaf var.level = none ∧ Leavable s v var move) ∧
      ((∃ leaf parents, iter' = leaf :: parents ∧ 0 ≤ leaf.i ∧ leaf.level = var.level ∧
        agenda s v var iter = past ++ .enter leaf.slot :: agenda s v var iter') ∨
      iter' = [⟨base, base.length, -1⟩] ∧ agenda s v var iter = past) := by
  induction rounds generalizing iter with
  | zero => exact (throw_ok_iff.mp hrun).elim
  | succ rounds ih =>
      obtain ⟨iter₁, s₁, hnext, hrun⟩ := bind_ok_iff.mp hrun
      obtain ⟨rfl, hstep⟩ := varSlotIteratorNext_ok hnext
      have hroute := h.step hstep
      cases h.agendaStep hstep with
      | enter it parents hi hagenda =>
          dsimp only at hrun
          split at hrun
          · next hinner =>
              obtain ⟨past, hpast, hcases⟩ := ih hroute hrun
              have hlength := hroute.head.slot_length
              refine ⟨.enter it.slot :: past, ?_, ?_⟩
              · intro move hmove
                rcases List.mem_cons.mp hmove with rfl | hmove
                · refine ⟨?_, trivial⟩
                  rw [WalkMove.leaf, if_neg (by omega)]
                · exact hpast move hmove
              · rw [hagenda]
                rcases hcases with ⟨leaf, parents', hiter, hi', hlevel, heq⟩ | ⟨hiter, heq⟩
                · exact Or.inl ⟨leaf, parents', hiter, hi', hlevel, by rw [heq]; rfl⟩
                · exact Or.inr ⟨hiter, by rw [heq]⟩
          · next hstop =>
              obtain ⟨rfl, rfl⟩ := pure_ok_iff.mp hrun
              refine ⟨[], fun _ hmem => absurd hmem List.not_mem_nil, Or.inl ⟨it, parents, rfl, hi, ?_,
                hagenda⟩⟩
              by_contra hlevel
              exact hstop ⟨hi, hlevel⟩
      | leave p it parents hi hlevel hleavable hagenda =>
          dsimp only at hrun
          rw [if_pos ⟨hi, hlevel⟩] at hrun
          obtain ⟨past, hpast, hcases⟩ := ih hroute hrun
          refine ⟨.leave p :: past, ?_, ?_⟩
          · intro move hmove
            rcases List.mem_cons.mp hmove with rfl | hmove
            · exact ⟨rfl, hleavable⟩
            · exact hpast move hmove
          · rw [hagenda]
            rcases hcases with ⟨leaf, parents', hiter, hi', hlevel', heq⟩ | ⟨hiter, heq⟩
            · exact Or.inl ⟨leaf, parents', hiter, hi', hlevel', by rw [heq]; rfl⟩
            · exact Or.inr ⟨hiter, by rw [heq]⟩
      | finish hleavable hagenda =>
          dsimp only at hrun
          rw [if_neg (by simp)] at hrun
          obtain ⟨rfl, rfl⟩ := pure_ok_iff.mp hrun
          refine ⟨[.leave base], ?_, Or.inr ⟨rfl, hagenda⟩⟩
          intro move hmove
          obtain rfl := List.mem_singleton.mp hmove
          exact ⟨rfl, hleavable⟩

theorem Route.seekLeaf_total (h : Route s v var base iter)
    (hleavable : ∀ move ∈ agenda s v var iter, Leavable s v var move)
    (hrounds : (agenda s v var iter).length ≤ rounds) :
    ∃ iter', seekLeaf v var rounds iter s = .ok (iter', s) := by
  induction rounds generalizing iter with
  | zero =>
      exfalso
      obtain ⟨iter', hnext⟩ := h.next_total hleavable
      have hnil := List.length_eq_zero_iff.mp (Nat.le_zero.mp hrounds)
      cases h.agendaStep (varSlotIteratorNext_ok hnext).2 with
      | enter _ _ _ hagenda => simp [hnil] at hagenda
      | leave _ _ _ _ _ _ hagenda => simp [hnil] at hagenda
      | finish _ hagenda => simp [hnil] at hagenda
  | succ rounds ih =>
      obtain ⟨iter', hnext⟩ := h.next_total hleavable
      have hstep := (varSlotIteratorNext_ok hnext).2
      have hroute := h.step hstep
      rw [seekLeaf, bind_of_ok hnext]
      cases h.agendaStep hstep with
      | enter it parents hi hagenda =>
          rw [hagenda] at hleavable hrounds
          dsimp only
          split
          · exact ih hroute (fun move hmove => hleavable move (List.mem_cons_of_mem _ hmove))
              (Nat.le_of_succ_le_succ hrounds)
          · exact ⟨_, rfl⟩
      | leave p it parents hi hlevel _ hagenda =>
          rw [hagenda] at hleavable hrounds
          dsimp only
          rw [if_pos ⟨hi, hlevel⟩]
          exact ih hroute (fun move hmove => hleavable move (List.mem_cons_of_mem _ hmove))
            (Nat.le_of_succ_le_succ hrounds)
      | finish _ _ => exact ⟨_, rfl⟩

end walks

/-! ### One pass -/

/-- The store is not changed: its states are those of `I`, in which the arrays are the same and an instance
is always read with the same result. -/
structure StoreUnchanged (I : Slots → Prop) (D : Defs) (c : Callees) (s : Slots) (v : VarId) (var : Var)
    (base : List UInt32) (r : List UInt32 → Option VarValue) : Prop where
  start : I s
  numSlots_eq : ∀ u, I u → u.numSlots = s.numSlots
  read : ∀ p u, base <+: p → p.length = var.level → s.has v p = true → I u →
    ∃ u', varInstanceReadValue D c ⟨v, p⟩ u = .ok (r p, u') ∧ I u'

/-- What is delivered for an instance that is read with some result. -/
def Delivery.of (r : List UInt32 → Option VarValue) (p : List UInt32) : Delivery :=
  ⟨some p, some p, r p⟩

/-- What is delivered on a walk. -/
def deliveries (all : Bool) (r : List UInt32 → Option VarValue) (level : ℕ) (moves : List WalkMove) :
    List Delivery :=
  ((leaves level moves).filter fun p => !ValueIterator.skips all (r p)).map (Delivery.of r)

theorem deliveries_append (all : Bool) (r : List UInt32 → Option VarValue) (level : ℕ)
    (moves moves' : List WalkMove) : deliveries all r level (moves ++ moves') =
      deliveries all r level moves ++ deliveries all r level moves' := by
  unfold deliveries leaves
  rw [List.filterMap_append, List.filter_append, List.map_append]

theorem deliveries_enter {all : Bool} {r : List UInt32 → Option VarValue} {level : ℕ}
    (hlength : p.length = level) : deliveries all r level [.enter p] =
      if ValueIterator.skips all (r p) = true then [] else [Delivery.of r p] := by
  have hleaf : leaves level [.enter p] = [p] := by
    simp [leaves, WalkMove.leaf, hlength]
  unfold deliveries
  rw [hleaf]
  cases hskips : ValueIterator.skips all (r p) <;> simp [hskips]

theorem deliveries_of_no_leaf {all : Bool} {r : List UInt32 → Option VarValue} {level : ℕ}
    {moves : List WalkMove} (h : ∀ move ∈ moves, move.leaf level = none) :
    deliveries all r level moves = [] := by
  have hleaves : leaves level moves = [] := by
    unfold leaves
    rw [List.filterMap_eq_nil_iff]
    exact h
  unfold deliveries
  rw [hleaves]
  rfl

section passes

variable {I : Slots → Prop} {D : Defs} {c : Callees} {s u u' : Slots} {v : VarId} {var : Var}
  {base : List UInt32} {r : List UInt32 → Option VarValue}

/-- A value iterator is at its start or its end. -/
def ValueIterator.AtRoot (s : Slots) (v : VarId) (var : Var) (base : List UInt32) (it : ValueIterator) :
    Prop :=
  it.Valid s v var base [⟨base, base.length, -1⟩]

theorem agenda_congr (h : u.numSlots = s.numSlots) (iter : List SlotIterator) :
    agenda u v var iter = agenda s v var iter := by
  unfold agenda SlotIterator.movesFrom
  rw [h]

theorem leavable_congr (h : u.numSlots = s.numSlots) (move : WalkMove) :
    Leavable u v var move ↔ Leavable s v var move := by
  unfold Leavable
  rw [h]

variable {it : ValueIterator}

theorem seekLeaf_read (hread : StoreUnchanged I D c s v var base r)
    (hit : it.Valid s v var base iter) (hu : I u)
    (hseek : seekLeaf v var rounds iter u = .ok (iter', u')) :
    u' = u ∧ ∃ past, (∀ move ∈ past, Leavable s v var move) ∧
      deliveries it.all r var.level past = [] ∧
      ((∃ leaf parents, iter' = leaf :: parents ∧ 0 ≤ leaf.i ∧ leaf.slot.length = var.level ∧
        copyIndices it.indices parents = leaf.slot ∧
        (∃ u₂, varInstanceReadValue D c ⟨v, leaf.slot⟩ u = .ok (r leaf.slot, u₂) ∧ I u₂) ∧
        ValueIterator.Valid s v var base ⟨leaf.slot, some (leaf :: parents), r leaf.slot, it.all⟩
          (leaf :: parents) ∧
        agenda s v var iter = past ++ .enter leaf.slot :: agenda s v var (leaf :: parents)) ∨
      iter' = [⟨base, base.length, -1⟩] ∧
        ValueIterator.AtRoot s v var base ⟨it.indices, some iter', none, it.all⟩ ∧
        agenda s v var iter = past) := by
  have hsame := hread.numSlots_eq u hu
  obtain ⟨rfl, hroute, -, -⟩ := seekLeaf_ok (hit.route.congr hsame) hseek
  obtain ⟨past, hpast, hcases⟩ := seekLeaf_moves (hit.route.congr hsame) hseek
  have hroute := hroute.congr hsame.symm
  refine ⟨rfl, past, ?_, ?_, ?_⟩
  · intro move hmove
    exact (leavable_congr hsame move).mp (hpast move hmove).2
  · exact deliveries_of_no_leaf fun move hmove => (hpast move hmove).1
  · rw [agenda_congr hsame, agenda_congr hsame] at hcases
    rcases hcases with ⟨leaf, parents, rfl, hi, hlevel, hagenda⟩ | ⟨rfl, hagenda⟩
    · have hlength : leaf.slot.length = var.level := hroute.head.slot_length.trans hlevel
      obtain ⟨q, hq⟩ := hroute.slot_eq
      exact Or.inl ⟨leaf, parents, rfl, hi, hlength,
        hroute.copyIndices_eq hlevel hit.indices_length hit.indices_base,
        hread.read leaf.slot u' ⟨q, hq.symm⟩ hlength hroute.head.has hu,
        ⟨rfl, hroute, hlength, by rw [hq, List.take_left]⟩, hagenda⟩
    · exact Or.inr ⟨rfl, ⟨rfl, hroute, hit.indices_length, hit.indices_base⟩, hagenda⟩

/-- `var_value_iterator_next` makes the moves up to the leaf that it delivers, or all moves. -/
theorem seekValue_moves (hread : StoreUnchanged I D c s v var base r) {it' : ValueIterator}
    {more : Bool} (hit : it.Valid s v var base iter) (hu : I u)
    (hrun : seekValue D c v var rounds it iter u = .ok ((more, it'), u')) :
    I u' ∧ it'.all = it.all ∧ ∃ past, (∀ move ∈ past, Leavable s v var move) ∧
      deliveries it.all r var.level past = [] ∧
      ((more = true ∧ ∃ p iter', it'.Valid s v var base iter' ∧ it'.delivery = Delivery.of r p ∧
        deliveries it.all r var.level [.enter p] = [Delivery.of r p] ∧
        agenda s v var iter = past ++ .enter p :: agenda s v var iter') ∨
      more = false ∧ it'.AtRoot s v var base ∧ agenda s v var iter = past) := by
  induction rounds generalizing it iter u with
  | zero => exact (throw_ok_iff.mp hrun).elim
  | succ rounds ih =>
      rw [seekValue] at hrun
      obtain ⟨iter₁, u₁, hseek, hrest⟩ := bind_ok_iff.mp hrun
      obtain ⟨rfl, past, hleavable, hnothing, hcases⟩ := seekLeaf_read hread hit hu hseek
      rcases hcases with ⟨leaf, parents, rfl, hi, hlength, hindices, ⟨u₂, hlast, hu₂⟩, hvalid, hagenda⟩ |
        ⟨rfl, hroot, hagenda⟩
      · dsimp only at hrest
        rw [if_pos hi, hindices, bind_of_ok hlast] at hrest
        have henter : deliveries it.all r var.level [.enter leaf.slot] = _ := deliveries_enter hlength
        split at hrest
        · next hskip =>
            rw [if_pos hskip] at henter
            obtain ⟨hu', hall, past', hleavable', hnothing', hcases⟩ := ih hvalid hu₂ hrest
            refine ⟨hu', hall, past ++ [.enter leaf.slot] ++ past', ?_, ?_, ?_⟩
            · intro move hmove
              rcases List.mem_append.mp hmove with hmove | hmove
              · rcases List.mem_append.mp hmove with hmove | hmove
                · exact hleavable move hmove
                · obtain rfl := List.mem_singleton.mp hmove
                  trivial
              · exact hleavable' move hmove
            · rw [deliveries_append, deliveries_append, hnothing, henter, hnothing']
              rfl
            · rw [hagenda]
              rcases hcases with ⟨hmore, p, iter', hit', hp, hone, heq⟩ | ⟨hmore, hroot, heq⟩
              · exact Or.inl ⟨hmore, p, iter', hit', hp, hone, by rw [heq]; simp⟩
              · exact Or.inr ⟨hmore, hroot, by rw [heq]; simp⟩
        · next hkeep =>
            rw [if_neg hkeep] at henter
            obtain ⟨hpair, rfl⟩ := pure_ok_iff.mp hrest
            obtain ⟨rfl, rfl⟩ := Prod.mk.inj hpair
            refine ⟨hu₂, rfl, past, hleavable, hnothing, Or.inl ⟨rfl, leaf.slot, _, hvalid, ?_, henter,
              hagenda⟩⟩
            unfold ValueIterator.delivery varValueIteratorGetVarIndices Delivery.of
            rw [hvalid.iter_eq]
            dsimp only
            rw [if_pos hi]
            rfl
      · dsimp only at hrest
        rw [if_neg (by simp)] at hrest
        obtain ⟨hpair, rfl⟩ := pure_ok_iff.mp hrest
        obtain ⟨rfl, rfl⟩ := Prod.mk.inj hpair
        exact ⟨hu, rfl, past, hleavable, hnothing, Or.inr ⟨rfl, hroot, hagenda⟩⟩

theorem valuePass_moves (hread : StoreUnchanged I D c s v var base r) {calls : ℕ}
    {it' : ValueIterator} {L : List Delivery} (hit : it.Valid s v var base iter) (hu : I u)
    (hrun : valuePass D c v var rounds calls it u = .ok ((L, it'), u')) :
    I u' ∧ it'.all = it.all ∧ it'.AtRoot s v var base ∧
      L = deliveries it.all r var.level (agenda s v var iter) ∧
      ∀ move ∈ agenda s v var iter, Leavable s v var move := by
  induction calls generalizing it iter u L with
  | zero => exact (throw_ok_iff.mp hrun).elim
  | succ calls ih =>
      rw [valuePass] at hrun
      obtain ⟨⟨more, it₁⟩, u₁, hnext, hrest⟩ := bind_ok_iff.mp hrun
      rw [varValueIteratorNext, hit.iter_eq] at hnext
      obtain ⟨hu₁, hall, past, hleavable, hnothing, hcases⟩ := seekValue_moves hread hit hu hnext
      rcases hcases with ⟨rfl, p, iter₁, hit₁, hp, hone, hagenda⟩ | ⟨rfl, hroot, hagenda⟩
      · dsimp only at hrest
        rw [if_pos rfl] at hrest
        obtain ⟨⟨rest, last⟩, u₂, hrun', hrest⟩ := bind_ok_iff.mp hrest
        obtain ⟨hpair, rfl⟩ := pure_ok_iff.mp hrest
        obtain ⟨rfl, rfl⟩ := Prod.mk.inj hpair
        obtain ⟨hu', hall', hroot, hL, hleavable'⟩ := ih hit₁ hu₁ hrun'
        have hsplit : past ++ .enter p :: agenda s v var iter₁ =
            past ++ [.enter p] ++ agenda s v var iter₁ := by simp
        refine ⟨hu', hall'.trans hall, hroot, ?_, ?_⟩
        · rw [hagenda, hsplit, deliveries_append, deliveries_append, hnothing, hone, hp, hL, hall]
          rfl
        · rw [hagenda]
          intro move hmove
          rcases List.mem_append.mp hmove with hmove | hmove
          · exact hleavable move hmove
          · rcases List.mem_cons.mp hmove with rfl | hmove
            · trivial
            · exact hleavable' move hmove
      · dsimp only at hrest
        rw [if_neg Bool.false_ne_true] at hrest
        obtain ⟨hpair, rfl⟩ := pure_ok_iff.mp hrest
        obtain ⟨rfl, rfl⟩ := Prod.mk.inj hpair
        rw [hagenda]
        exact ⟨hu₁, hall, hroot, hnothing.symm, hleavable⟩

theorem seekValue_total (hread : StoreUnchanged I D c s v var base r)
    (hit : it.Valid s v var base iter) (hu : I u)
    (hleavable : ∀ move ∈ agenda s v var iter, Leavable s v var move)
    (hrounds : (agenda s v var iter).length < rounds) :
    ∃ more it' u', seekValue D c v var rounds it iter u = .ok ((more, it'), u') := by
  induction rounds generalizing it iter u with
  | zero => exact absurd hrounds (Nat.not_lt_zero _)
  | succ rounds ih =>
      have hsame := hread.numSlots_eq u hu
      obtain ⟨iter₁, hseek⟩ : ∃ iter₁, seekLeaf v var (rounds + 1) iter u = .ok (iter₁, u) := by
        apply (hit.route.congr hsame).seekLeaf_total
        · rw [agenda_congr hsame]
          exact fun move hmove => (leavable_congr hsame move).mpr (hleavable move hmove)
        · rw [agenda_congr hsame]
          omega
      obtain ⟨-, past, -, -, hcases⟩ := seekLeaf_read hread hit hu hseek
      rw [seekValue, bind_of_ok hseek]
      rcases hcases with ⟨leaf, parents, rfl, hi, -, hindices, ⟨u₂, hlast, hu₂⟩, hvalid, hagenda⟩ |
        ⟨rfl, -, -⟩
      · dsimp only
        rw [if_pos hi, hindices, bind_of_ok hlast]
        split
        · rw [hagenda] at hleavable hrounds
          rw [List.length_append, List.length_cons] at hrounds
          refine ih hvalid hu₂ ?_ (by omega)
          intro move hmove
          exact hleavable move (List.mem_append_right _ (List.mem_cons_of_mem _ hmove))
        · exact ⟨_, _, _, rfl⟩
      · dsimp only
        rw [if_neg (by simp)]
        exact ⟨_, _, _, rfl⟩

theorem valuePass_total (hread : StoreUnchanged I D c s v var base r) {calls : ℕ}
    (hit : it.Valid s v var base iter) (hu : I u)
    (hleavable : ∀ move ∈ agenda s v var iter, Leavable s v var move)
    (hrounds : (agenda s v var iter).length < rounds) (hcalls : (agenda s v var iter).length < calls) :
    ∃ L it' u', valuePass D c v var rounds calls it u = .ok ((L, it'), u') := by
  induction calls generalizing it iter u with
  | zero => exact absurd hcalls (Nat.not_lt_zero _)
  | succ calls ih =>
      obtain ⟨more, it₁, u₁, hseek⟩ := seekValue_total hread hit hu hleavable hrounds
      obtain ⟨hu₁, -, past, -, -, hcases⟩ := seekValue_moves hread hit hu hseek
      have hnext : varValueIteratorNext D c v var rounds it u = .ok ((more, it₁), u₁) := by
        rw [varValueIteratorNext, hit.iter_eq]
        exact hseek
      rw [valuePass, bind_of_ok hnext]
      rcases hcases with ⟨rfl, p, iter₁, hit₁, -, -, hagenda⟩ | ⟨rfl, -, -⟩
      · rw [hagenda] at hleavable hrounds hcalls
        rw [List.length_append, List.length_cons] at hrounds hcalls
        obtain ⟨L, it', u', hrun⟩ := ih hit₁ hu₁
          (fun move hmove => hleavable move (List.mem_append_right _ (List.mem_cons_of_mem _ hmove)))
          (by omega) (by omega)
        dsimp only
        rw [if_pos rfl, bind_of_ok hrun]
        exact ⟨_, _, _, rfl⟩
      · dsimp only
        rw [if_neg Bool.false_ne_true]
        exact ⟨_, _, _, rfl⟩

/-! ### Whole passes -/

theorem agenda_root : agenda s v var [⟨base, base.length, -1⟩] =
    walk (s.numSlots v) (var.level - base.length) base := by
  rw [agenda, if_pos (by simp), walk_eq]
  show _ ++ [] = _
  rw [List.append_nil]
  rfl

theorem valuePasses_total (passes : ℕ) (hread : StoreUnchanged I D c s v var base r)
    (hit : it.AtRoot s v var base) (hu : I u)
    (hleavable : ∀ move ∈ agenda s v var [⟨base, base.length, -1⟩], Leavable s v var move)
    (hrounds : (agenda s v var [⟨base, base.length, -1⟩]).length < rounds) :
    ∃ it' u', valuePasses D c v var rounds passes it u = .ok ((List.replicate passes
      (deliveries it.all r var.level (agenda s v var [⟨base, base.length, -1⟩])), it'), u') := by
  induction passes generalizing it u with
  | zero => exact ⟨it, u, rfl⟩
  | succ passes ih =>
      obtain ⟨L, it₁, u₁, hpass⟩ := valuePass_total hread hit hu hleavable hrounds hrounds
      obtain ⟨hu₁, hall, hroot, hL, -⟩ := valuePass_moves hread hit hu hpass
      obtain ⟨it', u', hrest⟩ := ih hroot hu₁
      refine ⟨it', u', ?_⟩
      rw [valuePasses, bind_of_ok hpass]
      dsimp only
      rw [bind_of_ok hrest, hL, hall]
      rfl

end passes

/-! ### Exact iteration -/

theorem Slots.reaches_iff {s : Slots} {v : VarId} {rest : List UInt32} :
    s.reaches v p rest = true ↔ Leads (s.numSlots v) p rest := by
  induction rest generalizing p with
  | nil => exact ⟨fun _ => trivial, fun _ => rfl⟩
  | cons i rest ih =>
      rw [Slots.reaches, Bool.and_eq_true, decide_eq_true_eq, ih]
      rfl

theorem ValueIterator.skips_eq_false_iff {all : Bool} {value : Option VarValue} :
    ValueIterator.skips all value = false ↔
      ∃ result, value = some result ∧ (all = true ∨ result.value.isSome = true) := by
  cases value with
  | none => simp [ValueIterator.skips]
  | some result => cases all <;> cases hvalue : result.value <;> simp [ValueIterator.skips, hvalue]

/-- Iterating over the values of an instance delivers, in every pass, exactly the complete vectors of
indices below its own that have a slot and a result (a result with a value, unless all are asked for), each
once and in lexicographic order. -/
def ValueIterationExact (D : Defs) (c : Callees) (s : Slots) (var : Var) (inst : VarInstance)
    (all : Bool) (r : List UInt32 → Option VarValue) : Prop :=
  ∃ vectors : List (List UInt32), vectors.Pairwise (· < ·) ∧
    (∀ p, p ∈ vectors ↔ inst.indices <+: p ∧ p.length = var.level ∧ s.has inst.var p = true ∧
      ∃ result, r p = some result ∧ (all = true ∨ result.value.isSome = true)) ∧
    ∃ needed, ∀ rounds ≥ needed, ∀ passes, ∃ it u,
      valuePasses D c inst.var var rounds passes (varValueIteratorCreate s var inst all) s =
        .ok ((List.replicate passes (vectors.map (Delivery.of r)), it), u)

/-- No array below the instance has more than `INT_MAX` entries. -/
def ArraysFit (s : Slots) (var : Var) (inst : VarInstance) : Prop :=
  ∀ p, inst.indices <+: p → p.length < var.level → s.has inst.var p = true →
    (s.numSlots inst.var p).toNat ≤ 2147483647

section exact

variable {I : Slots → Prop} {D : Defs} {c : Callees} {s : Slots} {var : Var} {inst : VarInstance}
  {r : List UInt32 → Option VarValue} {all : Bool}

theorem arraysFit_iff_leavable (hlength : inst.indices.length ≤ var.level)
    (hhas : s.has inst.var inst.indices = true) :
    ArraysFit s var inst ↔
      ∀ move ∈ agenda s inst.var var [⟨inst.indices, inst.indices.length, -1⟩],
        Leavable s inst.var var move := by
  rw [agenda_root]
  constructor
  · intro hfit move hmove
    obtain ⟨rest, hrest, -, rfl | rfl⟩ := mem_walk_iff.mp hmove
    · trivial
    · intro hinner
      apply hfit _ (List.prefix_append _ _) hinner
      rw [Slots.has_append, hhas, Slots.reaches_iff.mpr hrest]
      rfl
  · rintro hleavable p ⟨rest, rfl⟩ hinner hp
    rw [Slots.has_append, Bool.and_eq_true] at hp
    rw [List.length_append] at hinner
    apply hleavable (.leave (inst.indices ++ rest))
    · exact mem_walk_iff.mpr ⟨rest, Slots.reaches_iff.mp hp.2, by omega, Or.inr rfl⟩
    · rw [List.length_append]
      exact hinner

theorem varValueIteratorCreate_atRoot (all : Bool) (hlength : inst.indices.length ≤ var.level)
    (hhas : s.has inst.var inst.indices = true) :
    (varValueIteratorCreate s var inst all).AtRoot s inst.var var inst.indices ∧
      (varValueIteratorCreate s var inst all).all = all := by
  have hslot : varInstanceGetSlotForReading s var inst = some inst.indices :=
    varInstanceGetSlotForReading_eq_some.mpr ⟨hlength, hhas, rfl⟩
  refine ⟨varValueIteratorCreate_valid hslot, ?_⟩
  unfold varValueIteratorCreate
  rw [hslot]

theorem valuePasses_of_no_slot (D : Defs) (c : Callees) (all : Bool)
    (hslot : varInstanceGetSlotForReading s var inst = none)
    (hrounds : 0 < rounds) (passes : ℕ) :
    ∃ it, valuePasses D c inst.var var rounds passes (varValueIteratorCreate s var inst all) s =
      .ok ((List.replicate passes [], it), s) := by
  obtain ⟨rounds, rfl⟩ : ∃ n, rounds = n + 1 := ⟨rounds - 1, by omega⟩
  have hiter : (varValueIteratorCreate s var inst all).iter = none := by
    unfold varValueIteratorCreate
    rw [hslot]
  generalize varValueIteratorCreate s var inst all = it at hiter
  refine ⟨it, ?_⟩
  have hpass : valuePass D c inst.var var (rounds + 1) (rounds + 1) it s = .ok (([], it), s) := by
    rw [valuePass, varValueIteratorNext, hiter]
    rfl
  induction passes with
  | zero => rfl
  | succ passes ih =>
      rw [valuePasses, bind_of_ok hpass]
      dsimp only
      rw [bind_of_ok ih]
      rfl

theorem ValueIterationExact.arraysFit (hread : StoreUnchanged I D c s inst.var var inst.indices r)
    (h : ValueIterationExact D c s var inst all r) : ArraysFit s var inst := by
  rintro p ⟨rest, rfl⟩ hinner hp
  have hhas := Slots.has_of_append hp
  have hlength : inst.indices.length ≤ var.level := by
    rw [List.length_append] at hinner
    omega
  obtain ⟨vectors, -, -, needed, hpasses⟩ := h
  obtain ⟨it, u, hrun⟩ := hpasses needed (Nat.le_refl _) 1
  rw [valuePasses] at hrun
  obtain ⟨⟨L, it₁⟩, u₁, hpass, -⟩ := bind_ok_iff.mp hrun
  obtain ⟨hroot, -⟩ := varValueIteratorCreate_atRoot all hlength hhas
  obtain ⟨-, -, -, -, hleavable⟩ := valuePass_moves hread hroot hread.start hpass
  exact (arraysFit_iff_leavable hlength hhas).mpr hleavable _ (List.prefix_append _ _) hinner hp

/-- While the store is not changed, iterating over the values of an instance is exact if and only if no
array below the instance has more than `INT_MAX` entries. -/
theorem valueIteration_exact_iff (hread : StoreUnchanged I D c s inst.var var inst.indices r) :
    ValueIterationExact D c s var inst all r ↔ ArraysFit s var inst := by
  constructor
  · exact fun h => h.arraysFit hread
  · intro hfit
    by_cases hslot : inst.indices.length ≤ var.level ∧ s.has inst.var inst.indices = true
    · obtain ⟨hlength, hhas⟩ := hslot
      obtain ⟨hroot, hall⟩ := varValueIteratorCreate_atRoot all hlength hhas
      have hleavable := (arraysFit_iff_leavable hlength hhas).mp hfit
      have hlevel : inst.indices.length + (var.level - inst.indices.length) = var.level := by omega
      refine ⟨(leaves var.level (agenda s inst.var var [⟨inst.indices, inst.indices.length, -1⟩])).filter
        fun p => !ValueIterator.skips all (r p), ?_, ?_,
        (agenda s inst.var var [⟨inst.indices, inst.indices.length, -1⟩]).length + 1,
        fun rounds hrounds passes => ?_⟩
      · rw [agenda_root]
        exact (leaves_walk_pairwise hlevel).filter _
      · intro p
        rw [List.mem_filter, agenda_root, mem_leaves_walk_iff hlevel, Bool.not_eq_true',
          ValueIterator.skips_eq_false_iff]
        constructor
        · rintro ⟨⟨rest, rfl, hrest, hp⟩, hresult⟩
          refine ⟨List.prefix_append _ _, hp, ?_, hresult⟩
          rw [Slots.has_append, hhas, Slots.reaches_iff.mpr hrest]
          rfl
        · rintro ⟨⟨rest, rfl⟩, hp, hhas', hresult⟩
          rw [Slots.has_append, Bool.and_eq_true] at hhas'
          exact ⟨⟨rest, rfl, Slots.reaches_iff.mp hhas'.2, hp⟩, hresult⟩
      · have hpasses := valuePasses_total passes hread hroot hread.start hleavable hrounds
        rw [hall] at hpasses
        exact hpasses
    · -- the iterator is an end iterator
      have hnone : varInstanceGetSlotForReading s var inst = none := by
        cases hread : varInstanceGetSlotForReading s var inst with
        | none => rfl
        | some p =>
            obtain ⟨hlength, hhas, -⟩ := varInstanceGetSlotForReading_eq_some.mp hread
            exact absurd ⟨hlength, hhas⟩ hslot
      refine ⟨[], List.Pairwise.nil, fun p => ?_, 1, fun rounds hrounds passes => ?_⟩
      · refine ⟨fun hmem => absurd hmem List.not_mem_nil, ?_⟩
        rintro ⟨⟨rest, rfl⟩, hp, hhas, -⟩
        rw [List.length_append] at hp
        exact absurd ⟨by omega, Slots.has_of_append hhas⟩ hslot
      · obtain ⟨it, hrun⟩ := valuePasses_of_no_slot D c all hnone hrounds passes
        exact ⟨it, s, hrun⟩

end exact

/-! ### The array `X_%` with the bound 2 -/

theorem Slots.mark_unmark {s : Slots} {v : VarId} (h : (s.entry v p).readActive = false) :
    ((s.updateEntry v p fun e => { e with readActive := true }).updateEntry v p
      fun e => { e with readActive := false }) = s := by
  have hentry : { s.entry v p with readActive := false } = s.entry v p := by
    rw [← h]
  unfold Slots.updateEntry Slots.setEntry
  simp only [and_self, if_true, hentry]
  obtain ⟨numSlots, entry, cycles, clears⟩ := s
  simp only [Slots.mk.injEq, true_and, and_true]
  funext u q
  split
  · next heq => rw [heq.1, heq.2]
  · rfl

theorem readCheckedValue_stored {D : Defs} {depth : ℕ} {var : Var} {v : VarId}
    {s : Slots} {text : CString} (hcondition : D.condition v = .literal (.boolean true))
    (hhas : s.has v p = true) (hactive : (s.entry v p).readActive = false)
    (hvalue : (s.entry v p).value = some text) :
    readCheckedValue D (calls D (depth + 1)) var ⟨v, p⟩ s =
      .ok (some ⟨some text, .normal, (s.entry v p).extra, (s.entry v p).priority⟩, s) := by
  have hderef : derefSlot v p s = .ok ((), s) := derefSlot_ok_iff.mpr ⟨hhas, rfl⟩
  have hmark : setReadActive ⟨v, p⟩ true s =
      .ok ((), s.updateEntry v p fun e => { e with readActive := true }) := rfl
  have hunmark : setReadActive ⟨v, p⟩ false (s.updateEntry v p fun e => { e with readActive := true }) =
      .ok ((), s) :=
    congrArg (fun t => Except.ok ((), t)) (Slots.mark_unmark hactive)
  have hentry : (s.updateEntry v p fun e => { e with readActive := true }).entry v p =
      { s.entry v p with readActive := true } := by
    rw [Slots.updateEntry_entry, if_pos ⟨rfl, rfl⟩]
  have hhas' : (s.updateEntry v p fun e => { e with readActive := true }).has v p = true := by
    rw [Slots.updateEntry_has, hhas]
  generalize (s.updateEntry v p fun e => { e with readActive := true }) = s₁ at *
  have henabled : varInstanceIsEnabled D (calls D (depth + 1)) ⟨v, p⟩ s₁ = .ok (true, s₁) := by
    unfold varInstanceIsEnabled
    rw [hcondition]
    rfl
  have hderef₁ : derefSlot v p s₁ = .ok ((), s₁) := derefSlot_ok_iff.mpr ⟨hhas', rfl⟩
  have hget : varSlotGetValue D (calls D (depth + 1)) ⟨v, p⟩ s₁ =
      .ok (⟨some text, .normal, (s.entry v p).extra, (s.entry v p).priority⟩, s₁) := by
    unfold varSlotGetValue
    rw [bind_of_ok (get_ok_iff.mpr ⟨rfl, rfl⟩), hentry]
    dsimp only
    rw [hvalue]
    rfl
  unfold readCheckedValue
  rw [bind_of_ok hderef, bind_of_ok (get_ok_iff.mpr ⟨rfl, rfl⟩),
    if_neg (by rw [hactive]; exact Bool.false_ne_true), bind_of_ok hmark,
    bind_of_ok henabled, bind_of_ok hderef₁, bind_of_ok hget, bind_of_ok hunmark]
  rfl

/-- The store with `X_N='2'`, in which `X_%` has `n` entries `a`. -/
def arrayStore (n : UInt32) : Slots where
  numSlots := fun v p => if v = 1 ∧ p = [] then n else 0
  entry := fun v _ =>
    { SlotEntry.init with value := some [if v = 0 then '2' else 'a'], priority := .configuration }
  cycles := 0
  clears := 0

/-- The entries of `X_%` inside the bound have a value. -/
def arrayResult (p : List UInt32) : Option VarValue :=
  match p with
  | [i] => if uint32ToInt i < 2 then some ⟨some ['a'], .normal, none, .configuration⟩ else none
  | _ => none

/-- `X_%`. -/
def arrayVar : Var :=
  { name := "X_%".toList, type := 1, level := 1, varN := some 0, varNClients := [],
    priority := .configuration, props := plainProps }

/-- `X_N` and `X_%`, which are always enabled. -/
def enabledDefs : Defs := sampleDefs (.literal (.boolean true))

theorem arrayStore_unchanged (n : UInt32) :
    StoreUnchanged (fun u => u = arrayStore n) enabledDefs (calls enabledDefs 4) (arrayStore n) 1
      arrayVar [] arrayResult := by
  refine ⟨rfl, fun u hu => by rw [hu], ?_⟩
  rintro p u - hlength hhas rfl
  refine ⟨arrayStore n, ?_, rfl⟩
  obtain ⟨i, rfl⟩ := List.length_eq_one_iff.mp hlength
  have hbound : (calls enabledDefs 4).tryGetValue ⟨0, []⟩ (arrayStore n) =
      .ok (some ⟨some ['2'], .normal, none, .configuration⟩, arrayStore n) := by
    have hread (var : Var) : readCheckedValue enabledDefs (calls enabledDefs 3) var ⟨0, []⟩ (arrayStore n) =
        .ok (some ⟨some ['2'], .normal, none, .configuration⟩, arrayStore n) :=
      readCheckedValue_stored rfl rfl rfl rfl
    show (readCheckedValue enabledDefs (calls enabledDefs 3) _ ⟨0, []⟩ >>= fun result =>
      pure (dropUnset result)) (arrayStore n) = _
    rw [bind_of_ok (hread _)]
    rfl
  have hinside : indicesInBounds enabledDefs (calls enabledDefs 4) arrayVar ⟨1, [i]⟩ (arrayStore n) =
      .ok (decide (uint32ToInt i < 2), arrayStore n) := by
    have hinstance : boundInstance enabledDefs ⟨1, [i]⟩ arrayVar.varN (arrayStore n) =
        .ok (⟨0, []⟩, arrayStore n) := rfl
    have hnumber : readArrayBound (calls enabledDefs 4) ⟨0, []⟩ (arrayStore n) =
        .ok (some 2, arrayStore n) := by
      unfold readArrayBound
      rw [bind_of_ok hbound]
      rfl
    unfold indicesInBounds varCheckArrayBounds
    rw [if_pos (by decide), bind_of_ok hinstance, bind_of_ok hnumber]
    rfl
  have hread : readCheckedValue enabledDefs (calls enabledDefs 4) arrayVar ⟨1, [i]⟩ (arrayStore n) =
      .ok (some ⟨some ['a'], .normal, none, .configuration⟩, arrayStore n) :=
    readCheckedValue_stored rfl hhas rfl rfl
  have hderef : enabledDefs.deref 1 (arrayStore n) = .ok (arrayVar, arrayStore n) := rfl
  unfold varInstanceReadValue arrayResult
  rw [bind_of_ok hderef, bind_of_ok hinside]
  dsimp only
  by_cases hi : uint32ToInt i < 2
  · rw [decide_eq_true hi, if_pos rfl, if_pos hi]
    exact hread
  · rw [decide_eq_false hi, if_neg Bool.false_ne_true, if_neg hi]
    rfl

/-- Both entries of `X_%` are delivered. -/
theorem valueIteration_exact_two : ValueIterationExact enabledDefs (calls enabledDefs 4) (arrayStore 2)
    arrayVar ⟨1, []⟩ false arrayResult := by
  apply (valueIteration_exact_iff (arrayStore_unchanged 2)).mpr
  intro p _ hinner _
  obtain rfl := List.length_eq_zero_iff.mp (Nat.lt_one_iff.mp hinner)
  decide

/-- An array with more than `INT_MAX` entries is not iterated over exactly, although its store is not
changed. -/
theorem valueIteration_broken_at_2147483648 :
    ¬ ∀ (I : Slots → Prop) (D : Defs) (c : Callees) (s : Slots) (var : Var) (inst : VarInstance)
      (r : List UInt32 → Option VarValue) (all : Bool),
      StoreUnchanged I D c s inst.var var inst.indices r → ValueIterationExact D c s var inst all r := by
  intro h
  have hread := arrayStore_unchanged 2147483648
  have hfit := (h _ _ _ _ arrayVar ⟨1, []⟩ _ false hread).arraysFit hread
  have hle := hfit [] (List.prefix_refl _) (Nat.zero_lt_one) rfl
  revert hle
  decide

end Mkfli4l
