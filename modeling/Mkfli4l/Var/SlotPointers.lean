import Mathlib.Logic.Relation
import Mkfli4l.Var.IterationOrder

/-!
# Iterating while the arrays are changed

A slot iterator keeps a pointer to each slot on its way.  The slot of a variable is a part of the variable,
but any other slot lies in the block of entries of the array around it, which `realloc` may move and `free`
gives back.  Here the frames of an iterator remember the block that they point into, and the definitions of
`Var/Iterator.lean` are repeated for frames that can dangle.

An iterator that stands at a leaf does not look at this leaf again, but at the arrays around it.  So it may
go on with any other store in which the leaf still has its slot and no array around it has been moved
(`Route.moveTo`, `seekValue_comesBack`).
-/

namespace Mkfli4l

open Lib Exec

/-! ### Routes in another store -/

section routes

variable {s s' : Slots} {v : VarId} {var var' : Var} {base : List UInt32}

theorem Route.moveTo (hlevel : var'.level = var.level) {it : SlotIterator} {parents : List SlotIterator}
    (h : Route s v var base (it :: parents)) (hhas : s'.has v it.slot = true)
    (hinside : it.level ≠ var.level → it.i ≤ (s'.numSlots v it.slot).toNat) :
    Route s' v var' base (it :: parents) := by
  have hvalid : it.Valid s' v var' := by
    have hv := h.head
    refine ⟨hv.slot_length, ?_, hhas, hv.i_le, ?_⟩
    · rw [hlevel]
      exact hv.level_le
    · rw [hlevel]
      exact hinside
  induction parents generalizing it with
  | nil => exact ⟨hvalid, h.2⟩
  | cons parent rest ih =>
      -- the leaf can only be there if the parent is there and has room for it
      rw [h.2.1.slot, Slots.has_concat_iff, UInt32.lt_iff_toNat_lt] at hhas
      have hindex := toNat_toUInt32_index h.2.1.i_nonneg h.2.2.head.i_le
      have hlt : parent.i < (s'.numSlots v parent.slot).toNat := by omega
      have hparent := h.2.2.head
      have hvalid' : parent.Valid s' v var' := by
        refine ⟨hparent.slot_length, ?_, hhas.1, hparent.i_le, fun _ => by omega⟩
        rw [hlevel]
        exact hparent.level_le
      exact ⟨hvalid, ⟨h.2.1.slot, h.2.1.level, h.2.1.i_nonneg, hlt⟩,
        ih h.2.2 hhas.1 (fun _ => by omega) hvalid'⟩

theorem Route.frame {iter : List SlotIterator} (h : Route s v var base iter) {it : SlotIterator}
    (hmem : it ∈ iter) : it.Valid s v var ∧ ∃ q, it.slot = base ++ q := by
  induction iter with
  | nil => exact h.elim
  | cons first parents ih =>
      rcases List.mem_cons.mp hmem with rfl | hmem
      · exact ⟨h.head, h.slot_eq⟩
      · cases parents with
        | nil => exact absurd hmem List.not_mem_nil
        | cons parent rest => exact ih h.2.2 hmem

theorem Route.has_of_leave {iter : List SlotIterator} (h : Route s v var base iter) {p : List UInt32}
    (hp : .leave p ∈ agenda s v var iter) : base <+: p ∧ s.has v p = true := by
  have hmoves : ∀ it ∈ iter, ∀ i, .leave p ∈ it.movesFrom s v var i → base <+: p ∧ s.has v p = true := by
    intro it hmem i hmove
    obtain ⟨hv, q, hq⟩ := h.frame hmem
    obtain ⟨rest, hrest, -, hcases⟩ := mem_walk_iff.mp (walkFrom_subset_walk _ _ _ hmove)
    rcases hcases with heq | heq
    · contradiction
    · obtain rfl := WalkMove.leave.inj heq
      constructor
      · rw [hq, List.append_assoc]
        exact List.prefix_append _ _
      · rw [Slots.has_append, hv.has, Slots.reaches_iff.mpr hrest]
        rfl
  cases iter with
  | nil => exact h.elim
  | cons it parents =>
      rw [agenda, List.mem_append] at hp
      rcases hp with hp | hp
      · split at hp
        · rcases List.mem_cons.mp hp with heq | hp
          · contradiction
          · exact hmoves it List.mem_cons_self _ hp
        · exact hmoves it List.mem_cons_self _ hp
      · obtain ⟨parent, hparent, hp⟩ := List.mem_flatMap.mp hp
        exact hmoves parent (List.mem_cons_of_mem it hparent) _ hp

theorem Route.leavable {iter : List SlotIterator} (h : Route s v var base iter)
    (hfit : ArraysFit s var ⟨v, base⟩) : ∀ move ∈ agenda s v var iter, Leavable s v var move := by
  intro move hmove
  cases move with
  | enter p => trivial
  | leave p =>
      intro hinner
      obtain ⟨hbase, hhas⟩ := h.has_of_leave hmove
      exact hfit p hbase hinner hhas

theorem Route.agenda_length_le {iter : List SlotIterator} (h : Route s v var base iter)
    (h' : Route s' v var' base iter) (hlevel : var'.level = var.level)
    (hnothing : ∀ p, s'.has v p = true → s.has v p = true) :
    (agenda s' v var' iter).length ≤ (agenda s v var iter).length := by
  have hmoves : ∀ it ∈ iter, ∀ i,
      (it.movesFrom s' v var' i).length ≤ (it.movesFrom s v var i).length := by
    intro it hmem i
    unfold SlotIterator.movesFrom
    rw [hlevel]
    refine walkFrom_length_le fun rest hrest => ?_
    have hnew : s'.has v (it.slot ++ rest) = true := by
      rw [Slots.has_append, (h'.frame hmem).1.has, Slots.reaches_iff.mpr hrest]
      rfl
    have hold := hnothing _ hnew
    rw [Slots.has_append, Bool.and_eq_true] at hold
    exact Slots.reaches_iff.mp hold.2
  cases iter with
  | nil => exact h.elim
  | cons it parents =>
      have hparents : (parents.flatMap fun parent => parent.movesFrom s' v var' (parent.i.toNat + 1)).length ≤
          (parents.flatMap fun parent => parent.movesFrom s v var (parent.i.toNat + 1)).length := by
        rw [List.length_flatMap, List.length_flatMap]
        exact List.sum_le_sum fun parent hparent => hmoves parent (List.mem_cons_of_mem it hparent) _
      rw [agenda, agenda, List.length_append, List.length_append]
      refine Nat.add_le_add ?_ hparents
      split
      · exact Nat.succ_le_succ (hmoves it List.mem_cons_self 0)
      · exact hmoves it List.mem_cons_self _

end routes

namespace InMemory

/-! ### Iterators with pointers -/

/-- The blocks in which the arrays have their entries at the moment. -/
abbrev Blocks := VarId → List UInt32 → ℕ

/-- The block that a slot lies in.  The slot of the variable itself lies in none. -/
def blockAround (B : Blocks) (v : VarId) (p : List UInt32) : Option ℕ :=
  if p = [] then none else some (B v p.dropLast)

/-- `struct varslot_iterator_t`, with the block that its slot pointer leads into. -/
structure SlotFrame where
  iterator : SlotIterator
  block : Option ℕ

/-- Does the slot still lie in the block that the pointer leads into? -/
def SlotFrame.Points (B : Blocks) (v : VarId) (f : SlotFrame) : Prop :=
  f.block = blockAround B v f.iterator.slot

instance (B : Blocks) (v : VarId) (f : SlotFrame) : Decidable (f.Points B v) :=
  inferInstanceAs (Decidable (_ = _))

/-- Dereference the slot pointer of a frame. -/
def SlotFrame.deref (B : Blocks) (v : VarId) (f : SlotFrame) : SlotExec Unit :=
  if f.Points B v then derefSlot v f.iterator.slot else throw .nullPointer

/-- The condition on which `var_slot_iterator_next` goes back to the parent. -/
def SlotFrame.exhausted (B : Blocks) (v : VarId) (var : Var) (f : SlotFrame) : SlotExec Bool :=
  if f.iterator.level = var.level then pure true
  else do
    f.deref B v
    let s ← get
    pure (decide (toUInt32 f.iterator.i = s.numSlots v f.iterator.slot))

/-- Put a frame to a position. -/
def SlotFrame.at (f : SlotFrame) (i : ℤ) : SlotFrame :=
  { f with iterator := { f.iterator with i := i } }

/-- Go back to the parent iterator; the root iterator comes to its end instead. -/
def SlotFrame.leave (f : SlotFrame) : List SlotFrame → SlotExec (List SlotFrame)
  | parent :: rest => do
      let i ← incrementIndex parent.iterator.i
      pure (parent.at i :: rest)
  | [] => pure [f.at (-1)]

/-- The frame for the current entry of an array. -/
def SlotFrame.entry (B : Blocks) (v : VarId) (f : SlotFrame) : SlotFrame where
  iterator := ⟨f.iterator.slot ++ [toUInt32 f.iterator.i], f.iterator.level + 1, 0⟩
  block := some (B v f.iterator.slot)

def varSlotIteratorNext (D : Defs) (B : Blocks) (v : VarId) :
    List SlotFrame → SlotExec (List SlotFrame)
  | [] => throw .nullPointer
  | f :: parents =>
      if f.iterator.i < 0 then pure (f.at 0 :: parents)
      else do
        let var ← D.deref v
        let exhausted ← f.exhausted B v var
        if exhausted then f.leave parents
        else pure (f.entry B v :: f :: parents)

/-- The inner loop of `var_value_iterator_next`: go to the next leaf or to the end. -/
def seekLeaf (D : Defs) (B : Blocks) (v : VarId) (maxlevel : ℕ) :
    ℕ → List SlotFrame → SlotExec (List SlotFrame)
  | 0, _ => throw .roundsExhausted
  | rounds + 1, iter => do
      let iter ← varSlotIteratorNext D B v iter
      match iter with
      | [] => throw .nullPointer
      | f :: _ =>
          if 0 ≤ f.iterator.i ∧ f.iterator.level ≠ maxlevel then seekLeaf D B v maxlevel rounds iter
          else pure iter

/-- `struct var_value_iterator_t`, with the indices of its instance. -/
structure ValueIterator where
  indices : List UInt32
  iter : Option (List SlotFrame)
  last : Option VarValue
  all : Bool

def varValueIteratorCreate (B : Blocks) (s : Slots) (var : Var) (inst : VarInstance) (all : Bool) :
    ValueIterator :=
  match varInstanceGetSlotForReading s var inst with
  | some slot =>
      { indices := inst.indices ++ List.replicate (var.level - inst.indices.length) 0
        iter := some [⟨⟨slot, inst.indices.length, -1⟩, blockAround B inst.var slot⟩]
        last := none
        all := all }
  | none =>
      { indices := List.replicate var.level 0, iter := none, last := none, all := all }

/-- The outer loop of `var_value_iterator_next`.  Reading a value may run expressions, so that the arrays
may lie somewhere else in each round. -/
def seekValue (D : Defs) (c : Callees) (v : VarId) (maxlevel : ℕ) :
    ℕ → (ℕ → Blocks) → ValueIterator → List SlotFrame → SlotExec (Bool × ValueIterator)
  | 0, _, _, _ => throw .roundsExhausted
  | rounds + 1, blocks, it, iter => do
      let iter ← seekLeaf D (blocks 0) v maxlevel (rounds + 1) iter
      match iter with
      | [] => throw .nullPointer
      | leaf :: parents =>
          if 0 ≤ leaf.iterator.i then do
            let indices := copyIndices it.indices (parents.map SlotFrame.iterator)
            let last ← varInstanceReadValue D c ⟨v, indices⟩
            let it := { it with indices := indices, iter := some iter, last := last }
            if Mkfli4l.ValueIterator.skips it.all last then
              seekValue D c v maxlevel rounds (fun k => blocks (k + 1)) it iter
            else pure (true, it)
          else pure (false, { it with iter := some iter, last := none })

def varValueIteratorNext (D : Defs) (c : Callees) (v : VarId) (rounds : ℕ) (blocks : ℕ → Blocks)
    (it : ValueIterator) : SlotExec (Bool × ValueIterator) :=
  match it.iter with
  | none => pure (false, it)
  | some iter => do
      let var ← D.deref v
      seekValue D c v var.level rounds blocks it iter

/-- The frames of an iterator without their blocks. -/
abbrev places (iter : List SlotFrame) : List SlotIterator := iter.map SlotFrame.iterator

/-! ### Pointers that are good -/

variable {f : SlotFrame} {rounds : ℕ}

section points

variable {D : Defs} {B : Blocks} {v : VarId} {var : Var} {iter : List SlotFrame} {s s' : Slots}

/-- The pointers to the arrays lead to them.  The pointer to a leaf is not used any more. -/
def PointsToArrays (B : Blocks) (v : VarId) (level : ℕ) (iter : List SlotFrame) : Prop :=
  ∀ f ∈ iter, f.iterator.level ≠ level → f.Points B v

theorem SlotFrame.points_at (h : f.Points B v) (i : ℤ) : (f.at i).Points B v := h

theorem SlotFrame.points_entry (f : SlotFrame) : (f.entry B v).Points B v := by
  unfold SlotFrame.Points blockAround
  simp [SlotFrame.entry]

theorem SlotFrame.exhausted_eq (h : f.iterator.level ≠ var.level → f.Points B v) :
    f.exhausted B v var = f.iterator.exhausted v var := by
  unfold SlotFrame.exhausted SlotIterator.exhausted
  by_cases hlevel : f.iterator.level = var.level
  · rw [if_pos hlevel, if_pos hlevel]
  · rw [if_neg hlevel, if_neg hlevel, SlotFrame.deref, if_pos (h hlevel)]

theorem varSlotIteratorNext_follows (hvar : D.vars v = some var)
    (hpoints : PointsToArrays B v var.level iter) {iter' : List SlotIterator}
    (h : Mkfli4l.varSlotIteratorNext v var (places iter) s = .ok (iter', s')) :
    ∃ iter₁, varSlotIteratorNext D B v iter s = .ok (iter₁, s') ∧ places iter₁ = iter' ∧
      PointsToArrays B v var.level iter₁ := by
  cases iter with
  | nil => exact (throw_ok_iff.mp h).elim
  | cons f parents =>
      have hparents : PointsToArrays B v var.level parents := fun g hg =>
        hpoints g (List.mem_cons_of_mem f hg)
      have hderef : D.deref v s = .ok (var, s) := Defs.deref_ok_iff.mpr ⟨hvar, rfl⟩
      rw [places, List.map_cons, Mkfli4l.varSlotIteratorNext] at h
      rw [varSlotIteratorNext]
      by_cases hi : f.iterator.i < 0
      · rw [if_pos hi] at h
        obtain ⟨rfl, rfl⟩ := pure_ok_iff.mp h
        refine ⟨f.at 0 :: parents, by rw [if_pos hi]; rfl, rfl, fun g hg hlevel => ?_⟩
        rcases List.mem_cons.mp hg with rfl | hg
        · exact SlotFrame.points_at (hpoints f List.mem_cons_self hlevel) 0
        · exact hparents g hg hlevel
      · rw [if_neg hi, ← SlotFrame.exhausted_eq (hpoints f List.mem_cons_self)] at h
        obtain ⟨exhausted, s₁, hexhausted, hrest⟩ := bind_ok_iff.mp h
        rw [if_neg hi, bind_of_ok hderef, bind_of_ok hexhausted]
        cases exhausted with
        | false =>
            obtain ⟨rfl, rfl⟩ := pure_ok_iff.mp hrest
            refine ⟨f.entry B v :: f :: parents, rfl, rfl, fun g hg hlevel => ?_⟩
            rcases List.mem_cons.mp hg with rfl | hg
            · exact f.points_entry
            · exact hpoints g hg hlevel
        | true =>
            cases parents with
            | nil =>
                obtain ⟨rfl, rfl⟩ := pure_ok_iff.mp hrest
                refine ⟨[f.at (-1)], rfl, rfl, fun g hg hlevel => ?_⟩
                obtain rfl := List.mem_singleton.mp hg
                exact SlotFrame.points_at (hpoints f List.mem_cons_self hlevel) (-1)
            | cons parent rest =>
                obtain ⟨i, s₂, hincrement, hpure⟩ := bind_ok_iff.mp hrest
                obtain ⟨rfl, rfl⟩ := pure_ok_iff.mp hpure
                refine ⟨parent.at i :: rest, bind_of_ok hincrement, rfl, fun g hg hlevel => ?_⟩
                rcases List.mem_cons.mp hg with rfl | hg
                · exact SlotFrame.points_at (hparents parent List.mem_cons_self hlevel) i
                · exact hparents g (List.mem_cons_of_mem parent hg) hlevel

theorem seekLeaf_follows (hvar : D.vars v = some var)
    (hpoints : PointsToArrays B v var.level iter) {iter' : List SlotIterator}
    (h : Mkfli4l.seekLeaf v var rounds (places iter) s = .ok (iter', s')) :
    ∃ iter₁, seekLeaf D B v var.level rounds iter s = .ok (iter₁, s') ∧ places iter₁ = iter' ∧
      PointsToArrays B v var.level iter₁ := by
  induction rounds generalizing iter with
  | zero => exact (throw_ok_iff.mp h).elim
  | succ rounds ih =>
      obtain ⟨iter₂, s₂, hnext, hrest⟩ := bind_ok_iff.mp h
      obtain ⟨rfl, -⟩ := varSlotIteratorNext_ok hnext
      obtain ⟨iter₁, hnext₁, rfl, hpoints₁⟩ := varSlotIteratorNext_follows hvar hpoints hnext
      rw [seekLeaf, bind_of_ok hnext₁]
      cases iter₁ with
      | nil => exact (throw_ok_iff.mp hrest).elim
      | cons f parents =>
          simp only [places, List.map_cons] at hrest
          dsimp only
          by_cases hinner : 0 ≤ f.iterator.i ∧ f.iterator.level ≠ var.level
          · rw [if_pos hinner] at hrest ⊢
            exact ih hpoints₁ hrest
          · rw [if_neg hinner] at hrest ⊢
            obtain ⟨rfl, rfl⟩ := pure_ok_iff.mp hrest
            exact ⟨f :: parents, rfl, rfl, hpoints₁⟩

end points

/-! ### A call that comes back -/

/-- The frames of an iterator that stands at a leaf, or that has not been started. -/
def AtRest (level : ℕ) : List SlotFrame → Prop
  | [] => False
  | f :: _ => f.iterator.level = level ∨ f.iterator.i < 0

theorem AtRest.route {s s' : Slots} {v : VarId} {var var' : Var} (hlevel : var'.level = var.level)
    {parents : List SlotFrame} (hrest : AtRest var.level (f :: parents))
    (h : Route s v var [] (places (f :: parents))) (hhas : s'.has v f.iterator.slot = true) :
    Route s' v var' [] (places (f :: parents)) := by
  refine Route.moveTo hlevel h hhas fun hinner => ?_
  have hstart := hrest.resolve_left hinner
  omega

/-- Reading elements of the variable leads from one store to another. -/
def ReadsLead (D : Defs) (c : Callees) (v : VarId) (level : ℕ) : Slots → Slots → Prop :=
  Relation.ReflTransGen fun u u' => ∃ p r, p.length = level ∧ u.has v p = true ∧
    varInstanceReadValue D c ⟨v, p⟩ u = .ok (r, u')

/-- Whatever elements of the variable are read, reading them comes back and leaves the arrays of the
variable as they are. -/
structure QuietReads (D : Defs) (c : Callees) (v : VarId) (level : ℕ) (s : Slots) : Prop where
  comesBack : ∀ u p, ReadsLead D c v level s u → p.length = level → s.has v p = true →
    ∃ r u', varInstanceReadValue D c ⟨v, p⟩ u = .ok (r, u')
  sameArrays : ∀ u, ReadsLead D c v level s u → u.numSlots v = s.numSlots v

section calls

variable {D : Defs} {c : Callees} {v : VarId} {var : Var} {s u : Slots} {B : Blocks}

theorem agenda_of_numSlots_eq (h : u.numSlots v = s.numSlots v) (iter : List SlotIterator) :
    agenda u v var iter = agenda s v var iter := by
  unfold agenda SlotIterator.movesFrom
  rw [h]

theorem has_of_numSlots_eq (h : u.numSlots v = s.numSlots v) (p : List UInt32) :
    u.has v p = s.has v p :=
  Slots.has_congr (fun q => by rw [h]) p

theorem arraysFit_of_numSlots_eq (h : u.numSlots v = s.numSlots v) (hfit : ArraysFit s var ⟨v, []⟩) :
    ArraysFit u var ⟨v, []⟩ := by
  intro p hbase hinner hhas
  rw [has_of_numSlots_eq h] at hhas
  show (u.numSlots v p).toNat ≤ _
  rw [h]
  exact hfit p hbase hinner hhas

/-- Where a value iterator stands: its frames lead from the variable to a leaf, or it has not been
started. -/
structure Stands (s : Slots) (v : VarId) (var : Var) (it : ValueIterator) (iter : List SlotFrame) : Prop where
  iter_eq : it.iter = some iter
  route : Route s v var [] (places iter)
  rest : AtRest var.level iter
  indices_length : it.indices.length = var.level

variable {blocks : ℕ → Blocks} {it : ValueIterator} {rounds' : ℕ} {u' : Slots}

/-- A call comes back.  If it has found an element, there is less to walk than before. -/
theorem seekValue_comesBack (hvar : D.vars v = some var) (hquiet : QuietReads D c v var.level s)
    (hfit : ArraysFit s var ⟨v, []⟩) (hblocks : ∀ k, blocks k v = B v) {iter : List SlotFrame}
    (hu : ReadsLead D c v var.level s u) (hroute : Route u v var [] (places iter))
    (hpoints : PointsToArrays B v var.level iter) (hlength : it.indices.length = var.level)
    (hrounds : (agenda s v var (places iter)).length < rounds) :
    ∃ more it' u', seekValue D c v var.level rounds blocks it iter u = .ok ((more, it'), u') ∧
      ReadsLead D c v var.level s u' ∧ (more = true → s.has v it'.indices = true ∧
        ∃ iter', Stands s v var it' iter' ∧
          (agenda s v var (places iter')).length < (agenda s v var (places iter)).length) := by
  induction rounds generalizing it iter u blocks with
  | zero => exact absurd hrounds (Nat.not_lt_zero _)
  | succ rounds ih =>
      have hsame := hquiet.sameArrays u hu
      have hagenda : ∀ iter, agenda u v var iter = agenda s v var iter := agenda_of_numSlots_eq hsame
      obtain ⟨found, hseek⟩ : ∃ found, Mkfli4l.seekLeaf v var (rounds + 1) (places iter) u = .ok (found, u) := by
        apply hroute.seekLeaf_total
        · exact hroute.leavable (arraysFit_of_numSlots_eq hsame hfit)
        · rw [hagenda]
          omega
      have hpoints₀ : PointsToArrays (blocks 0) v var.level iter := by
        intro f hf hlevel
        have hold := hpoints f hf hlevel
        unfold SlotFrame.Points blockAround at hold ⊢
        rw [hblocks 0]
        exact hold
      obtain ⟨iter₁, hseek₁, rfl, hpoints₁⟩ := seekLeaf_follows hvar hpoints₀ hseek
      obtain ⟨-, hroute₁, hleaf, -⟩ := seekLeaf_ok hroute hseek
      obtain ⟨past, -, hcases⟩ := seekLeaf_moves hroute hseek
      rw [seekValue, bind_of_ok hseek₁]
      cases iter₁ with
      | nil => exact hroute₁.elim
      | cons leaf parents =>
          dsimp only
          by_cases hi : 0 ≤ leaf.iterator.i
          · have hlevel := hleaf leaf.iterator (places parents) rfl hi
            have hindices : copyIndices it.indices (places parents) = leaf.iterator.slot :=
              hroute₁.copyIndices_eq hlevel hlength rfl
            have hslot : leaf.iterator.slot.length = var.level := hroute₁.head.slot_length.trans hlevel
            have hhas : s.has v leaf.iterator.slot = true := by
              rw [← has_of_numSlots_eq hsame]
              exact hroute₁.head.has
            obtain ⟨r, u₁, hread⟩ := hquiet.comesBack u _ hu hslot hhas
            have hu₁ : ReadsLead D c v var.level s u₁ :=
              hu.tail ⟨_, r, hslot, hroute₁.head.has, hread⟩
            have hless : (agenda s v var (places (leaf :: parents))).length <
                (agenda s v var (places iter)).length := by
              rcases hcases with ⟨leaf', parents', heq, -, -, hmoves⟩ | ⟨heq, -⟩
              · rw [hagenda, hagenda] at hmoves
                rw [hmoves, List.length_append, List.length_cons]
                omega
              · obtain ⟨hleaf, -⟩ := List.cons.inj heq
                rw [hleaf] at hi
                simp at hi
            have hstands : Route s v var [] (places (leaf :: parents)) :=
              AtRest.route rfl (.inl hlevel) hroute₁ hhas
            rw [if_pos hi, hindices, bind_of_ok hread]
            by_cases hskip : Mkfli4l.ValueIterator.skips it.all r = true
            · have hroute₂ : Route u₁ v var [] (places (leaf :: parents)) := by
                refine AtRest.route rfl (.inl hlevel) hroute₁ ?_
                rw [has_of_numSlots_eq (hquiet.sameArrays u₁ hu₁)]
                exact hhas
              have hpoints₂ : PointsToArrays B v var.level (leaf :: parents) := by
                intro f hf hlevel'
                have hnew := hpoints₁ f hf hlevel'
                unfold SlotFrame.Points blockAround at hnew ⊢
                rw [hblocks 0] at hnew
                exact hnew
              have hnext :
                  (ValueIterator.mk leaf.iterator.slot (some (leaf :: parents)) r it.all).indices.length =
                  var.level := hslot
              obtain ⟨more, it', u', hrun, hu', hmore⟩ :=
                ih (fun k => hblocks (k + 1)) hu₁ hroute₂ hpoints₂ hnext (by omega)
              refine ⟨more, it', u', ?_, hu', fun htrue => ?_⟩
              · rw [if_pos hskip]
                exact hrun
              · obtain ⟨hfound, iter', hit', hlt⟩ := hmore htrue
                exact ⟨hfound, iter', hit', by omega⟩
            · refine ⟨true, ⟨leaf.iterator.slot, some (leaf :: parents), r, it.all⟩, u₁, ?_, hu₁,
                fun _ => ⟨hhas, leaf :: parents, ⟨rfl, hstands, .inl hlevel, hslot⟩, hless⟩⟩
              rw [if_neg hskip]
              rfl
          · refine ⟨false, { it with iter := some (leaf :: parents), last := none }, u, ?_, hu,
              fun hfalse => (Bool.false_ne_true hfalse).elim⟩
            rw [if_neg hi]
            rfl

theorem seekLeaf_of_more {level : ℕ} {iter iter' : List SlotFrame}
    (hle : rounds ≤ rounds') (h : seekLeaf D B v level rounds iter u = .ok (iter', u')) :
    seekLeaf D B v level rounds' iter u = .ok (iter', u') := by
  induction rounds generalizing rounds' iter u with
  | zero => exact (throw_ok_iff.mp h).elim
  | succ rounds ih =>
      obtain ⟨more, rfl⟩ : ∃ more, rounds' = more + 1 := ⟨rounds' - 1, by omega⟩
      obtain ⟨iter₁, u₁, hnext, hrest⟩ := bind_ok_iff.mp h
      rw [seekLeaf, bind_of_ok hnext]
      cases iter₁ with
      | nil => exact hrest
      | cons f parents =>
          dsimp only at hrest ⊢
          split at hrest
          · next hinner =>
              rw [if_pos hinner]
              exact ih (Nat.le_of_succ_le_succ hle) hrest
          · next hstop =>
              rw [if_neg hstop]
              exact hrest

theorem seekValue_of_more {level : ℕ}
    {iter : List SlotFrame} {result : Bool × ValueIterator} (hle : rounds ≤ rounds')
    (h : seekValue D c v level rounds blocks it iter u = .ok (result, u')) :
    seekValue D c v level rounds' blocks it iter u = .ok (result, u') := by
  induction rounds generalizing rounds' blocks it iter u with
  | zero => exact (throw_ok_iff.mp h).elim
  | succ rounds ih =>
      obtain ⟨more, rfl⟩ : ∃ more, rounds' = more + 1 := ⟨rounds' - 1, by omega⟩
      rw [seekValue] at h
      obtain ⟨iter₁, u₁, hseek, hrest⟩ := bind_ok_iff.mp h
      rw [seekValue, bind_of_ok (seekLeaf_of_more hle hseek)]
      cases iter₁ with
      | nil => exact hrest
      | cons leaf parents =>
          dsimp only at hrest ⊢
          split at hrest
          · next hi =>
              obtain ⟨r, u₂, hread, hrest⟩ := bind_ok_iff.mp hrest
              rw [if_pos hi, bind_of_ok hread]
              split at hrest
              · next hskip =>
                  rw [if_pos hskip]
                  exact ih (Nat.le_of_succ_le_succ hle) hrest
              · next hkeep =>
                  rw [if_neg hkeep]
                  exact hrest
          · next hi =>
              rw [if_neg hi]
              exact hrest

theorem varValueIteratorNext_of_more {result : Bool × ValueIterator} (hle : rounds ≤ rounds')
    (h : varValueIteratorNext D c v rounds blocks it u = .ok (result, u')) :
    varValueIteratorNext D c v rounds' blocks it u = .ok (result, u') := by
  unfold varValueIteratorNext at h ⊢
  cases hiter : it.iter with
  | none =>
      rw [hiter] at h
      exact h
  | some iter =>
      rw [hiter] at h
      obtain ⟨var', u₁, hderef, hrest⟩ := bind_ok_iff.mp h
      dsimp only
      rw [bind_of_ok hderef]
      exact seekValue_of_more hle hrest

end calls

/-! ### Arrays with one index -/

/-- The frame of a variable at a position. -/
def rootAt (i : ℤ) : SlotFrame := ⟨⟨[], 0, i⟩, none⟩

/-- The frames of an iterator that has delivered so many elements of an array with one index. -/
def framesAfter (B : Blocks) (v : VarId) : ℕ → List SlotFrame
  | 0 => [rootAt (-1)]
  | k + 1 => [(rootAt k).entry B v, rootAt k]

section elements

variable {D : Defs} {B : Blocks} {v : VarId} {var : Var} {s : Slots}

theorem seekLeaf_rootAt (hvar : D.vars v = some var) (hlevel : var.level = 1) {k : ℕ}
    (hk : k ≤ (s.numSlots v []).toNat) (rounds : ℕ) :
    seekLeaf D B v 1 (rounds + 1) [rootAt k] s =
      .ok (if k = (s.numSlots v []).toNat then [rootAt (-1)] else framesAfter B v (k + 1), s) := by
  have hlt := (s.numSlots v []).toNat_lt
  have hindex : (toUInt32 (k : ℤ)).toNat = k := by
    have hnat := toNat_toUInt32 (n := (k : ℤ)) (by omega) (by omega)
    omega
  have hpoints : (rootAt (k : ℤ)).Points B v := rfl
  have hslot : derefSlot v [] s = .ok ((), s) := rfl
  have hexhausted : (rootAt (k : ℤ)).exhausted B v var s =
      .ok (decide (k = (s.numSlots v []).toNat), s) := by
    have hsame : toUInt32 (k : ℤ) = s.numSlots v [] ↔ k = (s.numSlots v []).toNat := by
      rw [← UInt32.toNat_inj, hindex]
    have hroot : (rootAt (k : ℤ)).iterator = ⟨[], 0, k⟩ := rfl
    simp only [SlotFrame.exhausted, SlotFrame.deref, if_pos hpoints, hroot, hlevel, zero_ne_one, if_false,
      bind_apply, hslot, get_apply, pure_apply, hsame]
  have hstart : ¬ (rootAt (k : ℤ)).iterator.i < 0 := Int.not_lt.mpr (Int.natCast_nonneg k)
  have hderef : D.deref v s = .ok (var, s) := Defs.deref_ok_iff.mpr ⟨hvar, rfl⟩
  rw [seekLeaf, varSlotIteratorNext, if_neg hstart]
  simp only [bind_apply, hderef, hexhausted]
  by_cases hend : k = (s.numSlots v []).toNat
  · rw [if_pos hend, decide_eq_true hend]
    rfl
  · rw [if_neg hend, decide_eq_false hend]
    rfl

theorem seekLeaf_framesAfter (hvar : D.vars v = some var) (hlevel : var.level = 1) {k : ℕ}
    (hk : k ≤ (s.numSlots v []).toNat) (hint : k ≤ 2147483647) (rounds : ℕ) :
    seekLeaf D B v 1 (rounds + 2) (framesAfter B v k) s =
      .ok (if k = (s.numSlots v []).toNat then [rootAt (-1)] else framesAfter B v (k + 1), s) := by
  have hnext : varSlotIteratorNext D B v (framesAfter B v k) s = .ok ([rootAt k], s) := by
    cases k with
    | zero => rfl
    | succ j =>
        have hj : ¬ ((j : ℤ) = 2147483647) := by omega
        have hexhausted : ((rootAt j).entry B v).exhausted B v var s = .ok (true, s) := by
          have hleaf : ((rootAt j).entry B v).iterator.level = var.level := hlevel.symm
          unfold SlotFrame.exhausted
          rw [if_pos hleaf]
          rfl
        have hleave : ((rootAt j).entry B v).leave [rootAt j] s = .ok ([rootAt (j + 1 : ℕ)], s) := by
          have hi : (rootAt (j : ℤ)).iterator.i = j := rfl
          simp only [SlotFrame.leave, hi, incrementIndex, if_neg hj, bind_apply, pure_apply]
          rfl
        have hstart : ¬ ((rootAt j).entry B v).iterator.i < 0 := Int.lt_irrefl 0
        have hderef : D.deref v s = .ok (var, s) := Defs.deref_ok_iff.mpr ⟨hvar, rfl⟩
        rw [framesAfter, varSlotIteratorNext, if_neg hstart, bind_of_ok hderef,
          bind_of_ok hexhausted]
        exact hleave
  have hinner : 0 ≤ (rootAt (k : ℤ)).iterator.i ∧ (rootAt (k : ℤ)).iterator.level ≠ 1 :=
    ⟨Int.natCast_nonneg k, zero_ne_one⟩
  rw [seekLeaf, bind_of_ok hnext]
  dsimp only
  rw [if_pos hinner]
  exact seekLeaf_rootAt hvar hlevel hk rounds

end elements

end InMemory

end Mkfli4l
