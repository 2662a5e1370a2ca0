import Mathlib.Data.List.Basic
import Mathlib.Data.UInt
import Mathlib.Tactic

/-!
# Walks around ragged trees

A tree all of whose leaves are on one level, while its inner nodes have any numbers of children.  A node
has for its address the indices that lead to it, and `width` gives the number of its children.

A walk enters a node, goes around its children one after the other, and leaves the node.  The leaves that it
enters are those of the tree, each once and in lexicographic order.
-/

namespace Mkfli4l
namespace Lib

/-- A move of a walk. -/
inductive WalkMove
  | enter (node : List UInt32)
  | leave (node : List UInt32)

/-- The leaf that is entered. -/
def WalkMove.leaf (level : ℕ) : WalkMove → Option (List UInt32)
  | .enter node => if node.length = level then some node else none
  | .leave _ => none

/-- The leaves that are entered. -/
def leaves (level : ℕ) (moves : List WalkMove) : List (List UInt32) :=
  moves.filterMap (WalkMove.leaf level)

section Walks

variable (width : List UInt32 → UInt32)

/-- The walk around a node whose leaves are `h` levels below it. -/
def walk : ℕ → List UInt32 → List WalkMove
  | 0, p => [.enter p, .leave p]
  | h + 1, p =>
      .enter p :: ((List.range' 0 (width p).toNat).flatMap fun i => walk h (p ++ [UInt32.ofNat i])) ++
        [.leave p]

/-- The rest of the walk around a node from its child `i` on. -/
def walkFrom : ℕ → List UInt32 → ℕ → List WalkMove
  | 0, p, _ => [.leave p]
  | h + 1, p, i =>
      ((List.range' i ((width p).toNat - i)).flatMap fun i => walk width h (p ++ [UInt32.ofNat i])) ++
        [.leave p]

/-- Do the indices lead from a node to a node of the tree? -/
def Leads : List UInt32 → List UInt32 → Prop
  | _, [] => True
  | p, i :: rest => i < width p ∧ Leads (p ++ [i]) rest

end Walks

variable {width : List UInt32 → UInt32}

/-! ### The rest of a walk -/

theorem walk_eq (h : ℕ) (p : List UInt32) : walk width h p = .enter p :: walkFrom width h p 0 := by
  cases h with
  | zero => rfl
  | succ h => rfl

variable {h i level : ℕ} {p : List UInt32}

theorem walkFrom_of_lt (hi : i < (width p).toNat) :
    walkFrom width (h + 1) p i =
      walk width h (p ++ [UInt32.ofNat i]) ++ walkFrom width (h + 1) p (i + 1) := by
  have hrange : List.range' i ((width p).toNat - i) =
      i :: List.range' (i + 1) ((width p).toNat - (i + 1)) := by
    have hcount : (width p).toNat - i = (width p).toNat - (i + 1) + 1 := by omega
    rw [hcount, List.range'_succ]
  rw [walkFrom, walkFrom, hrange, List.flatMap_cons, List.append_assoc]

theorem walkFrom_of_le (hi : (width p).toNat ≤ i) : walkFrom width (h + 1) p i = [.leave p] := by
  have hcount : (width p).toNat - i = 0 := by omega
  rw [walkFrom, hcount]
  rfl

theorem leave_mem_walkFrom (h : ℕ) (p : List UInt32) (i : ℕ) : .leave p ∈ walkFrom width h p i := by
  cases h with
  | zero => exact List.mem_singleton_self _
  | succ h => exact List.mem_append_right _ (List.mem_singleton_self _)

/-! ### The nodes of a walk -/

theorem mem_walk_iff {move : WalkMove} :
    move ∈ walk width h p ↔ ∃ rest, Leads width p rest ∧ rest.length ≤ h ∧
      (move = .enter (p ++ rest) ∨ move = .leave (p ++ rest)) := by
  induction h generalizing p with
  | zero =>
      constructor
      · intro hmem
        refine ⟨[], trivial, Nat.le_refl 0, ?_⟩
        simpa [walk] using hmem
      · rintro ⟨rest, -, hlength, hmove⟩
        obtain rfl := List.length_eq_zero_iff.mp (Nat.le_zero.mp hlength)
        simpa [walk] using hmove
  | succ h ih =>
      have hchild (move : WalkMove) : move ∈ ((List.range' 0 (width p).toNat).flatMap fun i =>
            walk width h (p ++ [UInt32.ofNat i])) ↔
          ∃ i : UInt32, i < width p ∧ move ∈ walk width h (p ++ [i]) := by
        rw [List.mem_flatMap]
        constructor
        · rintro ⟨i, hi, hmem⟩
          have hlt : i < (width p).toNat := by simpa using hi
          refine ⟨UInt32.ofNat i, ?_, hmem⟩
          rw [UInt32.lt_iff_toNat_lt,
            UInt32.toNat_ofNat_of_lt' (Nat.lt_trans hlt (width p).toNat_lt_size)]
          exact hlt
        · rintro ⟨i, hi, hmem⟩
          refine ⟨i.toNat, ?_, ?_⟩
          · simpa [UInt32.lt_iff_toNat_lt] using hi
          · rw [UInt32.ofNat_toNat]
            exact hmem
      unfold walk
      rw [List.cons_append, List.mem_cons, List.mem_append, hchild, List.mem_singleton]
      constructor
      · rintro (hmove | ⟨i, hi, hmem⟩ | hmove)
        · exact ⟨[], trivial, Nat.zero_le _, Or.inl (by rw [hmove, List.append_nil])⟩
        · obtain ⟨rest, hrest, hlength, hmove⟩ := ih.mp hmem
          refine ⟨i :: rest, ⟨hi, hrest⟩, Nat.succ_le_succ hlength, ?_⟩
          rw [List.append_assoc] at hmove
          exact hmove
        · exact ⟨[], trivial, Nat.zero_le _, Or.inr (by rw [hmove, List.append_nil])⟩
      · rintro ⟨rest, hrest, hlength, hmove⟩
        cases rest with
        | nil =>
            rw [List.append_nil] at hmove
            exact hmove.imp id Or.inr
        | cons i rest =>
            refine Or.inr (Or.inl ⟨i, hrest.1, ih.mpr ⟨rest, hrest.2, Nat.le_of_succ_le_succ hlength, ?_⟩⟩)
            rw [List.append_assoc]
            exact hmove

theorem mem_leaves_iff {moves : List WalkMove} :
    p ∈ leaves level moves ↔ .enter p ∈ moves ∧ p.length = level := by
  unfold leaves
  rw [List.mem_filterMap]
  constructor
  · rintro ⟨move, hmem, hleaf⟩
    cases move with
    | enter node =>
        simp only [WalkMove.leaf, Option.ite_none_right_eq_some, Option.some.injEq] at hleaf
        obtain ⟨hlength, rfl⟩ := hleaf
        exact ⟨hmem, hlength⟩
    | leave node => simp [WalkMove.leaf] at hleaf
  · rintro ⟨hmem, hlength⟩
    exact ⟨.enter p, hmem, by rw [WalkMove.leaf, if_pos hlength]⟩

theorem mem_leaves_walk_iff {q : List UInt32} (hlevel : p.length + h = level) :
    q ∈ leaves level (walk width h p) ↔
      ∃ rest, q = p ++ rest ∧ Leads width p rest ∧ q.length = level := by
  rw [mem_leaves_iff, mem_walk_iff]
  constructor
  · rintro ⟨⟨rest, hrest, -, hmove⟩, hlength⟩
    rcases hmove with hmove | hmove
    · exact ⟨rest, WalkMove.enter.inj hmove, hrest, hlength⟩
    · contradiction
  · rintro ⟨rest, rfl, hrest, hlength⟩
    rw [List.length_append] at hlength
    exact ⟨⟨rest, hrest, by omega, Or.inl rfl⟩, by rw [List.length_append]; exact hlength⟩

theorem walkFrom_subset_walk (h : ℕ) (p : List UInt32) (i : ℕ) :
    walkFrom width h p i ⊆ walk width h p := by
  cases h with
  | zero => exact List.subset_cons_self _ _
  | succ h =>
      intro move hmove
      rcases List.mem_append.mp hmove with hmove | hmove
      · obtain ⟨j, hj, hmove⟩ := List.mem_flatMap.mp hmove
        refine List.mem_cons_of_mem _ (List.mem_append_left _ (List.mem_flatMap.mpr ⟨j, ?_, hmove⟩))
        rw [List.mem_range'_1] at hj ⊢
        omega
      · exact List.mem_append_right _ hmove

/-! ### Smaller trees -/

theorem walkFrom_length_le {small : List UInt32 → UInt32}
    (hsmall : ∀ rest, Leads small p rest → Leads width p rest) :
    (walkFrom small h p i).length ≤ (walkFrom width h p i).length := by
  induction h generalizing i p with
  | zero => exact Nat.le_refl _
  | succ h ih =>
      have hwidth : (small p).toNat ≤ (width p).toNat := by
        by_contra hlt
        have hchild : Leads width p [width p] :=
          hsmall _ ⟨UInt32.lt_iff_toNat_lt.mpr (Nat.not_le.mp hlt), trivial⟩
        exact absurd hchild.1 (UInt32.lt_irrefl _)
      have hsplit : List.range' i ((width p).toNat - i) =
          List.range' i ((small p).toNat - i) ++
            List.range' (i + ((small p).toNat - i)) ((width p).toNat - i - ((small p).toNat - i)) := by
        rw [List.range'_append_1]
        congr 1
        omega
      have hchildren : (((List.range' i ((small p).toNat - i)).flatMap fun j =>
            walk small h (p ++ [UInt32.ofNat j])).length) ≤
          (((List.range' i ((small p).toNat - i)).flatMap fun j =>
            walk width h (p ++ [UInt32.ofNat j])).length) := by
        rw [List.length_flatMap, List.length_flatMap]
        refine List.sum_le_sum fun j hj => ?_
        have hj' : j < (small p).toNat := by
          rw [List.mem_range'_1] at hj
          omega
        have hlt : UInt32.ofNat j < small p := by
          rw [UInt32.lt_iff_toNat_lt,
            UInt32.toNat_ofNat_of_lt' (Nat.lt_trans hj' (small p).toNat_lt_size)]
          exact hj'
        rw [walk_eq, walk_eq, List.length_cons, List.length_cons]
        exact Nat.succ_le_succ (ih fun rest hrest => (hsmall (UInt32.ofNat j :: rest) ⟨hlt, hrest⟩).2)
      rw [walkFrom, walkFrom, List.length_append, List.length_append, hsplit, List.flatMap_append,
        List.length_append]
      omega

/-! ### Their order -/

theorem leaves_walk_pairwise (hlevel : p.length + h = level) :
    (leaves level (walk width h p)).Pairwise (· < ·) := by
  induction h generalizing p with
  | zero =>
      have hleaf : leaves level (walk width 0 p) = [p] := by
        simp [leaves, walk, WalkMove.leaf, ← hlevel]
      rw [hleaf]
      exact List.pairwise_singleton _ _
  | succ h ih =>
      have hinner : ¬ p.length = level := by omega
      have hchildren : leaves level (walk width (h + 1) p) =
          (List.range' 0 (width p).toNat).flatMap fun i =>
            leaves level (walk width h (p ++ [UInt32.ofNat i])) := by
        unfold leaves
        rw [walk, List.cons_append, List.filterMap_cons_none (by rw [WalkMove.leaf, if_neg hinner]),
          List.filterMap_append, List.filterMap_flatMap]
        show _ ++ [] = _
        rw [List.append_nil]
      have hlevel' (i : ℕ) : (p ++ [UInt32.ofNat i]).length + h = level := by
        rw [List.length_append, List.length_singleton]
        omega
      rw [hchildren, List.pairwise_flatMap]
      constructor
      · intro i _
        exact ih (hlevel' i)
      · -- leaves below different children differ in the index of the child
        have hsorted : (List.range' 0 (width p).toNat).Pairwise (· < ·) := List.pairwise_lt_range'
        refine hsorted.imp_of_mem ?_
        intro i j hi hj hij q hq q' hq'
        obtain ⟨rest, rfl, -, -⟩ := (mem_leaves_walk_iff (hlevel' i)).mp hq
        obtain ⟨rest', rfl, -, -⟩ := (mem_leaves_walk_iff (hlevel' j)).mp hq'
        have hwidth : j < (width p).toNat := by simpa using hj
        have hsize : j < UInt32.size := Nat.lt_trans hwidth (width p).toNat_lt_size
        have hlt : UInt32.ofNat i < UInt32.ofNat j := by
          rw [UInt32.lt_iff_toNat_lt, UInt32.toNat_ofNat_of_lt' (Nat.lt_trans hij hsize),
            UInt32.toNat_ofNat_of_lt' hsize]
          exact hij
        rw [List.append_assoc, List.append_assoc]
        apply List.append_left_lt
        exact List.cons_lt_cons_iff.mpr (Or.inl hlt)

end Lib
end Mkfli4l
