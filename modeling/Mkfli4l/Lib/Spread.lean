import Mathlib.Algebra.BigOperators.Group.Finset.Basic
import Mathlib.Algebra.Order.BigOperators.Group.Finset
import Mathlib.Logic.Relation
import Mathlib.Order.Bounds.Basic
import Mathlib.Tactic

/-!
# Values that spread along the edges of a graph

Every node of a graph starts with a value from a linear order, and a node may take over a smaller
value from the other end of an edge.  However often and in whatever order this is done, no value
comes from anywhere but a node from which its new place can be reached (`Spreads`).  Once no edge
can lower a value any more, every node has the least of the values that can reach it, and on a
finite graph with natural numbers for values that point is reached.
-/

namespace Mkfli4l
namespace Lib

open Relation

variable {V L : Type} [DecidableEq V] [LinearOrder L] {r : V → V → Prop} {f val : V → L} {a b : V}

/-- The node `b` takes over the value of `a` if that is smaller. -/
def lower (val : V → L) (a b : V) : V → L :=
  if val a < val b then Function.update val b (val a) else val

/-- No value is larger than at the start, and each comes from a node that reaches its place. -/
structure Spreads (r : V → V → Prop) (f val : V → L) : Prop where
  le : ∀ v, val v ≤ f v
  origin : ∀ v, ∃ s, ReflTransGen r s v ∧ val v = f s

namespace Spreads

omit [DecidableEq V] in
theorem refl (r : V → V → Prop) (f : V → L) : Spreads r f f :=
  ⟨fun _ => le_rfl, fun v => ⟨v, .refl, rfl⟩⟩

theorem lower (h : Spreads r f val) (hab : r a b) : Spreads r f (lower val a b) := by
  unfold Lib.lower
  split
  · next hlt =>
      constructor
      · intro v
        by_cases hv : v = b
        · subst hv
          rw [Function.update_self]
          exact hlt.le.trans (h.le v)
        · rw [Function.update_of_ne hv]
          exact h.le v
      · intro v
        by_cases hv : v = b
        · subst hv
          rw [Function.update_self]
          obtain ⟨s, hs, hval⟩ := h.origin a
          exact ⟨s, hs.tail hab, hval⟩
        · rw [Function.update_of_ne hv]
          exact h.origin v
  · exact h

omit [DecidableEq V] in
theorem isLeast (h : Spreads r f val) (hclosed : ∀ a b, r a b → val b ≤ val a) (v : V) :
    IsLeast {x | ∃ s, ReflTransGen r s v ∧ f s = x} (val v) := by
  constructor
  · obtain ⟨s, hs, hval⟩ := h.origin v
    exact ⟨s, hs, hval.symm⟩
  · rintro x ⟨s, hs, rfl⟩
    induction hs with
    | refl => exact h.le s
    | tail _ hstep ih => exact (hclosed _ _ hstep).trans ih

end Spreads

theorem sum_lower_lt {W : Type} [Fintype W] [DecidableEq W] {val : W → Nat} {a b : W}
    (h : val a < val b) : ∑ v, lower val a b v < ∑ v, val v := by
  unfold lower
  rw [if_pos h]
  apply Finset.sum_lt_sum
  · intro v _
    by_cases hv : v = b
    · rw [hv, Function.update_self]
      exact h.le
    · rw [Function.update_of_ne hv]
  · exact ⟨b, Finset.mem_univ b, by rwa [Function.update_self]⟩

end Lib
end Mkfli4l
