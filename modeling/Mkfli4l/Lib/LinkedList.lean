import Mathlib.Data.List.Nodup
import Mathlib.Logic.Function.Basic

/-!
# Singly linked lists in place

A linked list is a function `next` from nodes to pointers, and a pointer is a node or NULL.
`Segment next p l q` says that the pointers lead from `p` through the nodes `l`, in this order, to
the pointer `q`.  The module says what an assignment `node->next = q` does to a segment, and what
unlinking a node and linking it in again amount to.
-/

namespace Mkfli4l
namespace Lib

/-- From the pointer `p`, the pointers lead through the nodes of a list to the pointer `q`. -/
def Segment {Node : Type} (next : Node → Option Node) :
    Option Node → List Node → Option Node → Prop
  | p, [], q => p = q
  | p, a :: l, q => p = some a ∧ Segment next (next a) l q

namespace Segment

variable {Node : Type} {next : Node → Option Node} {p q : Option Node} {a b : Node}
  {l r : List Node}

theorem append_iff :
    Segment next p (l ++ r) q ↔ ∃ m, Segment next p l m ∧ Segment next m r q := by
  induction l generalizing p with
  | nil =>
      constructor
      · exact fun h => ⟨p, rfl, h⟩
      · rintro ⟨m, rfl, h⟩
        exact h
  | cons a l ih =>
      constructor
      · rintro ⟨hp, h⟩
        obtain ⟨m, hl, hr⟩ := ih.mp h
        exact ⟨m, ⟨hp, hl⟩, hr⟩
      · rintro ⟨m, ⟨hp, hl⟩, hr⟩
        exact ⟨hp, ih.mpr ⟨m, hl, hr⟩⟩

theorem next_of_append (h : Segment next p (l ++ a :: r) q) : Segment next (next a) r q := by
  obtain ⟨m, -, -, hr⟩ := append_iff.mp h
  exact hr

theorem unique (hl : Segment next p l none) (hr : Segment next p r none) : l = r := by
  induction l generalizing p r with
  | nil =>
      obtain rfl : p = none := hl
      cases r with
      | nil => rfl
      | cons b r => exact nomatch hr.1
  | cons a l ih =>
      cases r with
      | nil =>
          obtain rfl : p = none := hr
          exact nomatch hl.1
      | cons b r =>
          obtain rfl := Option.some.inj (hl.1.symm.trans hr.1)
          rw [ih hl.2 hr.2]

theorem nodup (h : Segment next p l none) : l.Nodup := by
  induction l generalizing p with
  | nil => exact List.nodup_nil
  | cons a l ih =>
      refine List.nodup_cons.mpr ⟨fun hmem => ?_, ih h.2⟩
      obtain ⟨front, rest, rfl⟩ := List.append_of_mem hmem
      have hagain : front ++ a :: rest = rest := unique h.2 (next_of_append h.2)
      have hlength := congrArg List.length hagain
      rw [List.length_append, List.length_cons] at hlength
      omega

variable [DecidableEq Node]

theorem update (h : Segment next p l q) (ha : a ∉ l) (x : Option Node) :
    Segment (Function.update next a x) p l q := by
  induction l generalizing p with
  | nil => exact h
  | cons b l ih =>
      have hne : b ≠ a := fun heq => ha (heq ▸ List.mem_cons_self)
      refine ⟨h.1, ?_⟩
      rw [Function.update_of_ne hne]
      exact ih h.2 fun hmem => ha (List.mem_cons_of_mem _ hmem)

theorem redirect (h : Segment next p (l ++ [a]) q) (ha : a ∉ l) (x : Option Node) :
    Segment (Function.update next a x) p (l ++ [a]) x := by
  obtain ⟨m, hl, rfl, -⟩ := append_iff.mp h
  have hlast : Function.update next a x a = x := Function.update_self a x next
  exact append_iff.mpr ⟨some a, hl.update ha x, rfl, hlast⟩

theorem unlink (h : Segment next p (l ++ a :: b :: r) q) (hnodup : (l ++ a :: b :: r).Nodup) :
    Segment (Function.update next a (next b)) p (l ++ a :: r) q := by
  have hsplit : l ++ a :: b :: r = (l ++ [a]) ++ b :: r := by simp
  rw [hsplit] at h hnodup
  obtain ⟨m, hfront, hm, hrest⟩ := append_iff.mp h
  have hfresh : a ∉ l := fun hmem =>
    (List.nodup_append.mp (List.nodup_append.mp hnodup).1).2.2 a hmem a List.mem_cons_self rfl
  have hnot : a ∉ r := fun hmem =>
    (List.nodup_append.mp hnodup).2.2 a (by simp) a (List.mem_cons_of_mem _ hmem) rfl
  have hjoin : l ++ a :: r = (l ++ [a]) ++ r := by simp
  rw [hjoin]
  exact append_iff.mpr ⟨next b, hfront.redirect hfresh _, hrest.update hnot _⟩

theorem insertAfter (h : Segment next p (l ++ a :: r) q) (hnodup : (l ++ a :: r).Nodup)
    (hb : b ∉ l ++ a :: r) :
    Segment (Function.update (Function.update next b (next a)) a (some b)) p (l ++ a :: b :: r) q := by
  have hsplit : l ++ a :: r = (l ++ [a]) ++ r := by simp
  rw [hsplit] at h hnodup hb
  have hfresh : a ∉ l := fun hmem =>
    (List.nodup_append.mp (List.nodup_append.mp hnodup).1).2.2 a hmem a List.mem_cons_self rfl
  have hnot : a ∉ r := fun hmem => (List.nodup_append.mp hnodup).2.2 a (by simp) a hmem rfl
  have hne : b ≠ a := by
    rintro rfl
    exact hb (by simp)
  obtain ⟨m, hfront, hrest⟩ := append_iff.mp h
  obtain ⟨m', -, -, hm : next a = m⟩ := append_iff.mp hfront
  have hjoin : l ++ a :: b :: r = (l ++ [a]) ++ b :: r := by simp
  rw [hjoin]
  refine append_iff.mpr ⟨some b, ?_, rfl, ?_⟩
  · exact (hfront.update (fun hmem => hb (List.mem_append_left _ hmem)) _).redirect hfresh _
  · rw [Function.update_of_ne hne, Function.update_self, hm]
    exact (hrest.update (fun hmem => hb (List.mem_append_right _ hmem)) _).update hnot _

end Segment

end Lib
end Mkfli4l
