import Mathlib.Tactic

/-!
# Words and separators

A list that is cut at a separator falls into words.  `glue` is the way back: it writes
every word behind a separator, so that the text of a list of words is the concatenation
of the texts of its parts.
-/

namespace Mkfli4l
namespace Lib

variable {α : Type} [DecidableEq α]

/-- The words, each behind a separator. -/
def glue (sep : α) (words : List (List α)) : List α := words.flatMap fun w => sep :: w

omit [DecidableEq α] in
@[simp] theorem glue_nil (sep : α) : glue sep [] = [] := rfl

omit [DecidableEq α] in
@[simp] theorem glue_cons (sep : α) (w : List α) (words : List (List α)) :
    glue sep (w :: words) = sep :: w ++ glue sep words := rfl

omit [DecidableEq α] in
@[simp] theorem glue_append (sep : α) (ws ws' : List (List α)) :
    glue sep (ws ++ ws') = glue sep ws ++ glue sep ws' := by
  simp [glue]

theorem glue_splitOn (sep : α) (l : List α) : glue sep (l.splitOn sep) = sep :: l := by
  induction l with
  | nil => rfl
  | cons c l ih =>
      rw [List.splitOn_cons_eq_if_modifyHead]
      by_cases hc : c = sep
      · simp [hc, ih]
      · obtain ⟨w, ws, hws⟩ := List.exists_cons_of_ne_nil (List.splitOn_ne_nil sep l)
        rw [hws] at ih ⊢
        have hcons : w ++ glue sep ws = l := by simpa using ih
        simp [hc, hcons]

theorem not_mem_of_mem_splitOn {sep : α} {l w : List α} (h : w ∈ l.splitOn sep) : sep ∉ w := by
  induction l generalizing w with
  | nil =>
      obtain rfl : w = [] := by simpa using h
      simp
  | cons c l ih =>
      rw [List.splitOn_cons_eq_if_modifyHead] at h
      by_cases hc : c = sep
      · rcases (by simpa [hc] using h : w = [] ∨ w ∈ l.splitOn sep) with rfl | h
        · simp
        · exact ih h
      · obtain ⟨w', ws, hws⟩ := List.exists_cons_of_ne_nil (List.splitOn_ne_nil sep l)
        rw [hws] at h ih
        rcases (by simpa [hc] using h : w = c :: w' ∨ w ∈ ws) with rfl | h
        · simp [Ne.symm hc, ih List.mem_cons_self]
        · exact ih (List.mem_cons_of_mem _ h)

theorem mem_of_mem_splitOn {sep c : α} {l w : List α} (h : w ∈ l.splitOn sep) (hc : c ∈ w) :
    c ∈ l := by
  have hmem : c ∈ glue sep (l.splitOn sep) :=
    List.mem_flatMap.mpr ⟨w, h, List.mem_cons_of_mem _ hc⟩
  rw [glue_splitOn] at hmem
  rcases List.mem_cons.mp hmem with rfl | hmem
  · exact absurd hc (not_mem_of_mem_splitOn h)
  · exact hmem

theorem splitOn_of_glue {sep : α} {l : List α} {words : List (List α)}
    (h : sep :: l = glue sep words) (hwords : ∀ w ∈ words, sep ∉ w) : l.splitOn sep = words := by
  cases words with
  | nil => simp at h
  | cons w words =>
      induction words generalizing w l with
      | nil =>
          obtain rfl : l = w := by simpa using h
          exact List.splitOn_eq_singleton (hwords l List.mem_cons_self)
      | cons w' words ih =>
          obtain rfl : l = w ++ sep :: (w' ++ glue sep words) := by simpa using h
          have hrest : (w' ++ glue sep words).splitOn sep = w' :: words :=
            ih w' (by simp) fun u hu => hwords u (List.mem_cons_of_mem _ hu)
          rw [List.splitOn_append_cons_self_of_not_mem (hwords w List.mem_cons_self), hrest]

end Lib
end Mkfli4l
