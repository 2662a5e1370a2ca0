import Mathlib.Data.List.Infix

/-!
# The first occurrence of a text in another one

The search only looks at the characters up to the end of what it finds: in a text that begins with the same
characters it finds the same.
-/

namespace Mkfli4l
namespace Lib

variable {α : Type*} {pat s s' : List α} {i j m : ℕ}

theorem prefix_drop_congr (htake : s.take m = s'.take m) (hle : j + pat.length ≤ m) :
    pat <+: s.drop j ↔ pat <+: s'.drop j := by
  have hsame : (s.drop j).take pat.length = (s'.drop j).take pat.length := by
    have hfront := congrArg (List.take (j + pat.length)) htake
    rw [List.take_take, List.take_take, Nat.min_eq_left hle] at hfront
    rw [List.take_drop, List.take_drop, hfront]
  rw [List.prefix_iff_eq_take, List.prefix_iff_eq_take, hsame]

variable [DecidableEq α]

/-- The position of the first occurrence. -/
def findSub (pat s : List α) : Option ℕ := s.tails.findIdx? (pat.isPrefixOf ·)

theorem findSub_eq_some :
    findSub pat s = some i ↔ i ≤ s.length ∧ pat <+: s.drop i ∧ ∀ j < i, ¬ pat <+: s.drop j := by
  unfold findSub
  rw [List.findIdx?_eq_some_iff_getElem]
  simp only [List.length_tails, List.getElem_tails, List.isPrefixOf_iff_prefix, Nat.lt_succ_iff, exists_prop]

theorem le_of_findSub (h : findSub pat s = some i) : i + pat.length ≤ s.length := by
  obtain ⟨hle, hstart, -⟩ := findSub_eq_some.mp h
  have hlength := hstart.length_le
  rw [List.length_drop] at hlength
  omega

theorem findSub_le (hstart : pat <+: s.drop i) : ∃ j ≤ i, findSub pat s = some j := by
  cases hfound : findSub pat s with
  | none =>
      unfold findSub at hfound
      rw [List.findIdx?_eq_none_iff] at hfound
      have hnot := hfound (s.drop i) ((List.mem_tails _ _).mpr (List.drop_suffix i s))
      rw [List.isPrefixOf_iff_prefix.mpr hstart] at hnot
      exact nomatch hnot
  | some j =>
      refine ⟨j, ?_, rfl⟩
      by_contra hlt
      exact (findSub_eq_some.mp hfound).2.2 i (Nat.lt_of_not_le hlt) hstart

theorem findSub_congr (htake : s.take m = s'.take m) (hm : m ≤ s'.length) (hle : i + pat.length ≤ m)
    (h : findSub pat s = some i) : findSub pat s' = some i := by
  obtain ⟨-, hstart, hfirst⟩ := findSub_eq_some.mp h
  refine findSub_eq_some.mpr ⟨by omega, (prefix_drop_congr htake hle).mp hstart, ?_⟩
  intro j hj hstart'
  exact hfirst j hj ((prefix_drop_congr htake (by omega)).mpr hstart')

end Lib
end Mkfli4l
