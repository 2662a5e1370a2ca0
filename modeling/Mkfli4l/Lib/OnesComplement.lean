import Mathlib.Data.Nat.ModEq
import Mathlib.Tactic

/-!
# Sums with an end-around carry

Adding two words of `w` bits in the one's complement, the carry out of the highest bit is added to the
lowest one.  With `m = 2 ^ w - 1` the result is the number from 1 to `m` that is congruent to the sum
modulo `m`, and 0 if both words are 0.  So the sum of a list of words does not depend on the order in
which it is taken, and a sum of longer words can be reduced to one of shorter words if `m` divides the
modulus of the longer ones.
-/

namespace Mkfli4l
namespace Lib

variable {m : ℕ}

/-- The sum of two words with an end-around carry. -/
def addCarry (m a b : ℕ) : ℕ := if a + b ≤ m then a + b else a + b - m

/-- The word that a number is reduced to. -/
def reduceWord (m n : ℕ) : ℕ := if n = 0 then 0 else (n - 1) % m + 1

theorem reduceWord_zero (m : ℕ) : reduceWord m 0 = 0 := rfl

theorem reduceWord_eq_zero_iff {n : ℕ} : reduceWord m n = 0 ↔ n = 0 := by
  unfold reduceWord
  split_ifs with h <;> simp [h]

theorem reduceWord_le (hm : 0 < m) (n : ℕ) : reduceWord m n ≤ m := by
  unfold reduceWord
  split_ifs with h
  · exact Nat.zero_le m
  · exact Nat.mod_lt (n - 1) hm

theorem reduceWord_modEq (m n : ℕ) : reduceWord m n ≡ n [MOD m] := by
  unfold reduceWord
  split_ifs with h
  · rw [h]
  · have hsucc : n = n - 1 + 1 := by omega
    conv_rhs => rw [hsucc]
    exact (Nat.mod_modEq (n - 1) m).add_right 1

theorem eq_reduceWord {r n : ℕ} (hle : r ≤ m) (hmod : r ≡ n [MOD m]) (hzero : r = 0 ↔ n = 0) :
    r = reduceWord m n := by
  by_cases hn : n = 0
  · rw [hzero.mpr hn, hn, reduceWord_zero]
  · have hpos : r ≠ 0 := fun h => hn (hzero.mp h)
    have hsame : r - 1 ≡ n - 1 [MOD m] := by
      apply Nat.ModEq.add_right_cancel' 1
      rwa [Nat.sub_add_cancel (by omega), Nat.sub_add_cancel (by omega)]
    unfold reduceWord
    rw [if_neg hn, ← hsame, Nat.mod_eq_of_lt (by omega)]
    omega

theorem reduceWord_eq_iff {a b : ℕ} (ha : a ≠ 0) (hb : b ≠ 0) :
    reduceWord m a = reduceWord m b ↔ a ≡ b [MOD m] := by
  constructor
  · intro h
    have hmod := reduceWord_modEq m a
    rw [h] at hmod
    exact hmod.symm.trans (reduceWord_modEq m b)
  · intro h
    rcases Nat.eq_zero_or_pos m with rfl | hm
    · rw [Nat.modEq_zero_iff] at h
      rw [h]
    · refine eq_reduceWord (reduceWord_le hm a) ((reduceWord_modEq m a).trans h) ?_
      rw [reduceWord_eq_zero_iff]
      exact iff_of_false ha hb

theorem addCarry_eq {a b : ℕ} (ha : a ≤ m) (hb : b ≤ m) : addCarry m a b = reduceWord m (a + b) := by
  unfold addCarry
  split_ifs with h
  · exact eq_reduceWord h rfl Iff.rfl
  · refine eq_reduceWord (by omega) ?_ (by omega)
    have hsum : a + b = a + b - m + m := by omega
    conv_rhs => rw [hsum]
    exact (Nat.add_mod_right (a + b - m) m).symm

theorem reduceWord_add (hm : 0 < m) (a b : ℕ) : reduceWord m (reduceWord m a + b) = reduceWord m (a + b) := by
  apply eq_reduceWord (reduceWord_le hm _)
  · exact (reduceWord_modEq m _).trans ((reduceWord_modEq m a).add_right b)
  · rw [reduceWord_eq_zero_iff]
    have hzero := reduceWord_eq_zero_iff (m := m) (n := a)
    omega

theorem reduceWord_dvd {M : ℕ} (hm : 0 < m) (h : m ∣ M) (n : ℕ) :
    reduceWord m (reduceWord M n) = reduceWord m n := by
  apply eq_reduceWord (reduceWord_le hm _)
  · exact (reduceWord_modEq m _).trans ((reduceWord_modEq M n).of_dvd h)
  · rw [reduceWord_eq_zero_iff, reduceWord_eq_zero_iff]

theorem foldl_addCarry (hm : 0 < m) {words : List ℕ} (hwords : ∀ w ∈ words, w ≤ m) {a : ℕ} (ha : a ≤ m) :
    words.foldl (addCarry m) a = reduceWord m (a + words.sum) := by
  induction words generalizing a with
  | nil => exact eq_reduceWord ha rfl Iff.rfl
  | cons w words ih =>
      have hw := hwords w List.mem_cons_self
      rw [List.foldl_cons, addCarry_eq ha hw,
        ih (fun v hv => hwords v (List.mem_cons_of_mem w hv)) (reduceWord_le hm (a + w)),
        reduceWord_add hm, List.sum_cons, Nat.add_assoc]

end Lib
end Mkfli4l
