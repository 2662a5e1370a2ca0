import Mathlib.Data.Nat.Bitwise
import Mathlib.Data.Set.Basic
import Mathlib.Tactic

/-!
# Numbers that share their leading bits

The numbers of `w` bits whose first `b` bits are those of a given number form a block.  Two blocks are
either disjoint or one of them includes the other, and which one it is can be read off their lengths.
A mask of leading ones cuts a number down to its block.
-/

namespace Mkfli4l
namespace Lib

/-- The first `b` of `w` bits. -/
def lead (w b x : ℕ) : ℕ := x / 2 ^ (w - b)

/-- The numbers of `w` bits whose first `b` bits are those of `a`. -/
def sharing (w b a : ℕ) : Set ℕ := {x | x < 2 ^ w ∧ lead w b x = lead w b a}

variable {w b b' a a' x y : ℕ}

theorem mem_sharing_self (ha : a < 2 ^ w) : a ∈ sharing w b a := ⟨ha, rfl⟩

theorem lead_eq_of_le (hb : b' ≤ b) (hw : b ≤ w) (h : lead w b x = lead w b y) :
    lead w b' x = lead w b' y := by
  have hpow : 2 ^ (w - b') = 2 ^ (w - b) * 2 ^ (b - b') := by
    rw [← pow_add]
    congr 1
    omega
  unfold lead at h ⊢
  rw [hpow, ← Nat.div_div_eq_div_mul, ← Nat.div_div_eq_div_mul, h]

/-- A longer block does not fit into a shorter one: its first and its last number differ in the bit
behind its leading bits. -/
theorem le_of_sharing_subset (hb : b ≤ w) (ha : a < 2 ^ w)
    (h : sharing w b a ⊆ sharing w b' a') (hb' : b' ≤ w) : b' ≤ b := by
  by_contra hlt
  set k := w - b with hk
  set k' := w - b' with hk'
  have hkk : k' < k := by omega
  have hpos : 0 < 2 ^ k := Nat.two_pow_pos k
  have hpow : 2 ^ k = 2 ^ k' * 2 ^ (k - k') := by
    rw [← pow_add]
    congr 1
    omega
  have hfactor : 2 ≤ 2 ^ (k - k') := by
    calc
      2 = 2 ^ 1 := rfl
      _ ≤ 2 ^ (k - k') := Nat.pow_le_pow_right (by omega) (by omega)
  -- the first and the last number of the block of `a`
  set q := a / 2 ^ k with hq
  have hq_lt : q < 2 ^ (w - k) := by
    apply Nat.div_lt_of_lt_mul
    rw [← pow_add]
    have : k + (w - k) = w := by omega
    rw [this]
    exact ha
  have hlast : q * 2 ^ k + (2 ^ k - 1) < 2 ^ w := by
    have hw : 2 ^ w = 2 ^ (w - k) * 2 ^ k := by
      rw [← pow_add]
      congr 1
      omega
    have hle : (q + 1) * 2 ^ k ≤ 2 ^ (w - k) * 2 ^ k := Nat.mul_le_mul_right _ hq_lt
    rw [Nat.add_mul, Nat.one_mul] at hle
    omega
  have hfirst_mem : q * 2 ^ k ∈ sharing w b a := by
    refine ⟨by omega, ?_⟩
    show q * 2 ^ k / 2 ^ k = q
    exact Nat.mul_div_cancel q hpos
  have hlast_mem : q * 2 ^ k + (2 ^ k - 1) ∈ sharing w b a := by
    refine ⟨hlast, ?_⟩
    show (q * 2 ^ k + (2 ^ k - 1)) / 2 ^ k = q
    rw [Nat.mul_comm, Nat.mul_add_div hpos, Nat.div_eq_of_lt (by omega)]
    rfl
  have hsame : q * 2 ^ k / 2 ^ k' = (q * 2 ^ k + (2 ^ k - 1)) / 2 ^ k' :=
    (h hfirst_mem).2.trans (h hlast_mem).2.symm
  have hpos' : 0 < 2 ^ k' := Nat.two_pow_pos k'
  have hmul : q * 2 ^ k = 2 ^ k' * (q * 2 ^ (k - k')) := by
    rw [hpow]
    ring
  have hone : 1 ≤ (2 ^ k - 1) / 2 ^ k' := by
    apply (Nat.one_le_div_iff hpos').mpr
    have : 2 ^ k' * 2 ≤ 2 ^ k := by
      rw [hpow]
      exact Nat.mul_le_mul_left _ hfactor
    omega
  rw [hmul, Nat.mul_div_cancel_left _ hpos', Nat.mul_add_div hpos'] at hsame
  omega

theorem sharing_subset_iff (hb : b ≤ w) (hb' : b' ≤ w) (ha : a < 2 ^ w) :
    sharing w b a ⊆ sharing w b' a' ↔ b' ≤ b ∧ lead w b' a = lead w b' a' := by
  constructor
  · intro h
    exact ⟨le_of_sharing_subset hb ha h hb', (h (mem_sharing_self ha)).2⟩
  · rintro ⟨hle, hlead⟩ x ⟨hx, hxa⟩
    exact ⟨hx, (lead_eq_of_le hle hb hxa).trans hlead⟩

theorem sharing_eq_iff (hb : b ≤ w) (hb' : b' ≤ w) (ha : a < 2 ^ w) (ha' : a' < 2 ^ w) :
    sharing w b a = sharing w b' a' ↔ b = b' ∧ lead w b a = lead w b' a' := by
  constructor
  · intro h
    obtain ⟨hle, hlead⟩ := (sharing_subset_iff hb hb' ha).mp h.subset
    obtain ⟨hle', -⟩ := (sharing_subset_iff hb' hb ha').mp h.symm.subset
    have heq : b = b' := by omega
    exact ⟨heq, by rw [heq, hlead]⟩
  · rintro ⟨rfl, hlead⟩
    unfold sharing
    rw [hlead]

/-- The bits of a mask of leading ones below bit `w`. -/
def IsMask (w b : ℕ) {n : ℕ} (mask : BitVec n) : Prop :=
  ∀ i, mask.getLsbD i = decide (w - b ≤ i ∧ i < w ∧ i < n)

theorem and_mask_eq_iff {n : ℕ} {u v mask : BitVec n} (hn : w ≤ n) (hmask : IsMask w b mask)
    (hu : u.toNat < 2 ^ w) (hv : v.toNat < 2 ^ w) :
    u &&& mask = v &&& mask ↔ lead w b u.toNat = lead w b v.toNat := by
  have hbit (i : ℕ) (x : BitVec n) : (x &&& mask).getLsbD i =
      (x.toNat.testBit i && decide (w - b ≤ i ∧ i < w ∧ i < n)) := by
    rw [BitVec.getLsbD_and, hmask i]
    rfl
  have hhigh (x : BitVec n) (hx : x.toNat < 2 ^ w) (i : ℕ) (hi : w ≤ i) :
      x.toNat.testBit i = false :=
    Nat.testBit_lt_two_pow (lt_of_lt_of_le hx (Nat.pow_le_pow_right (by omega) hi))
  constructor
  · intro h
    apply Nat.eq_of_testBit_eq
    intro i
    unfold lead
    rw [Nat.testBit_div_two_pow, Nat.testBit_div_two_pow]
    by_cases hi : i + (w - b) < w
    · have hsame := congrArg (fun x => BitVec.getLsbD x (i + (w - b))) h
      simp only [hbit] at hsame
      have hin : w - b ≤ i + (w - b) ∧ i + (w - b) < w ∧ i + (w - b) < n := by omega
      simpa [hin] using hsame
    · rw [hhigh u hu _ (by omega), hhigh v hv _ (by omega)]
  · intro h
    apply BitVec.eq_of_getLsbD_eq
    intro i hi
    rw [hbit, hbit]
    by_cases hin : w - b ≤ i ∧ i < w ∧ i < n
    · have hsame := congrArg (fun x => Nat.testBit x (i - (w - b))) h
      simp only [lead, Nat.testBit_div_two_pow] at hsame
      have hindex : i - (w - b) + (w - b) = i := by omega
      rw [hindex] at hsame
      rw [hsame]
    · rw [decide_eq_false hin, Bool.and_false, Bool.and_false]

theorem mask_and_mask {n : ℕ} {mask mask' : BitVec n} (hle : b' ≤ b) (hmask : IsMask w b mask)
    (hmask' : IsMask w b' mask') : mask &&& mask' = mask' := by
  apply BitVec.eq_of_getLsbD_eq
  intro i hi
  rw [BitVec.getLsbD_and, hmask i, hmask' i]
  by_cases hin : w - b' ≤ i ∧ i < w ∧ i < n
  · have hin' : w - b ≤ i ∧ i < w ∧ i < n := by omega
    simp [hin, hin']
  · rw [decide_eq_false hin, Bool.and_false]

end Lib
end Mkfli4l
