import Mathlib.Algebra.BigOperators.Fin
import Mathlib.Algebra.Order.BigOperators.Group.Finset
import Mathlib.Tactic

/-!
# The bits of an array of bytes

The bits of an array of bytes are counted from the most significant bit of its first byte on.  A walk
over the bits keeps a byte and a mask of one bit, which moves to the right and starts again at the left
of the next byte.
-/

namespace Mkfli4l
namespace Lib

/-- An array of `n` bytes. -/
abbrev Octets (n : ℕ) := Fin n → BitVec 8

variable {n : ℕ}

/-- The bit with the number `i`. -/
def bitAt (a : Octets n) (i : ℕ) : Bool :=
  if h : i / 8 < n then (a ⟨i / 8, h⟩).getLsbD (7 - i % 8) else false

/-- The mask of the bit with the number `i` in its byte. -/
def maskAt (i : ℕ) : BitVec 8 := 0x80#8 >>> (i % 8)

theorem maskAt_eq_twoPow (i : ℕ) : maskAt i = BitVec.twoPow 8 (7 - i % 8) := by
  have hall : ∀ k < 8, (0x80#8 >>> k : BitVec 8) = BitVec.twoPow 8 (7 - k) := by decide
  exact hall (i % 8) (Nat.mod_lt i (by omega))

theorem maskAt_shift (i : ℕ) :
    maskAt i >>> 1 = 0#8 ∧ (i + 1) / 8 = i / 8 + 1 ∧ maskAt (i + 1) = 0x80#8 ∨
      maskAt i >>> 1 ≠ 0#8 ∧ (i + 1) / 8 = i / 8 ∧ maskAt (i + 1) = maskAt i >>> 1 := by
  have hstay : ∀ k < 7, (0x80#8 >>> k : BitVec 8) >>> 1 ≠ 0#8 ∧
      (0x80#8 >>> (k + 1) : BitVec 8) = (0x80#8 >>> k : BitVec 8) >>> 1 := by decide
  unfold maskAt
  by_cases hlast : i % 8 = 7
  · have hfirst : (i + 1) % 8 = 0 := by omega
    rw [hlast, hfirst]
    exact .inl ⟨by decide, by omega, by decide⟩
  · have hnext : (i + 1) % 8 = i % 8 + 1 := by omega
    obtain ⟨hne, heq⟩ := hstay (i % 8) (by omega)
    rw [hnext]
    exact .inr ⟨hne, by omega, heq⟩

theorem maskAt_ne_zero (i : ℕ) : maskAt i ≠ 0#8 := by
  have hall : ∀ k < 8, (0x80#8 >>> k : BitVec 8) ≠ 0#8 := by decide
  exact hall (i % 8) (Nat.mod_lt i (by omega))

theorem and_maskAt (byte : BitVec 8) (i : ℕ) :
    byte &&& maskAt i ≠ 0#8 ↔ byte.getLsbD (7 - i % 8) = true := by
  rw [maskAt_eq_twoPow, BitVec.and_twoPow]
  have hne := maskAt_ne_zero i
  rw [maskAt_eq_twoPow] at hne
  by_cases hset : byte.getLsbD (7 - i % 8) = true
  · simp [hset, hne]
  · simp [hset]

theorem ext_bitAt {a b : Octets n} (h : ∀ i < 8 * n, bitAt a i = bitAt b i) : a = b := by
  funext p
  apply BitVec.eq_of_getLsbD_eq
  intro k hk
  have hp := p.isLt
  have hbit := h (8 * p + (7 - k)) (by omega)
  have hbyte : (8 * p.val + (7 - k)) / 8 = p.val := by omega
  have hpos : 7 - (8 * p.val + (7 - k)) % 8 = k := by omega
  simp only [bitAt, hbyte, hpos, p.isLt, dif_pos] at hbit
  exact hbit

@[simp] theorem bitAt_zero (i : ℕ) : bitAt (fun _ : Fin n => 0#8) i = false := by
  unfold bitAt
  split
  · exact BitVec.getLsbD_zero
  · rfl

theorem bitAt_and (a b : Octets n) (i : ℕ) :
    bitAt (fun p => a p &&& b p) i = (bitAt a i && bitAt b i) := by
  unfold bitAt
  split
  · exact BitVec.getLsbD_and
  · rfl

theorem bitAt_or (a b : Octets n) (i : ℕ) :
    bitAt (fun p => a p ||| b p) i = (bitAt a i || bitAt b i) := by
  unfold bitAt
  split
  · exact BitVec.getLsbD_or
  · rfl

/-- An operation that gives the bit of the mask the value `v`. -/
def GivesBit (op : BitVec 8 → BitVec 8 → BitVec 8) (v : Bool) : Prop :=
  ∀ byte i, ∀ k < 8, (op byte (maskAt i)).getLsbD (7 - k) = if k = i % 8 then v else byte.getLsbD (7 - k)

theorem givesBit_or : GivesBit (fun byte mask => byte ||| mask) true := by
  intro byte i k hk
  rw [BitVec.getLsbD_or, maskAt_eq_twoPow, BitVec.getLsbD_twoPow]
  by_cases hsame : k = i % 8
  · simp [hsame]
    omega
  · have hne : ¬ 7 - i % 8 = 7 - k := by omega
    simp [hsame, hne]

theorem givesBit_and_not : GivesBit (fun byte mask => byte &&& ~~~mask) false := by
  intro byte i k hk
  rw [BitVec.getLsbD_and, BitVec.getLsbD_not, maskAt_eq_twoPow, BitVec.getLsbD_twoPow]
  by_cases hsame : k = i % 8
  · simp [hsame]
  · have hne : ¬ 7 - i % 8 = 7 - k := by omega
    have hlt : 7 - k < 8 := by omega
    simp [hsame, hne, hlt]

theorem bitAt_update {op : BitVec 8 → BitVec 8 → BitVec 8} {v : Bool} (hop : GivesBit op v) (a : Octets n)
    {i : ℕ} (h : i / 8 < n) (j : ℕ) :
    bitAt (Function.update a ⟨i / 8, h⟩ (op (a ⟨i / 8, h⟩) (maskAt i))) j =
      if j = i then v else bitAt a j := by
  unfold bitAt
  split
  · next hj =>
      have hmod := Nat.mod_lt j (show 8 > 0 by omega)
      by_cases hbyte : j / 8 = i / 8
      · have hsame : (⟨j / 8, hj⟩ : Fin n) = ⟨i / 8, h⟩ := Fin.ext hbyte
        rw [hsame, Function.update_self, hop _ i _ hmod]
        have hiff : j % 8 = i % 8 ↔ j = i := by omega
        simp only [hiff]
      · have hother : (⟨j / 8, hj⟩ : Fin n) ≠ ⟨i / 8, h⟩ := fun heq => hbyte (Fin.mk.inj heq)
        have hne : j ≠ i := fun heq => hbyte (by rw [heq])
        rw [Function.update_of_ne hother, if_neg hne]
  · next hj =>
      have hne : j ≠ i := fun heq => hj (heq ▸ h)
      rw [if_neg hne]

/-- The number that is written by the bytes, the first one being the most significant. -/
def value (a : Octets n) : ℕ := ∑ p : Fin n, (a p).toNat * 256 ^ (n - 1 - p)

theorem value_le {a b : Octets n} (h : ∀ i < 8 * n, bitAt a i = true → bitAt b i = true) :
    value a ≤ value b := by
  have hand : (fun p => a p &&& b p) = a := by
    apply ext_bitAt
    intro i hi
    rw [bitAt_and]
    cases ha : bitAt a i with
    | false => rfl
    | true => rw [h i hi ha]; rfl
  apply Finset.sum_le_sum
  intro p _
  apply Nat.mul_le_mul_right
  have hle : (a p &&& b p).toNat ≤ (b p).toNat := by
    rw [BitVec.toNat_and]
    exact Nat.and_le_right
  rwa [show a p &&& b p = a p from congrFun hand p] at hle

end Lib
end Mkfli4l
