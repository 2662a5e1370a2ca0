import Mkfli4l.Lib.Numerals

/-!
# Positions in a byte stream

A stream is read by position: `slice` gives the bytes from a position on.  Formats with blocks fill
the stream up to the next multiple of the block size with zeros (`zeros`), and a reader goes on at
that multiple (`align`).
-/

namespace Mkfli4l
namespace Lib

/-- `len` bytes from position `pos` on, or fewer at the end of the stream. -/
def slice (stream : Bytes) (pos len : Nat) : Bytes := (stream.drop pos).take len

/-- The next multiple of the block size. -/
def align (k n : Nat) : Nat := n + (k - n % k) % k

/-- The zeros behind `n` bytes up to the next multiple of the block size. -/
def zeros (k n : Nat) : Bytes := List.replicate ((k - n % k) % k) 0

variable {k n : Nat} {stream : Bytes}

@[simp] theorem length_zeros (k n : Nat) : (zeros k n).length = align k n - n := by
  simp [zeros, align]

theorem le_align (k n : Nat) : n ≤ align k n := Nat.le_add_right _ _

theorem align_mod (hk : 0 < k) : align k n % k = 0 := by
  unfold align
  have hlt := Nat.mod_lt n hk
  by_cases hzero : n % k = 0
  · simp [hzero]
  · rw [Nat.mod_eq_of_lt (by omega : k - n % k < k)]
    have hdiv := Nat.div_add_mod n k
    have heq : n + (k - n % k) = k * (n / k) + k := by omega
    rw [heq]
    simp

theorem align_add {p : Nat} (hp : p % k = 0) : align k (p + n) = p + align k n := by
  unfold align
  rw [Nat.add_mod, hp, Nat.zero_add, Nat.mod_mod]
  omega

theorem zeros_add {p : Nat} (hp : p % k = 0) : zeros k (p + n) = zeros k n := by
  unfold zeros
  rw [Nat.add_mod, hp, Nat.zero_add, Nat.mod_mod]

theorem zeros_of_mod (h : n % k = 0) : zeros k n = [] := by
  unfold zeros
  rw [h]
  simp

theorem sub_mod_succ (hk : 0 < k) (h : n % k ≠ 0) :
    (k - n % k) % k = (k - (n + 1) % k) % k + 1 := by
  have hlt := Nat.mod_lt n hk
  have hsucc : (n + 1) % k = if n % k + 1 = k then 0 else n % k + 1 := by
    rw [← Nat.mod_add_mod]
    split
    · next heq => rw [heq, Nat.mod_self]
    · exact Nat.mod_eq_of_lt (by omega)
  rw [hsucc, Nat.mod_eq_of_lt (by omega : k - n % k < k)]
  split
  · rw [Nat.sub_zero, Nat.mod_self]
    omega
  · rw [Nat.mod_eq_of_lt (by omega : k - (n % k + 1) < k)]
    omega

theorem zeros_succ (hk : 0 < k) (h : n % k ≠ 0) : zeros k n = 0 :: zeros k (n + 1) := by
  unfold zeros
  rw [sub_mod_succ hk h, List.replicate_succ]

theorem slice_append {pre mid post : Bytes} {pos len : Nat} (hpos : pos = pre.length)
    (hlen : len = mid.length) : slice (pre ++ (mid ++ post)) pos len = mid := by
  unfold slice
  rw [hpos, List.drop_left, hlen, List.take_left]

/-- The stream, filled up to the next multiple of the block size. -/
def padded (k : Nat) (stream : Bytes) : Bytes := stream ++ zeros k stream.length

@[simp] theorem length_padded (k : Nat) (stream : Bytes) :
    (padded k stream).length = align k stream.length := by
  have hle := le_align k stream.length
  simp only [padded, List.length_append, length_zeros]
  omega

theorem length_padded_mod (hk : 0 < k) (stream : Bytes) : (padded k stream).length % k = 0 := by
  rw [length_padded, align_mod hk]

theorem padded_of_mod (h : stream.length % k = 0) : padded k stream = stream := by
  rw [padded, zeros_of_mod h, List.append_nil]

theorem padded_append {pre : Bytes} (h : pre.length % k = 0) (stream : Bytes) :
    padded k (pre ++ stream) = pre ++ padded k stream := by
  rw [padded, padded, List.length_append, zeros_add h, List.append_assoc]

end Lib
end Mkfli4l
