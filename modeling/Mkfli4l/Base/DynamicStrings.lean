import Mkfli4l.Lib.CNumber

/-!
# Strings on the heap

`substrsave` copies a part of a string and `strcat_save` appends to one.  Both of them keep lengths in an
`int`.  A length that does not fit comes out as another one, and then the memory cannot be had, or too little
of it is asked for, or the text is written over the end of another one.

There is no result where the program ends in `fatal_exit` or writes outside of its memory.
-/

namespace Mkfli4l
namespace Base

open Lib

def intMax : ℤ := 2147483647

/-- `substrsave` for a position in a string and the distance to the end of the copy. -/
def substrsave (start : CString) (distance : ℤ) : Option CString :=
  let len := toInt32 distance
  -- a negative size is a huge one for `malloc`
  if 0 ≤ len ∧ len < intMax then some (start.take len.toNat) else none

/-- `strcat_save` for a string, or for `NULL` if that is empty. -/
def strcatSave (s a : CString) : Option CString :=
  let lenS := toInt32 s.length
  let len := toInt32 (lenS + a.length)
  -- `realloc` keeps the beginning of the string, and `strcpy` writes behind its first `len_s` characters
  if 0 ≤ lenS ∧ lenS + a.length < len + 1 ∧ len < intMax then some (s.take lenS.toNat ++ a) else none

variable {s a t start : CString}

theorem toInt32_length (h : (s.length : ℤ) ≤ intMax) : toInt32 s.length = s.length :=
  toInt32_of_range (by omega) (by unfold intMax at h; omega)

theorem substrsave_eq_take {n : ℕ} (h : (n : ℤ) < intMax) : substrsave start n = some (start.take n) := by
  have hlen : toInt32 n = n := toInt32_of_range (by omega) (by unfold intMax at h; omega)
  unfold substrsave
  dsimp only
  rw [hlen, if_pos ⟨Int.natCast_nonneg n, h⟩, Int.toNat_natCast]

theorem strcatSave_eq_append (h : ((s ++ a).length : ℤ) < intMax) : strcatSave s a = some (s ++ a) := by
  rw [List.length_append, Nat.cast_add] at h
  have hlenS : toInt32 s.length = s.length := toInt32_length (by omega)
  have hlen : toInt32 (s.length + a.length) = s.length + a.length :=
    toInt32_of_range (by omega) (by unfold intMax at h; omega)
  unfold strcatSave
  dsimp only
  rw [hlenS, hlen, if_pos ⟨by omega, by omega, h⟩, Int.toNat_natCast, List.take_length]

theorem length_strcatSave_lt (h : strcatSave s a = some t) : (t.length : ℤ) < intMax := by
  unfold strcatSave at h
  dsimp only at h
  split_ifs at h with hfits
  obtain rfl := Option.some.inj h
  rw [List.length_append, List.length_take]
  omega

end Base
end Mkfli4l
