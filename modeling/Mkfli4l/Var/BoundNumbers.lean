import Mkfli4l.Var.SlotWrite

/-!
# The numbers that bounds stand for

The bound of an array is a text.  It is turned into an `int` when the bound is read, and once more when it
is written, to see how far the arrays of the clients have to grow.  Both go through `strtol`, which
computes with 64 bits, and the result is cut to 32 bits.

A numeral of the type `NUMERIC` is read as the number it denotes, is rejected because it does not fit
into 64 bits, or, in between, loses its upper half (`boundExact_iff`).
-/

namespace Mkfli4l

open Lib

/-- The number that a string of decimal digits denotes. -/
def numeralValue (text : CString) : ℕ := Nat.ofDigitChars 10 text 0

/-- `new_bound` in `var_instance_do_set_value`.  What cannot be converted counts as 0, and the arrays do
not grow. -/
def newBound (value : CString) : ℤ :=
  let r := strtol 0 value
  if r.erange = true ∨ r.rest ≠ [] then 0 else toInt32 r.value

/-- The conversion yields nothing or the number that the text denotes, and the conversion on writing
yields the same. -/
structure BoundExact (text : CString) : Prop where
  exact : varValueConvertToInteger text = none ∨
    varValueConvertToInteger text = some (numeralValue text : ℤ)
  agrees : newBound text = (varValueConvertToInteger text).getD 0

/-! ## The two conversions -/

theorem newBound_eq (text : CString) : newBound text = (varValueConvertToInteger text).getD 0 := by
  unfold newBound varValueConvertToInteger
  by_cases hrange : (strtol 0 text).erange = true
  · simp [hrange]
  · by_cases hrest : (strtol 0 text).rest = []
    · simp [hrange, hrest]
    · simp [hrange, hrest]

/-! ## Reading a numeral -/

theorem eq_digitChar_of_le {c : Char} (hlo : '1' ≤ c) (hhi : c ≤ '9') :
    ∃ d, c = Nat.digitChar d ∧ 0 < d ∧ d < 10 := by
  have hlo' : 49 ≤ c.toNat := hlo
  have hhi' : c.toNat ≤ 57 := hhi
  have hc : c = Char.ofNat c.toNat := (Char.ofNat_toNat c).symm
  refine ⟨c.toNat - 48, ?_, by omega, by omega⟩
  generalize c.toNat = n at *
  have hcases : n = 49 ∨ n = 50 ∨ n = 51 ∨ n = 52 ∨ n = 53 ∨ n = 54 ∨ n = 55 ∨ n = 56 ∨ n = 57 := by
    omega
  rcases hcases with rfl | rfl | rfl | rfl | rfl | rfl | rfl | rfl | rfl <;> rw [hc] <;> rfl

theorem isNumeral_cases {text : CString} (h : isNumeral text = true) :
    text = ['0'] ∨ ∃ d rest, text = Nat.digitChar d :: rest ∧ 0 < d ∧ d < 10 ∧
      ∀ c ∈ text, c.isDigit = true := by
  unfold isNumeral at h
  split at h
  · exact Or.inl rfl
  · next c rest _ =>
      simp only [Bool.and_eq_true, decide_eq_true_eq, List.all_eq_true] at h
      obtain ⟨⟨hlo, hhi⟩, hrest⟩ := h
      obtain ⟨d, hd, hpos, hten⟩ := eq_digitChar_of_le hlo hhi
      refine Or.inr ⟨d, rest, by rw [hd], hpos, hten, ?_⟩
      intro x hx
      rcases List.mem_cons.mp hx with hxc | hx
      · rw [hxc, hd, Nat.isDigit_digitChar]
        exact decide_eq_true hten
      · exact hrest x hx
  · contradiction

theorem strtol_numeral {text : CString} (h : isNumeral text = true) :
    strtol 0 text =
      { value := min longMax (numeralValue text)
        rest := []
        erange := decide (longMax < numeralValue text) } := by
  rcases isNumeral_cases h with rfl | ⟨d, rest, htext, hpos, hten, hdigits⟩
  · decide
  · obtain ⟨hbase, hsign⟩ := takeBase_zero_digitChar rest hpos hten
    rw [← htext] at hbase hsign
    have hall : ∀ c ∈ text, isDigitOf 10 c = true := fun c hc =>
      isDigitOf_ten_of_isDigit (hdigits c hc)
    have htake : text.takeWhile (isDigitOf 10) = text := List.takeWhile_eq_self_iff.mpr hall
    have hdrop : text.dropWhile (isDigitOf 10) = [] := List.dropWhile_eq_nil_iff.mpr hall
    have hvalue : digitsValue 10 text = numeralValue text := digitsValue_ten_eq_ofDigitChars hdigits
    have hne : text ≠ [] := by
      rw [htext]
      exact List.cons_ne_nil _ _
    -- a numeral is not negative, so that only the upper end can clamp it
    have hmin : max longMin (min longMax (numeralValue text : ℤ)) =
        min longMax (numeralValue text) := by
      unfold longMin longMax
      omega
    have hlow : ¬ (numeralValue text : ℤ) < longMin := by
      unfold longMin
      omega
    simp only [strtol, hbase, hsign, htake, hdrop, hvalue, if_neg hne, Bool.false_eq_true, if_false,
      hmin]
    simp [hlow]

theorem varValueConvertToInteger_numeral {text : CString} (h : isNumeral text = true) :
    varValueConvertToInteger text =
      if longMax < numeralValue text then none else some (toInt32 (numeralValue text)) := by
  unfold varValueConvertToInteger
  rw [strtol_numeral h]
  by_cases hlong : longMax < (numeralValue text : ℤ)
  · simp [hlong]
  · have hmin : min longMax (numeralValue text : ℤ) = numeralValue text := by omega
    simp [hlong, hmin]

theorem toInt32_natCast_eq_iff (n : ℕ) : toInt32 n = n ↔ n < 2147483648 := by
  unfold toInt32
  constructor
  · intro h
    split at h <;> omega
  · intro h
    rw [if_pos (by omega)]
    omega

/-- Bounds are exact if and only if they fit into 31 bits or do not fit into 63. -/
theorem boundExact_iff (text : CString) (h : isNumeral text = true) :
    BoundExact text ↔
      numeralValue text < 2147483648 ∨ 9223372036854775808 ≤ numeralValue text := by
  have hconvert := varValueConvertToInteger_numeral h
  constructor
  · intro hexact
    by_contra hnot
    rw [not_or] at hnot
    have hlong : ¬ longMax < (numeralValue text : ℤ) := by
      unfold longMax
      omega
    rw [if_neg hlong] at hconvert
    rcases hexact.exact with hnone | hsome
    · rw [hconvert] at hnone
      contradiction
    · rw [hconvert, Option.some.injEq, toInt32_natCast_eq_iff] at hsome
      exact hnot.1 hsome
  · intro hfits
    refine ⟨?_, newBound_eq text⟩
    rw [hconvert]
    by_cases hlong : longMax < (numeralValue text : ℤ)
    · left
      rw [if_pos hlong]
    · right
      have hint : numeralValue text < 2147483648 := by
        unfold longMax at hlong
        omega
      rw [if_neg hlong, (toInt32_natCast_eq_iff _).mpr hint]

/-- The bound `12` is exact. -/
theorem boundExact_twelve : isNumeral "12".toList = true ∧
    (BoundExact "12".toList ↔ numeralValue "12".toList < 2147483648 ∨
      9223372036854775808 ≤ numeralValue "12".toList) :=
  ⟨by decide, boundExact_iff "12".toList (by decide)⟩

/-- The bound 2^32 + 1 is read as 1. -/
theorem boundExact_broken_at_4294967297 :
    ¬ ∀ text : CString, isNumeral text = true → BoundExact text := by
  intro h
  have hexact := (h "4294967297".toList (by decide)).exact
  revert hexact
  decide

end Mkfli4l
