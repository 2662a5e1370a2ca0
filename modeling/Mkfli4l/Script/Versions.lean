import Mkfli4l.Script.Relations

/-!
# Versions in check scripts

A version of a check script has two or three numbers.  `get_ver_num` (`parse.c`) takes the first
number from the first character and the second one from the third character, reads the third one
behind the fourth character, and adds them up with fixed weights.  So only versions whose numbers
are small enough are compared as they should be.
-/

namespace Mkfli4l
namespace Script

open Lib

/-! ## Reading numerals -/

/-- `[0-9]+` -/
def IsDigits (s : CString) : Prop := s ≠ [] ∧ ∀ c ∈ s, c.isDigit = true

theorem strtoul_digits {digits : CString} (h : IsDigits digits) :
    strtoul 10 digits = (min 18446744073709551615 (digitsValue 10 digits), []) := by
  have hsign := takeSign_digits [] h.1 h.2
  rw [List.append_nil] at hsign
  have hpos : ∀ c ∈ digits, isDigitOf 10 c = true := fun c hc => isDigitOf_ten_of_isDigit (h.2 c hc)
  have htake : digits.takeWhile (isDigitOf 10) = digits := List.takeWhile_eq_self_iff.mpr hpos
  have hdrop : digits.dropWhile (isDigitOf 10) = [] := List.dropWhile_eq_nil_iff.mpr hpos
  have hbase : (decide ((10 : ℕ) = 16)) = false := rfl
  have hvalue : (if 18446744073709551616 ≤ digitsValue 10 digits then 18446744073709551615
      else digitsValue 10 digits) = min 18446744073709551615 (digitsValue 10 digits) := by
    split <;> omega
  unfold strtoul
  simp only [hsign, hbase, Bool.false_and, Bool.false_eq_true, if_false]
  split <;> simp only [htake, hdrop, if_neg h.1, hvalue]

theorem convertToLong_digits {digits : CString} (h : IsDigits digits) :
    convertToLong digits = .ok (min 18446744073709551615 (digitsValue 10 digits)) := by
  have hhex : ¬ ['0', 'x'] <+: digits := by
    intro hstart
    exact absurd (h.2 'x' (hstart.subset (by simp))) (by decide)
  simp only [convertToLong, if_neg hhex, strtoul_digits h, if_true]

/-! ## Versions -/

/-- A token of the scanner rule `VER`, `[0-9]+\.[0-9]+(\.[0-9]+)?`. -/
structure Version where
  major : CString
  minor : CString
  sub : Option CString
  major_digits : IsDigits major
  minor_digits : IsDigits minor
  sub_digits : ∀ digits ∈ sub, IsDigits digits

namespace Version

/-- The text of a version. -/
def text (v : Version) : CString :=
  v.major ++ '.' :: (v.minor ++ v.sub.elim [] fun sub => '.' :: sub)

/-- The third number, which is zero where it is missing. -/
def subNumber (v : Version) : ℕ := v.sub.elim 0 (digitsValue 10)

/-- The order of the three numbers. -/
def compare (a b : Version) : Ordering :=
  (Ord.compare (digitsValue 10 a.major) (digitsValue 10 b.major)).then
    ((Ord.compare (digitsValue 10 a.minor) (digitsValue 10 b.minor)).then
      (Ord.compare a.subNumber b.subNumber))

/-- The first two numbers have no more than the given numbers of digits, and the third one is not
larger than `n`. -/
structure Within (v : Version) (majorDigits minorDigits n : ℕ) : Prop where
  major_length : v.major.length ≤ majorDigits
  minor_length : v.minor.length ≤ minorDigits
  subNumber_le : v.subNumber ≤ n

end Version

theorem exists_digit {digits : CString} (h : IsDigits digits) (hlen : digits.length ≤ 1) :
    ∃ c, digits = [c] ∧ c.isDigit = true ∧ digitsValue 10 digits < 10 ∧
      ((c.toNat : ℤ) - 48) = digitsValue 10 digits := by
  obtain ⟨c, rest, rfl⟩ := List.exists_cons_of_ne_nil h.1
  obtain rfl : rest = [] := List.eq_nil_of_length_eq_zero (by simpa using hlen)
  have hc : c.isDigit = true := h.2 c List.mem_cons_self
  obtain ⟨hvalue, hlt⟩ := digitValue_of_isDigit hc
  have hzero : '0'.toNat = 48 := rfl
  have hle : 48 ≤ c.toNat := by
    have hrange : '0' ≤ c ∧ c ≤ '9' := by simpa [Char.isDigit, Char.le_def] using hc
    exact hrange.1
  have heq : digitsValue 10 [c] = c.toNat - '0'.toNat := by simp [digitsValue, hvalue]
  refine ⟨c, rfl, hc, ?_, ?_⟩ <;> rw [heq] <;> omega

theorem getVerNum_of_digits {v : Version} (hmajor : v.major.length ≤ 1) (hminor : v.minor.length ≤ 1)
    (hsub : v.subNumber ≤ 999) :
    getVerNum v.text = .ok ((v.subNumber : ℤ) + digitsValue 10 v.minor * 1000 +
      digitsValue 10 v.major * 10000) := by
  obtain ⟨c, hc, -, hclt, hcvalue⟩ := exists_digit v.major_digits hmajor
  obtain ⟨d, hd, -, hdlt, hdvalue⟩ := exists_digit v.minor_digits hminor
  have hint : toInt32 ((v.subNumber : ℤ) + ((d.toNat : ℤ) - 48) * 1000 + ((c.toNat : ℤ) - 48) * 10000)
      = (v.subNumber : ℤ) + digitsValue 10 v.minor * 1000 + digitsValue 10 v.major * 10000 := by
    rw [hcvalue, hdvalue]
    exact toInt32_of_range (by omega) (by omega)
  rw [← hint, Version.text, hc, hd]
  cases hthird : v.sub with
  | none =>
      have hzero : v.subNumber = 0 := by rw [Version.subNumber, hthird, Option.elim_none]
      rw [hzero]
      rfl
  | some sub =>
      have hnumber : v.subNumber = digitsValue 10 sub := by
        rw [Version.subNumber, hthird, Option.elim_some]
      have hread := convertToLong_digits (v.sub_digits sub hthird)
      rw [← hnumber, Nat.min_eq_right (by omega)] at hread
      change (do
        let sub ← convertToLong sub
        pure (toInt32 (sub + ((d.toNat : ℤ) - 48) * 1000 + ((c.toNat : ℤ) - 48) * 10000)) :
          Except Fatal ℤ) = _
      rw [hread]
      rfl

theorem compare_packed (M M' : ℕ) {m m' s s' : ℕ} (hm : m < 10) (hm' : m' < 10) (hs : s ≤ 999)
    (hs' : s' ≤ 999) :
    compare ((s : ℤ) + m * 1000 + M * 10000) ((s' : ℤ) + m' * 1000 + M' * 10000) =
      (compare M M').then ((compare m m').then (compare s s')) := by
  rcases lt_trichotomy M M' with hlt | rfl | hgt
  · rw [compare_lt_iff_lt.mpr hlt, Ordering.lt_then, compare_lt_iff_lt]
    omega
  · rcases lt_trichotomy m m' with hlt | rfl | hgt
    · rw [compare_eq_iff_eq.mpr rfl, compare_lt_iff_lt.mpr hlt, Ordering.eq_then, Ordering.lt_then,
        compare_lt_iff_lt]
      omega
    · rw [compare_eq_iff_eq.mpr rfl, compare_eq_iff_eq.mpr rfl, Ordering.eq_then, Ordering.eq_then]
      rcases lt_trichotomy s s' with hlt | rfl | hgt
      · rw [compare_lt_iff_lt.mpr hlt, compare_lt_iff_lt]
        omega
      · rw [compare_eq_iff_eq.mpr rfl, compare_eq_iff_eq.mpr rfl]
      · rw [compare_gt_iff_gt.mpr hgt, compare_gt_iff_gt]
        omega
    · rw [compare_eq_iff_eq.mpr rfl, compare_gt_iff_gt.mpr hgt, Ordering.eq_then, Ordering.gt_then,
        compare_gt_iff_gt]
      omega
  · rw [compare_gt_iff_gt.mpr hgt, Ordering.gt_then, compare_gt_iff_gt]
    omega

theorem valVercmp_of_within {a b : Version} (ha : a.Within 1 1 999) (hb : b.Within 1 1 999) :
    valVercmp a.text b.text = .ok (a.compare b) := by
  obtain ⟨-, -, -, hma, -⟩ := exists_digit a.minor_digits ha.minor_length
  obtain ⟨-, -, -, hmb, -⟩ := exists_digit b.minor_digits hb.minor_length
  have hpacked := compare_packed (digitsValue 10 a.major) (digitsValue 10 b.major) hma hmb
    ha.subNumber_le hb.subNumber_le
  unfold valVercmp
  rw [getVerNum_of_digits ha.major_length ha.minor_length ha.subNumber_le,
    getVerNum_of_digits hb.major_length hb.minor_length hb.subNumber_le]
  exact congrArg Except.ok hpacked

/-- A version of three numerals, by evaluation. -/
def versionOf (major minor : String) (sub : Option String)
    (h : ∀ s ∈ major :: minor :: sub.toList, s.toList ≠ [] ∧ ∀ c ∈ s.toList, c.isDigit = true) :
    Version where
  major := major.toList
  minor := minor.toList
  sub := sub.map String.toList
  major_digits := h major (by simp)
  minor_digits := h minor (by simp)
  sub_digits := by
    intro digits hdigits
    obtain ⟨s, hs, rfl⟩ := Option.mem_map.mp hdigits
    exact h s (by simpa using Or.inr (Or.inr hs))

/-- `10.0`, `2.0`, `1.10`, `1.2`, `1.0.1000` and `1.1`. -/
def version10_0 : Version := versionOf "10" "0" none (by simp)
def version2_0 : Version := versionOf "2" "0" none (by simp)
def version1_10 : Version := versionOf "1" "10" none (by simp)
def version1_2 : Version := versionOf "1" "2" none (by simp)
def version1_0_1000 : Version := versionOf "1" "0" (some "1000") (by simp)
def version1_1 : Version := versionOf "1" "1" none (by simp)

/-- `val_vercmp` compares all versions up to a given size as it should if and only if the first two
numbers are limited to one digit and the third one to 999. -/
theorem valVercmp_right_iff {majorDigits minorDigits n : ℕ} (hmajor : 1 ≤ majorDigits)
    (hminor : 1 ≤ minorDigits) :
    (∀ a b : Version, a.Within majorDigits minorDigits n → b.Within majorDigits minorDigits n →
        valVercmp a.text b.text = .ok (a.compare b)) ↔
      majorDigits = 1 ∧ minorDigits = 1 ∧ n ≤ 999 := by
  constructor
  · intro h
    refine ⟨?_, ?_, ?_⟩
    · by_contra hne
      have hright := h version10_0 version2_0 ⟨by change 2 ≤ _; omega, hminor, Nat.zero_le n⟩
        ⟨hmajor, hminor, Nat.zero_le n⟩
      exact absurd hright (by decide)
    · by_contra hne
      have hright := h version1_10 version1_2 ⟨hmajor, by change 2 ≤ _; omega, Nat.zero_le n⟩
        ⟨hmajor, hminor, Nat.zero_le n⟩
      exact absurd hright (by decide)
    · by_contra hlarge
      have hright := h version1_0_1000 version1_1
        ⟨hmajor, hminor, by change 1000 ≤ n; omega⟩ ⟨hmajor, hminor, Nat.zero_le n⟩
      exact absurd hright (by decide)
  · rintro ⟨rfl, rfl, hn⟩ a b ha hb
    exact valVercmp_of_within ⟨ha.major_length, ha.minor_length, ha.subNumber_le.trans hn⟩
      ⟨hb.major_length, hb.minor_length, hb.subNumber_le.trans hn⟩

/-- `1.2` and `1.1` are compared as they should. -/
theorem valVercmp_right_1_2 :
    valVercmp version1_2.text version1_1.text = .ok (version1_2.compare version1_1) :=
  (valVercmp_right_iff (Nat.le_refl 1) (Nat.le_refl 1)).mpr ⟨rfl, rfl, Nat.le_refl 999⟩
    version1_2 version1_1 ⟨Nat.le_refl 1, Nat.le_refl 1, Nat.zero_le 999⟩
    ⟨Nat.le_refl 1, Nat.le_refl 1, Nat.zero_le 999⟩

/-- `10.0` comes out before `2.0`. -/
theorem valVercmp_wrong :
    ¬ ∀ a b : Version, valVercmp a.text b.text = .ok (a.compare b) := by
  intro h
  have hlt : valVercmp version10_0.text version2_0.text = .ok .lt := by decide
  have hgt : version10_0.compare version2_0 = .gt := by decide
  have hright := h version10_0 version2_0
  rw [hlt, hgt] at hright
  exact absurd hright (by decide)

end Script
end Mkfli4l
