import Mkfli4l.Lib.CNumber

/-!
# Hexadecimal numbers in C text

`strtol` in base 16 reads back what has been written in hexadecimal digits.
-/

namespace Mkfli4l
namespace Lib

theorem digitValue_digitChar {d : ℕ} (hd : d < 16) : digitValue (Nat.digitChar d) = some d := by
  have hall : ∀ d < 16, digitValue (Nat.digitChar d) = some d := by decide
  exact hall d hd

theorem isDigitOf_digitChar {d : ℕ} (hd : d < 16) : isDigitOf 16 (Nat.digitChar d) = true := by
  unfold isDigitOf
  rw [digitValue_digitChar hd]
  exact decide_eq_true hd

theorem exists_of_mem_toDigits {n : ℕ} {c : Char} (hc : c ∈ Nat.toDigits 16 n) :
    ∃ d < 16, c = Nat.digitChar d := by
  induction n using Nat.strong_induction_on with
  | _ n ih =>
      by_cases hlt : n < 16
      · rw [Nat.toDigits_of_lt_base hlt, List.mem_singleton] at hc
        exact ⟨n, hlt, hc⟩
      · rw [Nat.toDigits_of_base_le (by omega) (by omega), List.mem_append, List.mem_singleton] at hc
        rcases hc with hc | rfl
        · exact ih (n / 16) (by omega) hc
        · exact ⟨n % 16, Nat.mod_lt n (by omega), rfl⟩

theorem digitsValue_append (base : ℕ) (digits : CString) (c : Char) :
    digitsValue base (digits ++ [c]) = digitsValue base digits * base + (digitValue c).getD 0 := by
  unfold digitsValue
  rw [List.foldl_append]
  rfl

theorem digitsValue_toDigits_hex (n : ℕ) : digitsValue 16 (Nat.toDigits 16 n) = n := by
  induction n using Nat.strong_induction_on with
  | _ n ih =>
      by_cases hlt : n < 16
      · rw [Nat.toDigits_of_lt_base hlt]
        show 0 * 16 + (digitValue (Nat.digitChar n)).getD 0 = n
        rw [digitValue_digitChar hlt]
        simp
      · have hmod := Nat.mod_lt n (show 16 > 0 by omega)
        rw [Nat.toDigits_of_base_le (by omega) (by omega), digitsValue_append, ih (n / 16) (by omega),
          digitValue_digitChar hmod]
        show n / 16 * 16 + n % 16 = n
        omega

theorem takeSign_digitChar {d : ℕ} (hd : d < 16) (rest : CString) :
    takeSign ((Nat.digitChar d :: rest).dropWhile isSpaceC) = (false, Nat.digitChar d :: rest) := by
  have hall : ∀ d < 16, isSpaceC (Nat.digitChar d) = false ∧ Nat.digitChar d ≠ '-' ∧
      Nat.digitChar d ≠ '+' := by decide
  obtain ⟨hspace, hminus, hplus⟩ := hall d hd
  rw [List.dropWhile_cons, if_neg (by rw [hspace]; exact Bool.false_ne_true)]
  simp [takeSign, hminus, hplus]

theorem strtol_toDigits_hex {n : ℕ} (hmax : (n : ℤ) ≤ longMax) {rest : CString}
    (hrest : rest.takeWhile (isDigitOf 16) = []) :
    strtol 16 (Nat.toDigits 16 n ++ rest) = ⟨n, rest, false⟩ := by
  have hdigits : ∀ c ∈ Nat.toDigits 16 n, isDigitOf 16 c = true := by
    intro c hc
    obtain ⟨d, hd, rfl⟩ := exists_of_mem_toDigits hc
    exact isDigitOf_digitChar hd
  have htake : (Nat.toDigits 16 n ++ rest).takeWhile (isDigitOf 16) = Nat.toDigits 16 n := by
    rw [List.takeWhile_append_of_pos hdigits, hrest, List.append_nil]
  have hdrop : (Nat.toDigits 16 n ++ rest).dropWhile (isDigitOf 16) = rest := by
    rw [List.dropWhile_append_of_pos hdigits]
    simpa [hrest] using List.takeWhile_append_dropWhile (p := isDigitOf 16) (l := rest)
  have hsign : takeSign ((Nat.toDigits 16 n ++ rest).dropWhile isSpaceC) =
      (false, Nat.toDigits 16 n ++ rest) := by
    obtain ⟨c, tail, hcons⟩ := List.exists_cons_of_ne_nil (Nat.toDigits_ne_nil (n := n) (b := 16))
    obtain ⟨d, hd, rfl⟩ := exists_of_mem_toDigits (show c ∈ Nat.toDigits 16 n by simp [hcons])
    rw [hcons]
    exact takeSign_digitChar hd (tail ++ rest)
  have hclamp : max longMin (min longMax (n : ℤ)) = n := by
    unfold longMin
    omega
  have hrange : ¬ ((n : ℤ) < longMin ∨ longMax < n) := by
    unfold longMin
    omega
  simp only [strtol, hsign, takeBase, if_neg (show ¬ 16 = 0 by decide), htake, hdrop,
    if_neg Nat.toDigits_ne_nil, Bool.false_eq_true, if_false, digitsValue_toDigits_hex, hclamp]
  simp [hrange]

end Lib
end Mkfli4l
