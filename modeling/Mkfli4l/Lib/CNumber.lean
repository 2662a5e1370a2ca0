import Mathlib.Data.List.TakeWhile
import Mathlib.Tactic

/-!
# Numbers in C text

The conversions between text and machine integers that C programs take from the
standard library, for a 64-bit `long` and a 32-bit `int`: `strtol` with its end
pointer and range error, `atoi`, the conversion of a `long` to an `int`, and the
`%d` directive of `printf`.  A C string is the list of its characters before the
terminating NUL.
-/

namespace Mkfli4l
namespace Lib

/-- A C string without its terminating NUL. -/
abbrev CString := List Char

/-- Largest `long`. -/
def longMax : Int := 9223372036854775807

/-- Smallest `long`. -/
def longMin : Int := -9223372036854775808

/-- Conversion of a `long` to a 32-bit `int`, which keeps the low 32 bits. -/
def toInt32 (n : Int) : Int :=
  if n % 4294967296 < 2147483648 then n % 4294967296 else n % 4294967296 - 4294967296

/-- Conversion of an `int` to a 32-bit `unsigned`. -/
def toUInt32 (n : Int) : UInt32 := UInt32.ofNat (n % 4294967296).toNat

/-- Conversion of a 32-bit `unsigned` to an `int`. -/
def uint32ToInt (n : UInt32) : Int := toInt32 n.toNat

/-- `isspace` in the C locale. -/
def isSpaceC (c : Char) : Bool :=
  c == ' ' || c == '\t' || c == '\n' || c == '\x0b' || c == '\x0c' || c == '\r'

/-- The value of a digit or letter as a digit of some base up to 36. -/
def digitValue (c : Char) : Option Nat :=
  if '0' ≤ c ∧ c ≤ '9' then some (c.toNat - '0'.toNat)
  else if 'a' ≤ c ∧ c ≤ 'z' then some (c.toNat - 'a'.toNat + 10)
  else if 'A' ≤ c ∧ c ≤ 'Z' then some (c.toNat - 'A'.toNat + 10)
  else none

/-- Is `c` a digit of the given base? -/
def isDigitOf (base : Nat) (c : Char) : Bool :=
  match digitValue c with
  | some d => decide (d < base)
  | none => false

/-- Value of a string of digits. -/
def digitsValue (base : Nat) (digits : CString) : Nat :=
  digits.foldl (fun acc c => acc * base + (digitValue c).getD 0) 0

/-- What `strtol` reports: the clamped value, the text from the end pointer on,
and whether `errno` is `ERANGE`. -/
structure StrtolResult where
  value : Int
  rest : CString
  erange : Bool
deriving DecidableEq, Repr

/-- An optional sign in front of the digits. -/
def takeSign : CString → Bool × CString
  | '-' :: s => (true, s)
  | '+' :: s => (false, s)
  | s => (false, s)

/-- The base and the digits to read.  For base `0` a prefix `0x` in front of a
hexadecimal digit selects base 16 and a leading `0` selects base 8. -/
def takeBase (base : Nat) (s : CString) : Nat × CString :=
  if base = 0 then
    match s with
    | '0' :: x :: c :: rest =>
        if (x == 'x' || x == 'X') && isDigitOf 16 c then (16, c :: rest) else (8, s)
    | '0' :: _ => (8, s)
    | _ => (10, s)
  else
    (base, s)

/-- `strtol (s, &rest, base)` with `errno` cleared before the call. -/
def strtol (base : Nat) (s : CString) : StrtolResult :=
  let signed := takeSign (s.dropWhile isSpaceC)
  let based := takeBase base signed.2
  let digits := based.2.takeWhile (isDigitOf based.1)
  if digits = [] then
    { value := 0, rest := s, erange := false }
  else
    let magnitude : Int := digitsValue based.1 digits
    let n := if signed.1 then -magnitude else magnitude
    { value := max longMin (min longMax n)
      rest := based.2.dropWhile (isDigitOf based.1)
      erange := decide (n < longMin ∨ longMax < n) }

def atoi (s : CString) : Int := toInt32 (strtol 10 s).value

/-- `sscanf (s, "%d", &n)`: the number, if at least one digit follows the blanks and the sign. -/
def scanInt (s : CString) : Option Int :=
  let signed := takeSign (s.dropWhile isSpaceC)
  if signed.2.takeWhile (isDigitOf 10) = [] then none else some (toInt32 (strtol 10 s).value)

/-- `sscanf (s, "%o", &n)` into an `int`.  The number is read as an `unsigned long`, which negates
behind a minus sign and clamps what is too large. -/
def scanOctal (s : CString) : Option Int :=
  let signed := takeSign (s.dropWhile isSpaceC)
  let digits := signed.2.takeWhile (isDigitOf 8)
  if digits = [] then none
  else
    let magnitude := digitsValue 8 digits
    if 18446744073709551615 < magnitude then some (toInt32 18446744073709551615)
    else some (toInt32 (if signed.1 then -magnitude else magnitude))

/-- `printf "%d"`. -/
def formatInt (n : Int) : CString :=
  if n < 0 then '-' :: Nat.toDigits 10 n.natAbs else Nat.toDigits 10 n.natAbs

/-- Does the text match `0|[1-9][0-9]*`? -/
def isNumeral : CString → Bool
  | ['0'] => true
  | c :: rest => '1' ≤ c && c ≤ '9' && rest.all Char.isDigit
  | [] => false

/-! ### Machine integers -/

variable {n : Int} {c : Char} {digits : CString}

theorem toInt32_of_range (hlo : -2147483648 ≤ n) (hhi : n < 2147483648) : toInt32 n = n := by
  unfold toInt32
  split <;> omega

theorem toInt32_natCast_le (n : ℕ) : toInt32 n ≤ n := by
  unfold toInt32
  split <;> omega

theorem toInt32_add (n m : Int) : toInt32 (toInt32 n + m) = toInt32 (n + m) := by
  have hmod : (toInt32 n + m) % 4294967296 = (n + m) % 4294967296 := by
    unfold toInt32
    split <;> omega
  unfold toInt32 at hmod ⊢
  rw [hmod]

theorem uint32ToInt_of_lt {n : UInt32} (h : n.toNat < 2147483648) :
    uint32ToInt n = n.toNat :=
  toInt32_of_range (by omega) (by omega)

theorem uint32ToInt_of_ge {n : UInt32} (h : 2147483648 ≤ n.toNat) :
    uint32ToInt n = (n.toNat : Int) - 4294967296 := by
  have hlt : n.toNat < 4294967296 := n.toNat_lt
  unfold uint32ToInt toInt32
  split <;> omega

theorem toUInt32_uint32ToInt_sub_one (n : UInt32) :
    toUInt32 (uint32ToInt (n + 1) - 1) = n := by
  have hlt : n.toNat < 4294967296 := n.toNat_lt
  have hsucc : (n + 1).toNat = (n.toNat + 1) % 4294967296 := by
    rw [UInt32.toNat_add]
    rfl
  apply UInt32.toNat_inj.mp
  unfold toUInt32
  rw [UInt32.toNat_ofNat']
  by_cases hsmall : (n + 1).toNat < 2147483648
  · rw [uint32ToInt_of_lt hsmall]
    omega
  · rw [uint32ToInt_of_ge (by omega)]
    omega

theorem toNat_toUInt32 (hlo : 0 ≤ n) (hhi : n < 4294967296) : ((toUInt32 n).toNat : Int) = n := by
  unfold toUInt32
  rw [UInt32.toNat_ofNat']
  omega

/-! ### Reading back a printed number -/

theorem digitValue_of_isDigit (h : c.isDigit = true) :
    digitValue c = some (c.toNat - '0'.toNat) ∧ c.toNat - '0'.toNat < 10 := by
  have hc : '0' ≤ c ∧ c ≤ '9' := by
    simpa [Char.isDigit, Char.le_def] using h
  refine ⟨by simp [digitValue, hc], ?_⟩
  have hle : c.toNat ≤ '9'.toNat := hc.2
  have h9 : '9'.toNat = 57 := rfl
  have h0 : '0'.toNat = 48 := rfl
  omega

theorem isDigitOf_ten_of_isDigit (h : c.isDigit = true) : isDigitOf 10 c = true := by
  obtain ⟨hval, hlt⟩ := digitValue_of_isDigit h
  simp only [isDigitOf, hval]
  exact decide_eq_true hlt

theorem isDigit_of_isDigitOf_ten (h : isDigitOf 10 c = true) : c.isDigit = true := by
  by_contra hnot
  have hrange : ¬ ('0' ≤ c ∧ c ≤ '9') := by
    simpa [Char.isDigit, Char.le_def] using hnot
  have hletter : digitValue c = none ∨ ∃ d, digitValue c = some (d + 10) := by
    unfold digitValue
    rw [if_neg hrange]
    split
    · exact Or.inr ⟨_, rfl⟩
    · split
      · exact Or.inr ⟨_, rfl⟩
      · exact Or.inl rfl
  unfold isDigitOf at h
  rcases hletter with hnone | ⟨d, hd⟩
  · rw [hnone] at h
    contradiction
  · rw [hd] at h
    simp at h

theorem digitsValue_ten_eq_ofDigitChars (h : ∀ c ∈ digits, c.isDigit = true) :
    digitsValue 10 digits = Nat.ofDigitChars 10 digits 0 := by
  suffices hgen : ∀ acc : Nat,
      digits.foldl (fun acc c => acc * 10 + (digitValue c).getD 0) acc =
        Nat.ofDigitChars 10 digits acc from hgen 0
  induction digits with
  | nil => intro acc; simp
  | cons c digits ih =>
      intro acc
      have hval := (digitValue_of_isDigit (h c List.mem_cons_self)).1
      rw [List.foldl_cons, hval, Nat.ofDigitChars_cons, Option.getD_some, Nat.mul_comm acc 10]
      exact ih (fun d hd => h d (List.mem_cons_of_mem c hd)) _

theorem takeSign_digits (rest : CString) (hne : digits ≠ [])
    (hdigits : ∀ c ∈ digits, c.isDigit = true) :
    takeSign ((digits ++ rest).dropWhile isSpaceC) = (false, digits ++ rest) := by
  obtain ⟨c, tail, rfl⟩ := List.exists_cons_of_ne_nil hne
  have hc : c.isDigit = true := hdigits c List.mem_cons_self
  have hrange : 48 ≤ c.val.toNat ∧ c.val.toNat ≤ 57 := by
    simpa [Char.isDigit, UInt32.le_iff_toNat_le] using hc
  have hchar : ∀ d : Char, d.val.toNat < 48 → c ≠ d := by
    rintro d hd rfl
    omega
  have hspace : isSpaceC c = false := by
    simp only [isSpaceC, Bool.or_eq_false_iff, beq_eq_false_iff_ne]
    exact ⟨⟨⟨⟨⟨hchar _ (by decide), hchar _ (by decide)⟩, hchar _ (by decide)⟩,
      hchar _ (by decide)⟩, hchar _ (by decide)⟩, hchar _ (by decide)⟩
  have hminus := hchar '-' (by decide)
  have hplus := hchar '+' (by decide)
  rw [List.cons_append, List.dropWhile_cons, if_neg (by simp [hspace])]
  simp [takeSign, hminus, hplus]

theorem strtol_digits (rest : CString) (hne : digits ≠ [])
    (hdigits : ∀ c ∈ digits, c.isDigit = true) (hrest : rest.takeWhile (isDigitOf 10) = []) :
    strtol 10 (digits ++ rest) =
      { value := min longMax (digitsValue 10 digits)
        rest := rest
        erange := decide (longMax < digitsValue 10 digits) } := by
  have hsign := takeSign_digits rest hne hdigits
  have hpos : ∀ c ∈ digits, isDigitOf 10 c = true := fun c hc =>
    isDigitOf_ten_of_isDigit (hdigits c hc)
  have htake : (digits ++ rest).takeWhile (isDigitOf 10) = digits := by
    rw [List.takeWhile_append_of_pos hpos, hrest, List.append_nil]
  have hdrop : (digits ++ rest).dropWhile (isDigitOf 10) = rest := by
    rw [List.dropWhile_append_of_pos hpos]
    simpa [hrest] using List.takeWhile_append_dropWhile (p := isDigitOf 10) (l := rest)
  have hclamp : max longMin (min longMax (digitsValue 10 digits : Int)) =
      min longMax (digitsValue 10 digits) := by
    unfold longMin longMax
    omega
  have hlow : ¬ (digitsValue 10 digits : Int) < longMin := by
    unfold longMin
    omega
  simp only [strtol, hsign, takeBase, if_neg (by decide : ¬ (10 : Nat) = 0), htake, hdrop,
    if_neg hne, Bool.false_eq_true, if_false, hclamp]
  simp [hlow]

theorem formatInt_natCast (n : Nat) : formatInt n = Nat.toDigits 10 n := by
  unfold formatInt
  rw [if_neg (by omega), Int.natAbs_natCast]

theorem digitsValue_toDigits (n : Nat) : digitsValue 10 (Nat.toDigits 10 n) = n := by
  rw [digitsValue_ten_eq_ofDigitChars fun c hc =>
    Nat.isDigit_of_mem_toDigits (by omega) (by omega) hc]
  exact Nat.ofDigitChars_ten_toDigits

theorem formatInt_injective : Function.Injective formatInt := by
  have hnumeral : ∀ a b : Nat, Nat.toDigits 10 a = Nat.toDigits 10 b → a = b := by
    intro a b hab
    have hvalues := congrArg (digitsValue 10) hab
    rwa [digitsValue_toDigits, digitsValue_toDigits] at hvalues
  have hminus : ∀ (a : Nat) (s : CString), Nat.toDigits 10 a ≠ '-' :: s := by
    intro a s h
    have hdigit : Char.isDigit '-' = true :=
      Nat.isDigit_of_mem_toDigits (b := 10) (n := a) (by decide) (by decide) (h ▸ List.mem_cons_self)
    exact absurd hdigit (by decide)
  intro n m h
  unfold formatInt at h
  split_ifs at h with hn hm hm
  · have habs := hnumeral _ _ (List.cons.inj h).2
    omega
  · exact absurd h.symm (hminus _ _)
  · exact absurd h (hminus _ _)
  · have habs := hnumeral _ _ h
    omega

theorem toDigits_cons_of_pos {n : Nat} (h : 0 < n) :
    ∃ d rest, Nat.toDigits 10 n = Nat.digitChar d :: rest ∧ 0 < d ∧ d < 10 := by
  induction n using Nat.strong_induction_on with
  | _ n ih =>
      by_cases hlt : n < 10
      · exact ⟨n, [], Nat.toDigits_of_lt_base hlt, h, hlt⟩
      · obtain ⟨d, rest, hd, hpos, hten⟩ := ih (n / 10) (by omega) (by omega)
        refine ⟨d, rest ++ [Nat.digitChar (n % 10)], ?_, hpos, hten⟩
        rw [Nat.toDigits_of_base_le (by omega) (by omega), hd]
        rfl

theorem takeWhile_isDigitOf_toDigits (n : Nat) :
    (Nat.toDigits 10 n).takeWhile (isDigitOf 10) = Nat.toDigits 10 n ∧
      (Nat.toDigits 10 n).dropWhile (isDigitOf 10) = [] := by
  have hall : ∀ c ∈ Nat.toDigits 10 n, isDigitOf 10 c = true := fun c hc =>
    isDigitOf_ten_of_isDigit (Nat.isDigit_of_mem_toDigits (by omega) (by omega) hc)
  exact ⟨List.takeWhile_eq_self_iff.mpr hall, List.dropWhile_eq_nil_iff.mpr hall⟩

theorem takeBase_zero_digitChar {d : Nat} (rest : CString) (hpos : 0 < d) (hten : d < 10) :
    takeBase 0 (takeSign ((Nat.digitChar d :: rest).dropWhile isSpaceC)).2 =
        (10, Nat.digitChar d :: rest) ∧
      (takeSign ((Nat.digitChar d :: rest).dropWhile isSpaceC)).1 = false := by
  have hd : d = 1 ∨ d = 2 ∨ d = 3 ∨ d = 4 ∨ d = 5 ∨ d = 6 ∨ d = 7 ∨ d = 8 ∨ d = 9 := by omega
  rcases hd with rfl | rfl | rfl | rfl | rfl | rfl | rfl | rfl | rfl <;>
    simp [Nat.digitChar, isSpaceC, takeSign, takeBase]

theorem strtol_formatInt (hlo : 0 ≤ n) (hhi : n ≤ longMax) :
    strtol 0 (formatInt n) = { value := n, rest := [], erange := false } := by
  have hneg : ¬ n < 0 := by omega
  have hmag : ((n.natAbs : Nat) : Int) = n := by omega
  by_cases hzero : n = 0
  · subst hzero
    decide
  · obtain ⟨d, rest, hdigits, hpos, hten⟩ := toDigits_cons_of_pos (n := n.natAbs) (by omega)
    obtain ⟨hbase, hsign⟩ := takeBase_zero_digitChar rest hpos hten
    obtain ⟨htake, hdrop⟩ := takeWhile_isDigitOf_toDigits n.natAbs
    have hval := digitsValue_toDigits n.natAbs
    rw [hdigits] at htake hdrop hval
    have hmax : max longMin (min longMax n) = n := by
      have : longMin ≤ n := by unfold longMin; omega
      omega
    have hrange : ¬ (n < longMin ∨ longMax < n) := by unfold longMin; omega
    simp only [strtol, formatInt, if_neg hneg, hdigits, hbase, hsign, htake, hdrop, hval,
      hmag, List.cons_ne_nil, if_false, Bool.false_eq_true, hmax]
    simp [hrange]

theorem isNumeral_toDigits (n : Nat) : isNumeral (Nat.toDigits 10 n) = true := by
  rcases Nat.eq_zero_or_pos n with rfl | hpos
  · rfl
  · obtain ⟨d, rest, hdigits, hd, hten⟩ := toDigits_cons_of_pos hpos
    have hrest : rest.all Char.isDigit = true := by
      rw [List.all_eq_true]
      intro c hc
      exact Nat.isDigit_of_mem_toDigits (n := n) (by omega) (by omega)
        (hdigits ▸ List.mem_cons_of_mem _ hc)
    rw [hdigits]
    have hcases : d = 1 ∨ d = 2 ∨ d = 3 ∨ d = 4 ∨ d = 5 ∨ d = 6 ∨ d = 7 ∨ d = 8 ∨ d = 9 := by
      omega
    rcases hcases with rfl | rfl | rfl | rfl | rfl | rfl | rfl | rfl | rfl <;>
      simp [isNumeral, Nat.digitChar, hrest]

theorem isNumeral_formatInt (n : Int) : isNumeral (formatInt n) = decide (0 ≤ n) := by
  by_cases hneg : n < 0
  · have hnot : ¬ 0 ≤ n := by omega
    simp only [formatInt, if_pos hneg, hnot, decide_false]
    cases Nat.toDigits 10 n.natAbs <;> rfl
  · have hle : 0 ≤ n := by omega
    simp only [formatInt, if_neg hneg, hle, decide_true]
    exact isNumeral_toDigits n.natAbs

/-! ### Decimal numbers as `unsigned` -/

theorem digitsValue_lt {base : Nat} (h : ∀ c ∈ digits, isDigitOf base c = true) :
    digitsValue base digits < base ^ digits.length := by
  suffices hgen : ∀ acc : Nat, digits.foldl (fun acc c => acc * base + (digitValue c).getD 0) acc <
      (acc + 1) * base ^ digits.length by
    have hstart := hgen 0
    rw [Nat.zero_add, Nat.one_mul] at hstart
    exact hstart
  induction digits with
  | nil => intro acc; simp
  | cons c digits ih =>
      intro acc
      have hdigit : (digitValue c).getD 0 < base := by
        have hc := h c List.mem_cons_self
        unfold isDigitOf at hc
        cases hvalue : digitValue c with
        | none =>
            rw [hvalue] at hc
            contradiction
        | some d =>
            rw [hvalue] at hc
            exact of_decide_eq_true hc
      have hrest := ih (fun d hd => h d (List.mem_cons_of_mem c hd)) (acc * base + (digitValue c).getD 0)
      calc
        (c :: digits).foldl (fun acc c => acc * base + (digitValue c).getD 0) acc
            < (acc * base + (digitValue c).getD 0 + 1) * base ^ digits.length := hrest
        _ ≤ (acc + 1) * base * base ^ digits.length := by
            refine Nat.mul_le_mul_right _ ?_
            rw [Nat.add_mul, Nat.one_mul]
            omega
        _ = (acc + 1) * base ^ (c :: digits).length := by
            rw [List.length_cons, Nat.pow_succ, Nat.mul_assoc, Nat.mul_comm base]

theorem toNat_toUInt32_atoi (rest : CString) (hne : digits ≠ [])
    (hdigits : ∀ c ∈ digits, c.isDigit = true) (hrest : rest.takeWhile (isDigitOf 10) = []) :
    ((toUInt32 (atoi (digits ++ rest))).toNat : Int) = min longMax (digitsValue 10 digits) % 4294967296 := by
  rw [atoi, strtol_digits rest hne hdigits hrest]
  unfold toUInt32 toInt32
  rw [UInt32.toNat_ofNat']
  dsimp only
  split <;> omega

theorem toUInt32_atoi_toDigits (n : UInt32) : toUInt32 (atoi (Nat.toDigits 10 n.toNat)) = n := by
  have hlt : n.toNat < 4294967296 := n.toNat_lt
  have hdigits : ∀ c ∈ Nat.toDigits 10 n.toNat, c.isDigit = true := fun c hc =>
    Nat.isDigit_of_mem_toDigits (by omega) (by omega) hc
  have hread := toNat_toUInt32_atoi [] Nat.toDigits_ne_nil hdigits rfl
  have hmin : min longMax (n.toNat : Int) = n.toNat := by
    unfold longMax
    omega
  rw [List.append_nil, digitsValue_toDigits, hmin] at hread
  apply UInt32.toNat_inj.mp
  omega

theorem length_toDigits_atoi_le (rest : CString) (hne : digits ≠ [])
    (hdigits : ∀ c ∈ digits, c.isDigit = true) (hrest : rest.takeWhile (isDigitOf 10) = []) :
    (Nat.toDigits 10 (toUInt32 (atoi (digits ++ rest))).toNat).length ≤ digits.length := by
  have hread := toNat_toUInt32_atoi rest hne hdigits hrest
  have hlt := digitsValue_lt fun c hc => isDigitOf_ten_of_isDigit (hdigits c hc)
  refine (Nat.length_toDigits_le_iff (by decide) (List.length_pos_of_ne_nil hne)).mpr ?_
  have hlong : longMax = 9223372036854775807 := rfl
  omega

end Lib
end Mkfli4l
