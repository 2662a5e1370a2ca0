import Mathlib
import Mkfli4l.Lib.LeadingBits
import Mkfli4l.Script.Relations

/-!
# Comparing networks

`samenet` and `subnet` compare two networks of a check script.  A network is an IPv4 address, with a number
of bits or with a netmask in dotted notation behind it, or with nothing, and denotes the addresses that
share as many leading bits.

A dotted netmask is turned into a number of bits by a trick with the two's complement.  The type `u32` has
64 bits, and the trick fails for all netmasks but `0.0.0.0`: they count as no bits at all.
`networks_right_iff` says for which pairs the two verdicts are right nevertheless.
-/

namespace Mkfli4l
namespace Script

open Lib

/-! ## Reading a network -/

/-- `u32`, an `unsigned long`. -/
abbrev U32 := BitVec 64

/-- The digits of one part of an address: the value, which starts with the digits before, and what
follows the digits.  A value above 255 is no part of an address. -/
def readPart : ℕ → CString → Option (ℕ × CString)
  | value, c :: cp =>
      if c.isDigit then
        let value := value * 10 + (c.toNat - '0'.toNat)
        if 255 < value then none else readPart value cp
      else some (value, c :: cp)
  | value, [] => some (value, [])

/-- One part of an address, which begins with a digit. -/
def readFirst : CString → Option (ℕ × CString)
  | c :: cp => if c.isDigit then readPart 0 (c :: cp) else none
  | [] => none

/-- The loop of `my_inet_aton`, with the number of parts that are followed by a dot. -/
def inetLoop : ℕ → U32 → CString → Option U32
  | 0, addr, cp =>
      match readFirst cp with
      | some (value, rest) =>
          if (rest.head?.map isSpaceC).getD true then some (addr <<< 8 ||| BitVec.ofNat 64 value)
          else none
      | none => none
  | parts + 1, addr, cp =>
      match readFirst cp with
      | some (value, '.' :: rest) => inetLoop parts (addr <<< 8 ||| BitVec.ofNat 64 value) rest
      | _ => none

def myInetAton (cp : CString) : Option U32 := inetLoop 3 0 cp

/-- The loop of `get_netmask_bits`, which shifts `n` until nothing is left. -/
def countShifts : ℕ → U32 → ℕ
  | 0, _ => 0
  | rounds + 1, n => if n = 0 then 0 else countShifts rounds (n <<< 1) + 1

/-- `get_netmask_bits`.  Nothing is left after 64 shifts. -/
def getNetmaskBits (mask : U32) : ℕ :=
  let n := ~~~mask + 1
  if mask &&& n ≠ n then 0 else countShifts 64 n

def getNetmask (netmaskBits : ℕ) : U32 :=
  if 0 < netmaskBits ∧ netmaskBits ≤ 32 then
    (~~~((1 : U32) <<< (32 - netmaskBits)) + 1) &&& 0xFFFFFFFF
  else 0

/-- The calls of `fatal_exit` in `normalize_network`. -/
inductive NetFatal
  | operand (cause : Fatal)
  | invalidNetmask (text : CString)
  | invalidAddress (text : CString)
deriving DecidableEq

/-- The first of the delimiters that occurs in the text, in the order in which they are tried. -/
def findDelim (network : CString) : Option Char :=
  ['/', ':', ' '].find? fun delim => delim ∈ network

/-- The number of bits that the text behind the delimiter stands for.  What is no number leaves 32. -/
def netmaskBitsOf (network nm : CString) : Except NetFatal ℕ :=
  if '.' ∈ nm then
    match myInetAton nm with
    | none => .error (.invalidNetmask nm)
    | some netmask => .ok (getNetmaskBits netmask)
  else
    let bits := (scanInt nm).getD 32
    if bits < 0 ∨ 32 < bits then .error (.invalidNetmask network) else .ok bits.toNat

/-- `normalize_network`: the address under its netmask and the number of bits. -/
def normalizeNetwork (text : CString) : Except NetFatal (U32 × ℕ) := do
  let (network, netmaskBits) ←
    match findDelim text with
    | some delim => do
        let network := text.takeWhile (· ≠ delim)
        let bits ← netmaskBitsOf network ((text.dropWhile (· ≠ delim)).drop 1)
        pure (network, bits)
    | none => pure (text, 32)
  match myInetAton network with
  | none => throw (.invalidAddress network)
  | some ip => pure (ip &&& getNetmask netmaskBits, netmaskBits)

section Conditions

variable (env : Env)

/-- An operand of `samenet` or `subnet` as a text. -/
def networkText (p : Elem) : Except NetFatal CString :=
  match elemGetArg env p with
  | .error e => .error (.operand e)
  | .ok (val, _) =>
      match parseRewriteString env val with
      | .error e => .error (.operand e)
      | .ok text => .ok text

def condSameNet (l r : Elem) : Except NetFatal Bool := do
  let leftNet ← networkText env l
  let rightNet ← networkText env r
  let (leftIp, leftNetmaskBits) ← normalizeNetwork leftNet
  let (rightIp, rightNetmaskBits) ← normalizeNetwork rightNet
  pure (leftIp == rightIp && leftNetmaskBits == rightNetmaskBits)

def condSubNet (l r : Elem) : Except NetFatal Bool := do
  let leftNet ← networkText env l
  let rightNet ← networkText env r
  let (leftIp, leftNetmaskBits) ← normalizeNetwork leftNet
  let (rightIp, rightNetmaskBits) ← normalizeNetwork rightNet
  if rightNetmaskBits ≤ leftNetmaskBits then
    pure (leftIp &&& getNetmask rightNetmaskBits == rightIp)
  else pure false

end Conditions

/-! ## What a network denotes -/

/-- Digits that stand for a number. -/
structure Decimal (text : CString) (n : ℕ) : Prop where
  nonempty : text ≠ []
  digits : ∀ c ∈ text, c.isDigit = true
  value : Nat.ofDigitChars 10 text 0 = n

/-- Four numbers up to 255 with dots between them, and the address that they stand for. -/
inductive Dotted : CString → ℕ → Prop
  | mk {p₁ p₂ p₃ p₄ : CString} {v₁ v₂ v₃ v₄ : ℕ} (h₁ : Decimal p₁ v₁) (h₂ : Decimal p₂ v₂)
      (h₃ : Decimal p₃ v₃) (h₄ : Decimal p₄ v₄) (hle₁ : v₁ ≤ 255) (hle₂ : v₂ ≤ 255)
      (hle₃ : v₃ ≤ 255) (hle₄ : v₄ ≤ 255) :
      Dotted (p₁ ++ '.' :: (p₂ ++ '.' :: (p₃ ++ '.' :: p₄)))
        (((v₁ * 256 + v₂) * 256 + v₃) * 256 + v₄)

/-- The ways to write the bits that count. -/
inductive MaskForm
  | nothing
  | number
  | dotted
deriving DecidableEq

/-- A netmask of leading ones and the number of them. -/
def leadingOnes (bits : ℕ) : ℕ := 2 ^ 32 - 2 ^ (32 - bits)

/-- The accepted notations: the text, the form, the address and the number of bits that count. -/
inductive Notation : CString → MaskForm → ℕ → ℕ → Prop
  | alone {text : CString} {address : ℕ} (h : Dotted text address) :
      Notation text .nothing address 32
  | number {text mask : CString} {address bits : ℕ} (delim : Char) (hdelim : delim ∈ ['/', ':', ' '])
      (h : Dotted text address) (hmask : Decimal mask bits) (hbits : bits ≤ 32) :
      Notation (text ++ delim :: mask) .number address bits
  | dotted {text mask : CString} {address bits : ℕ} (delim : Char) (hdelim : delim ∈ ['/', ':', ' '])
      (h : Dotted text address) (hmask : Dotted mask (leadingOnes bits)) (hbits : bits ≤ 32) :
      Notation (text ++ delim :: mask) .dotted address bits

/-- The addresses of a network. -/
def addresses (bits address : ℕ) : Set ℕ := sharing 32 bits address

/-! ## Reading what is written -/

variable {form : MaskForm}

section Reading

variable {text rest : CString} {n value address bits : ℕ}

theorem le_ofDigitChars (text : CString) (value : ℕ) : value ≤ Nat.ofDigitChars 10 text value := by
  induction text generalizing value with
  | nil => simp
  | cons c text ih =>
      rw [Nat.ofDigitChars_cons]
      have hle := ih (10 * value + (c.toNat - '0'.toNat))
      omega

theorem readPart_digits (hdigits : ∀ c ∈ text, c.isDigit = true)
    (hrest : ∀ c ∈ rest.head?, c.isDigit = false) (hle : Nat.ofDigitChars 10 text value ≤ 255) :
    readPart value (text ++ rest) = some (Nat.ofDigitChars 10 text value, rest) := by
  induction text generalizing value with
  | nil =>
      cases rest with
      | nil => simp [readPart]
      | cons c rest =>
          have hc : c.isDigit = false := hrest c rfl
          simp [readPart, hc]
  | cons c text ih =>
      have hc : c.isDigit = true := hdigits c List.mem_cons_self
      rw [Nat.ofDigitChars_cons, Nat.mul_comm] at hle ⊢
      have hsmall := le_ofDigitChars text (value * 10 + (c.toNat - '0'.toNat))
      rw [List.cons_append, readPart, if_pos hc]
      dsimp only
      rw [if_neg (by omega)]
      exact ih (fun d hd => hdigits d (List.mem_cons_of_mem c hd)) hle

theorem readFirst_decimal (h : Decimal text n) (hn : n ≤ 255)
    (hrest : ∀ c ∈ rest.head?, c.isDigit = false) : readFirst (text ++ rest) = some (n, rest) := by
  obtain ⟨c, tail, rfl⟩ := List.exists_cons_of_ne_nil h.nonempty
  rw [List.cons_append, readFirst, if_pos (h.digits c List.mem_cons_self), ← List.cons_append]
  have hle : Nat.ofDigitChars 10 (c :: tail) 0 ≤ 255 := by
    rw [h.value]
    exact hn
  rw [readPart_digits h.digits hrest hle, h.value]

theorem shiftLeft_or_ofNat (x v : ℕ) (hx : x < 2 ^ 32) (hv : v ≤ 255) :
    (BitVec.ofNat 64 x <<< 8 ||| BitVec.ofNat 64 v) = BitVec.ofNat 64 (x * 256 + v) := by
  apply BitVec.eq_of_toNat_eq
  rw [BitVec.toNat_or, BitVec.toNat_shiftLeft, BitVec.toNat_ofNat, BitVec.toNat_ofNat,
    BitVec.toNat_ofNat, Nat.mod_eq_of_lt (by omega : x < 2 ^ 64), Nat.mod_eq_of_lt (by omega : v < 2 ^ 64),
    Nat.shiftLeft_eq, Nat.mod_eq_of_lt (by omega), Nat.mod_eq_of_lt (by omega)]
  have hadd := Nat.shiftLeft_add_eq_or_of_lt (by omega : v < 2 ^ 8) x
  rw [Nat.shiftLeft_eq] at hadd
  omega

theorem Dotted.lt (h : Dotted text address) : address < 2 ^ 32 := by
  cases h
  omega

theorem myInetAton_dotted (h : Dotted text address) :
    myInetAton text = some (BitVec.ofNat 64 address) := by
  obtain ⟨h₁, h₂, h₃, h₄, hle₁, hle₂, hle₃, hle₄⟩ := h
  have hdot : ∀ (tail : CString), ∀ c ∈ ('.' :: tail).head?, c.isDigit = false := by
    intro tail c hc
    rw [← Option.some.inj hc]
    decide
  have hpart (parts : ℕ) (addr : U32) {p : CString} {v : ℕ} (tail : CString) (h : Decimal p v)
      (hle : v ≤ 255) : inetLoop (parts + 1) addr (p ++ '.' :: tail) =
        inetLoop parts (addr <<< 8 ||| BitVec.ofNat 64 v) tail := by
    rw [inetLoop, readFirst_decimal h hle (hdot tail)]
    rfl
  have hend : ∀ c ∈ ([] : CString).head?, c.isDigit = false := by simp
  have hlast := readFirst_decimal h₄ hle₄ hend
  rw [List.append_nil] at hlast
  have hzero : (0 : U32) = BitVec.ofNat 64 0 := rfl
  unfold myInetAton
  rw [hpart 2 _ _ h₁ hle₁, hpart 1 _ _ h₂ hle₂, hpart 0 _ _ h₃ hle₃, inetLoop, hlast, hzero,
    shiftLeft_or_ofNat _ _ (by omega) hle₁, shiftLeft_or_ofNat _ _ (by omega) hle₂,
    shiftLeft_or_ofNat _ _ (by omega) hle₃]
  show some (BitVec.ofNat 64 _ <<< 8 ||| BitVec.ofNat 64 _) = _
  rw [shiftLeft_or_ofNat _ _ (by omega) hle₄, Nat.zero_mul, Nat.zero_add]

theorem Dotted.mem (h : Dotted text address) : ∀ c ∈ text, c.isDigit = true ∨ c = '.' := by
  obtain ⟨h₁, h₂, h₃, h₄, -⟩ := h
  intro c hc
  simp only [List.mem_append, List.mem_cons] at hc
  rcases hc with hc | rfl | hc | rfl | hc | rfl | hc
  · exact Or.inl (h₁.digits c hc)
  · exact Or.inr rfl
  · exact Or.inl (h₂.digits c hc)
  · exact Or.inr rfl
  · exact Or.inl (h₃.digits c hc)
  · exact Or.inr rfl
  · exact Or.inl (h₄.digits c hc)

theorem Dotted.dot_mem (h : Dotted text address) : '.' ∈ text := by
  cases h
  simp

theorem forall_delim {p : Char → Prop} (hslash : p '/') (hcolon : p ':') (hblank : p ' ') :
    ∀ d ∈ ['/', ':', ' '], p d := by
  intro d hd
  simp only [List.mem_cons, List.not_mem_nil, or_false] at hd
  rcases hd with rfl | rfl | rfl
  · exact hslash
  · exact hcolon
  · exact hblank

variable {delim : Char}

theorem Dotted.not_delim (h : Dotted text address) (hdelim : delim ∈ ['/', ':', ' ']) :
    delim ∉ text := by
  have hnot : delim.isDigit = false ∧ delim ≠ '.' :=
    forall_delim (p := fun d => d.isDigit = false ∧ d ≠ '.') (by decide) (by decide) (by decide)
      delim hdelim
  intro hmem
  rcases h.mem delim hmem with hdigit | hdot
  · rw [hnot.1] at hdigit
    contradiction
  · exact hnot.2 hdot

theorem Decimal.dot_not_mem (h : Decimal text n) : '.' ∉ text := by
  intro hmem
  have hdigit := h.digits _ hmem
  revert hdigit
  decide

theorem Decimal.scanInt (h : Decimal text n) (hn : n < 2147483648) :
    Lib.scanInt text = some (n : ℤ) := by
  have hsign := takeSign_digits [] h.nonempty h.digits
  have hread := strtol_digits [] h.nonempty h.digits rfl
  rw [List.append_nil] at hsign hread
  have htake : text.takeWhile (isDigitOf 10) = text :=
    List.takeWhile_eq_self_iff.mpr fun c hc => isDigitOf_ten_of_isDigit (h.digits c hc)
  have hvalue : digitsValue 10 text = n := by
    rw [digitsValue_ten_eq_ofDigitChars h.digits, h.value]
  have hclamp : min longMax (n : ℤ) = n := by
    unfold longMax
    omega
  unfold Lib.scanInt
  rw [hsign]
  dsimp only
  rw [htake, if_neg h.nonempty, hread, hvalue]
  dsimp only
  rw [hclamp, toInt32_of_range (by omega) (by omega)]

/-! ## The bits that count for the code -/

theorem leadingOnes_lt (hbits : bits ≤ 32) : leadingOnes bits < 2 ^ 32 := by
  have hpos : 0 < 2 ^ (32 - bits) := Nat.two_pow_pos _
  have hle : 2 ^ (32 - bits) ≤ 2 ^ 32 := Nat.pow_le_pow_right (by omega) (by omega)
  unfold leadingOnes
  omega

theorem getNetmaskBits_eq_zero (mask : U32) (h : mask.toNat < 2 ^ 32) : getNetmaskBits mask = 0 := by
  have hneg : ~~~mask + 1 = -mask := (BitVec.neg_eq_not_add mask).symm
  unfold getNetmaskBits
  simp only [hneg]
  by_cases hzero : mask = 0
  · rw [hzero]
    decide
  · have hne : mask &&& -mask ≠ -mask := by
      intro heq
      have hand : (mask &&& -mask).toNat ≤ mask.toNat := by
        rw [BitVec.toNat_and]
        exact Nat.and_le_left
      rw [heq, BitVec.toNat_neg] at hand
      have hpos : mask.toNat ≠ 0 := by
        intro hnat
        exact hzero (BitVec.eq_of_toNat_eq hnat)
      omega
    rw [if_pos hne]

/-- The number of bits that the code takes a notation to mean. -/
def codeBits (form : MaskForm) (bits : ℕ) : ℕ := if form = .dotted then 0 else bits

theorem findDelim_alone (h : Dotted text address) : findDelim text = none := by
  unfold findDelim
  rw [List.find?_eq_none]
  intro delim hdelim
  simpa using h.not_delim hdelim

theorem findDelim_append {mask : CString} (h : Dotted text address)
    (hdelim : delim ∈ ['/', ':', ' ']) (hmask : ∀ d ∈ ['/', ':', ' '], d ∉ mask) :
    findDelim (text ++ delim :: mask) = some delim := by
  have hmem : ∀ d ∈ ['/', ':', ' '], decide (d ∈ text ++ delim :: mask) = decide (d = delim) := by
    intro d hd
    have htext := h.not_delim hd
    have hbehind := hmask d hd
    simp [htext, hbehind]
  have hfind : ∀ delim ∈ ['/', ':', ' '],
      ['/', ':', ' '].find? (fun d => decide (d = delim)) = some delim :=
    forall_delim (by decide) (by decide) (by decide)
  unfold findDelim
  rw [← hfind delim hdelim]
  exact List.find?_congr hmem

theorem split_at_delim (mask : CString) (h : delim ∉ text) :
    (text ++ delim :: mask).takeWhile (· ≠ delim) = text ∧
      ((text ++ delim :: mask).dropWhile (· ≠ delim)).drop 1 = mask := by
  have hpos : ∀ c ∈ text, decide (c ≠ delim) = true := by
    intro c hc
    rw [decide_eq_true_eq]
    rintro rfl
    exact h hc
  constructor
  · rw [List.takeWhile_append_of_pos hpos]
    simp
  · rw [List.dropWhile_append_of_pos hpos]
    simp

theorem normalizeNetwork_delim {mask : CString} {k : ℕ} (h : Dotted text address)
    (hdelim : delim ∈ ['/', ':', ' ']) (hmask : ∀ d ∈ ['/', ':', ' '], d ∉ mask)
    (hbits : netmaskBitsOf text mask = .ok k) :
    normalizeNetwork (text ++ delim :: mask) =
      .ok (BitVec.ofNat 64 address &&& getNetmask k, k) := by
  obtain ⟨hbefore, hbehind⟩ := split_at_delim mask (h.not_delim hdelim)
  unfold normalizeNetwork
  rw [findDelim_append h hdelim hmask]
  dsimp only
  rw [hbefore, hbehind, hbits]
  show (match myInetAton text with
    | none => throw (.invalidAddress text)
    | some ip => pure (ip &&& getNetmask k, k) : Except NetFatal (U32 × ℕ)) = _
  rw [myInetAton_dotted h]
  rfl

theorem normalizeNetwork_written (h : Notation text form address bits) :
    normalizeNetwork text = .ok (BitVec.ofNat 64 address &&& getNetmask (codeBits form bits),
      codeBits form bits) := by
  cases h with
  | alone h =>
      unfold normalizeNetwork
      rw [findDelim_alone h]
      show (match myInetAton text with
        | none => throw (.invalidAddress text)
        | some ip => pure (ip &&& getNetmask 32, 32) : Except NetFatal (U32 × ℕ)) = _
      rw [myInetAton_dotted h]
      rfl
  | @number text mask _ _ delim hdelim h hmask hbits =>
      have hnot : ∀ d ∈ ['/', ':', ' '], d ∉ mask := by
        have hdigit : ∀ d ∈ ['/', ':', ' '], d.isDigit = false :=
          forall_delim (by decide) (by decide) (by decide)
        intro d hd hmem
        have hmaskDigit := hmask.digits d hmem
        rw [hdigit d hd] at hmaskDigit
        exact Bool.false_ne_true hmaskDigit
      apply normalizeNetwork_delim h hdelim hnot
      unfold netmaskBitsOf
      rw [if_neg hmask.dot_not_mem, hmask.scanInt (by omega)]
      dsimp only [Option.getD_some]
      rw [if_neg (by omega), Int.toNat_natCast]
      rfl
  | @dotted text mask _ _ delim hdelim h hmask hbits =>
      have hnot : ∀ d ∈ ['/', ':', ' '], d ∉ mask := fun d hd => hmask.not_delim hd
      apply normalizeNetwork_delim h hdelim hnot
      have hlt := leadingOnes_lt hbits
      have hzero : getNetmaskBits (BitVec.ofNat 64 (leadingOnes bits)) = 0 := by
        apply getNetmaskBits_eq_zero
        rw [BitVec.toNat_ofNat]
        omega
      unfold netmaskBitsOf
      rw [if_pos hmask.dot_mem, myInetAton_dotted hmask]
      dsimp only
      rw [hzero]
      rfl

end Reading

/-! ## The verdicts -/

theorem isMask_getNetmask {bits : ℕ} (h : bits ≤ 32) : IsMask 32 bits (getNetmask bits) := by
  have hall : ∀ b : Fin 33, ∀ i : Fin 64,
      (getNetmask b).getLsbD i = decide (32 - (b : ℕ) ≤ i ∧ (i : ℕ) < 32 ∧ (i : ℕ) < 64) := by
    decide +kernel
  intro i
  by_cases hi : i < 64
  · exact hall ⟨bits, by omega⟩ ⟨i, hi⟩
  · rw [BitVec.getLsbD_of_ge _ _ (by omega)]
    symm
    rw [decide_eq_false_iff_not]
    omega

section Verdicts

variable {env : Env} {l r : Elem} {leftText rightText : CString} {leftForm rightForm : MaskForm}
  {leftAddress rightAddress leftBits rightBits : ℕ}

theorem Notation.address_lt (h : Notation leftText leftForm leftAddress leftBits) :
    leftAddress < 2 ^ 32 := by
  cases h with
  | alone h => exact h.lt
  | number _ _ h => exact h.lt
  | dotted _ _ h => exact h.lt

theorem Notation.bits_le (h : Notation leftText leftForm leftAddress leftBits) : leftBits ≤ 32 := by
  cases h <;> omega

theorem codeBits_le (form : MaskForm) (h : leftBits ≤ 32) : codeBits form leftBits ≤ 32 := by
  unfold codeBits
  split <;> omega

theorem beq_netmask_eq_true_iff {a a' b : ℕ} (ha : a < 2 ^ 32) (ha' : a' < 2 ^ 32) (hb : b ≤ 32) :
    (BitVec.ofNat 64 a &&& getNetmask b == BitVec.ofNat 64 a' &&& getNetmask b) = true ↔
      lead 32 b a = lead 32 b a' := by
  have hnat (x : ℕ) (hx : x < 2 ^ 32) : (BitVec.ofNat 64 x).toNat = x := by
    rw [BitVec.toNat_ofNat]
    omega
  rw [beq_iff_eq, and_mask_eq_iff (by omega) (isMask_getNetmask hb) (by rw [hnat a ha]; exact ha)
    (by rw [hnat a' ha']; exact ha'), hnat a ha, hnat a' ha']

theorem condSameNet_spec (hl : networkText env l = .ok leftText)
    (hr : networkText env r = .ok rightText)
    (hleft : Notation leftText leftForm leftAddress leftBits)
    (hright : Notation rightText rightForm rightAddress rightBits) :
    ∃ verdict, condSameNet env l r = .ok verdict ∧ (verdict = true ↔
      addresses (codeBits leftForm leftBits) leftAddress =
        addresses (codeBits rightForm rightBits) rightAddress) := by
  have hlb := codeBits_le leftForm hleft.bits_le
  have hrb := codeBits_le rightForm hright.bits_le
  have hrun : condSameNet env l r = .ok
      (BitVec.ofNat 64 leftAddress &&& getNetmask (codeBits leftForm leftBits) ==
          BitVec.ofNat 64 rightAddress &&& getNetmask (codeBits rightForm rightBits) &&
        codeBits leftForm leftBits == codeBits rightForm rightBits) := by
    unfold condSameNet
    rw [hl, hr]
    show (normalizeNetwork leftText >>= fun left => normalizeNetwork rightText >>= fun right =>
      pure (left.1 == right.1 && left.2 == right.2)) = _
    rw [normalizeNetwork_written hleft, normalizeNetwork_written hright]
    rfl
  refine ⟨_, hrun, ?_⟩
  unfold addresses
  rw [sharing_eq_iff hlb hrb hleft.address_lt hright.address_lt, Bool.and_eq_true,
    beq_iff_eq (a := codeBits leftForm leftBits)]
  constructor
  · rintro ⟨hip, hbits⟩
    rw [hbits] at hip ⊢
    exact ⟨rfl, (beq_netmask_eq_true_iff hleft.address_lt hright.address_lt hrb).mp hip⟩
  · rintro ⟨hbits, hlead⟩
    rw [hbits] at hlead ⊢
    exact ⟨(beq_netmask_eq_true_iff hleft.address_lt hright.address_lt hrb).mpr hlead, rfl⟩

theorem condSubNet_spec (hl : networkText env l = .ok leftText)
    (hr : networkText env r = .ok rightText)
    (hleft : Notation leftText leftForm leftAddress leftBits)
    (hright : Notation rightText rightForm rightAddress rightBits) :
    ∃ verdict, condSubNet env l r = .ok verdict ∧ (verdict = true ↔
      addresses (codeBits leftForm leftBits) leftAddress ⊆
        addresses (codeBits rightForm rightBits) rightAddress) := by
  have hlb := codeBits_le leftForm hleft.bits_le
  have hrb := codeBits_le rightForm hright.bits_le
  unfold addresses
  rw [sharing_subset_iff hlb hrb hleft.address_lt]
  have hrun : condSubNet env l r =
      if codeBits rightForm rightBits ≤ codeBits leftForm leftBits then
        .ok (BitVec.ofNat 64 leftAddress &&& getNetmask (codeBits leftForm leftBits) &&&
            getNetmask (codeBits rightForm rightBits) ==
          BitVec.ofNat 64 rightAddress &&& getNetmask (codeBits rightForm rightBits))
      else .ok false := by
    unfold condSubNet
    rw [hl, hr]
    show (normalizeNetwork leftText >>= fun left => normalizeNetwork rightText >>= fun right =>
      if right.2 ≤ left.2 then pure (left.1 &&& getNetmask right.2 == right.1) else pure false) = _
    rw [normalizeNetwork_written hleft, normalizeNetwork_written hright]
    rfl
  rw [hrun]
  by_cases hle : codeBits rightForm rightBits ≤ codeBits leftForm leftBits
  · rw [if_pos hle, BitVec.and_assoc,
      mask_and_mask hle (isMask_getNetmask hlb) (isMask_getNetmask hrb)]
    refine ⟨_, rfl, ?_⟩
    rw [beq_netmask_eq_true_iff hleft.address_lt hright.address_lt hrb]
    simp [hle]
  · rw [if_neg hle]
    exact ⟨false, rfl, by simp [hle]⟩

/-- Both verdicts on two networks are there and say the truth about their addresses. -/
structure NetworksRight (env : Env) (l r : Elem) (left right : Set ℕ) : Prop where
  same : ∃ verdict, condSameNet env l r = .ok verdict ∧ (verdict = true ↔ left = right)
  sub : ∃ verdict, condSubNet env l r = .ok verdict ∧ (verdict = true ↔ left ⊆ right)

/-- The code takes the netmask for no bits, and it has some. -/
def Misread (form : MaskForm) (bits : ℕ) : Prop := form = .dotted ∧ bits ≠ 0

/-- When misread netmasks do no harm: both are misread and the networks are the same, the left one is
misread and is no part of the right one, or the right one is misread and has the left one as a proper
part. -/
structure Harmless (leftMisread rightMisread : Prop) (left right : Set ℕ) : Prop where
  both : leftMisread → rightMisread → left = right
  onlyLeft : leftMisread → ¬ rightMisread → ¬ left ⊆ right
  onlyRight : ¬ leftMisread → rightMisread → left ⊂ right

theorem addresses_zero_eq (a a' : ℕ) (ha : a < 2 ^ 32) (ha' : a' < 2 ^ 32) :
    addresses 0 a = addresses 0 a' := by
  unfold addresses
  rw [sharing_eq_iff (by omega) (by omega) ha ha']
  unfold lead
  omega

theorem subset_addresses_zero (b a a' : ℕ) (hb : b ≤ 32) (ha : a < 2 ^ 32) (ha' : a' < 2 ^ 32) :
    addresses b a ⊆ addresses 0 a' := by
  unfold addresses
  rw [sharing_subset_iff hb (by omega) ha]
  unfold lead
  omega

theorem not_addresses_zero_subset (b a a' : ℕ) (hb : b ≤ 32) (hpos : b ≠ 0) (ha : a < 2 ^ 32) :
    ¬ addresses 0 a ⊆ addresses b a' := by
  unfold addresses
  rw [sharing_subset_iff (by omega) hb ha]
  omega

theorem codeBits_of_misread {bits : ℕ} (h : Misread form bits) :
    codeBits form bits = 0 := if_pos h.1

theorem codeBits_of_not_misread {bits : ℕ} (h : ¬ Misread form bits) :
    codeBits form bits = bits := by
  unfold codeBits
  split
  · next hform =>
      by_contra hne
      exact h ⟨hform, Ne.symm hne⟩
  · rfl

theorem harmless_left (hlb : leftBits ≤ 32) (hrb : rightBits ≤ 32) (hla : leftAddress < 2 ^ 32)
    (hra : rightAddress < 2 ^ 32) (hml : Misread leftForm leftBits)
    (hmr : ¬ Misread rightForm rightBits) :
    ((addresses 0 leftAddress = addresses rightBits rightAddress ↔
          addresses leftBits leftAddress = addresses rightBits rightAddress) ∧
        (addresses 0 leftAddress ⊆ addresses rightBits rightAddress ↔
          addresses leftBits leftAddress ⊆ addresses rightBits rightAddress)) ↔
      Harmless (Misread leftForm leftBits) (Misread rightForm rightBits)
        (addresses leftBits leftAddress) (addresses rightBits rightAddress) := by
  by_cases hzero : rightBits = 0
  · -- the right network has all addresses, and so has the left one for the code
    rw [hzero]
    have hall := addresses_zero_eq leftAddress rightAddress hla hra
    have hsub := subset_addresses_zero leftBits leftAddress rightAddress hlb hla hra
    constructor
    · rintro ⟨hiff, -⟩
      have heq := hiff.mp hall
      exact absurd heq.symm.subset (not_addresses_zero_subset leftBits _ _ hlb hml.2 hra)
    · intro h
      exact absurd hsub (h.onlyLeft hml (hzero ▸ hmr))
  · have hnot := not_addresses_zero_subset rightBits leftAddress rightAddress hrb hzero hla
    constructor
    · rintro ⟨-, hiff⟩
      exact ⟨fun _ h => absurd h hmr, fun _ _ h => hnot (hiff.mpr h), fun h => absurd hml h⟩
    · intro h
      have hno := h.onlyLeft hml hmr
      exact ⟨⟨fun heq => absurd heq.subset hnot, fun heq => absurd heq.subset hno⟩,
        ⟨fun hsub => absurd hsub hnot, fun hsub => absurd hsub hno⟩⟩

theorem harmless_right (hlb : leftBits ≤ 32) (hrb : rightBits ≤ 32) (hla : leftAddress < 2 ^ 32)
    (hra : rightAddress < 2 ^ 32) (hml : ¬ Misread leftForm leftBits)
    (hmr : Misread rightForm rightBits) :
    ((addresses leftBits leftAddress = addresses 0 rightAddress ↔
          addresses leftBits leftAddress = addresses rightBits rightAddress) ∧
        (addresses leftBits leftAddress ⊆ addresses 0 rightAddress ↔
          addresses leftBits leftAddress ⊆ addresses rightBits rightAddress)) ↔
      Harmless (Misread leftForm leftBits) (Misread rightForm rightBits)
        (addresses leftBits leftAddress) (addresses rightBits rightAddress) := by
  have hsub := subset_addresses_zero leftBits leftAddress rightAddress hlb hla hra
  have hsub' := subset_addresses_zero rightBits rightAddress rightAddress hrb hra hra
  have hnot := not_addresses_zero_subset rightBits rightAddress rightAddress hrb hmr.2 hra
  constructor
  · rintro ⟨hsame, hiff⟩
    have hpart := hiff.mp hsub
    refine ⟨fun h => absurd h hml, fun h => absurd h hml, fun _ _ => ⟨hpart, fun hback => ?_⟩⟩
    have hall := hsame.mpr (hpart.antisymm hback)
    exact hnot (hall ▸ hpart)
  · intro h
    obtain ⟨hpart, hproper⟩ := h.onlyRight hml hmr
    constructor
    · constructor
      · intro hall
        exact absurd (hall ▸ hsub') hproper
      · intro heq
        exact absurd heq.symm.subset hproper
    · exact ⟨fun _ => hpart, fun _ => hsub⟩

/-- The verdicts on two networks are right if and only if their netmasks are not misread or do no
harm. -/
theorem networks_right_iff (hl : networkText env l = .ok leftText)
    (hr : networkText env r = .ok rightText)
    (hleft : Notation leftText leftForm leftAddress leftBits)
    (hright : Notation rightText rightForm rightAddress rightBits) :
    NetworksRight env l r (addresses leftBits leftAddress) (addresses rightBits rightAddress) ↔
      Harmless (Misread leftForm leftBits) (Misread rightForm rightBits)
        (addresses leftBits leftAddress) (addresses rightBits rightAddress) := by
  obtain ⟨same, hsame, hsameIff⟩ := condSameNet_spec hl hr hleft hright
  obtain ⟨sub, hsub, hsubIff⟩ := condSubNet_spec hl hr hleft hright
  have hla := hleft.address_lt
  have hra := hright.address_lt
  -- the verdicts are right if the sets that the code compares are related like the sets denoted
  have hmeaning : NetworksRight env l r (addresses leftBits leftAddress)
        (addresses rightBits rightAddress) ↔
      (addresses (codeBits leftForm leftBits) leftAddress =
          addresses (codeBits rightForm rightBits) rightAddress ↔
        addresses leftBits leftAddress = addresses rightBits rightAddress) ∧
      (addresses (codeBits leftForm leftBits) leftAddress ⊆
          addresses (codeBits rightForm rightBits) rightAddress ↔
        addresses leftBits leftAddress ⊆ addresses rightBits rightAddress) := by
    constructor
    · rintro ⟨⟨same', hsame', hiff⟩, ⟨sub', hsub', hiff'⟩⟩
      rw [hsame, Except.ok.injEq] at hsame'
      rw [hsub, Except.ok.injEq] at hsub'
      rw [← hsameIff, ← hsubIff, hsame', hsub']
      exact ⟨hiff, hiff'⟩
    · rintro ⟨hiff, hiff'⟩
      exact ⟨⟨same, hsame, hsameIff.trans hiff⟩, ⟨sub, hsub, hsubIff.trans hiff'⟩⟩
  rw [hmeaning]
  by_cases hml : Misread leftForm leftBits <;> by_cases hmr : Misread rightForm rightBits
  · -- the code takes both networks for all addresses
    have hall := addresses_zero_eq leftAddress rightAddress hla hra
    rw [codeBits_of_misread hml, codeBits_of_misread hmr]
    constructor
    · rintro ⟨hiff, -⟩
      exact ⟨fun _ _ => hiff.mp hall, fun _ h => absurd hmr h, fun h => absurd hml h⟩
    · intro h
      have heq := h.both hml hmr
      exact ⟨⟨fun _ => heq, fun _ => hall⟩, ⟨fun _ => heq.subset, fun _ => hall.subset⟩⟩
  · rw [codeBits_of_misread hml, codeBits_of_not_misread hmr]
    exact harmless_left hleft.bits_le hright.bits_le hla hra hml hmr
  · rw [codeBits_of_not_misread hml, codeBits_of_misread hmr]
    exact harmless_right hleft.bits_le hright.bits_le hla hra hml hmr
  · rw [codeBits_of_not_misread hml, codeBits_of_not_misread hmr]
    constructor
    · intro _
      exact ⟨fun h => absurd h hml, fun h => absurd h hml, fun _ h => absurd h hmr⟩
    · intro _
      exact ⟨Iff.rfl, Iff.rfl⟩

/-! ## Two networks -/

theorem decimal_of_eq (text : String) (n : ℕ) (h : text.toList ≠ [] ∧
    text.toList.all Char.isDigit = true ∧ Nat.ofDigitChars 10 text.toList 0 = n) :
    Decimal text.toList n := ⟨h.1, List.all_eq_true.mp h.2.1, h.2.2⟩

theorem dotted_ten : Dotted "10.0.0.0".toList 167772160 :=
  Dotted.mk (decimal_of_eq "10" 10 (by decide)) (decimal_of_eq "0" 0 (by decide))
    (decimal_of_eq "0" 0 (by decide)) (decimal_of_eq "0" 0 (by decide))
    (by decide) (by decide) (by decide) (by decide)

theorem dotted_eight : Dotted "255.0.0.0".toList (leadingOnes 8) :=
  Dotted.mk (decimal_of_eq "255" 255 (by decide)) (decimal_of_eq "0" 0 (by decide))
    (decimal_of_eq "0" 0 (by decide)) (decimal_of_eq "0" 0 (by decide))
    (by decide) (by decide) (by decide) (by decide)

theorem notation_ten_number : Notation "10.0.0.0/8".toList .number 167772160 8 :=
  .number '/' (by decide) dotted_ten (decimal_of_eq "8" 8 (by decide)) (by decide)

theorem notation_ten_dotted : Notation "10.0.0.0/255.0.0.0".toList .dotted 167772160 8 :=
  .dotted '/' (by decide) dotted_ten dotted_eight (by decide)

theorem networkText_ten :
    networkText oneNumeric (.string "10.0.0.0/8".toList) = .ok "10.0.0.0/8".toList ∧
      networkText oneNumeric (.string "10.0.0.0/255.0.0.0".toList) =
        .ok "10.0.0.0/255.0.0.0".toList := ⟨rfl, rfl⟩

/-- The netmask on the right is misread, and the left network is no proper part of the right one. -/
theorem networks_right_iff_ten :
    NetworksRight oneNumeric (.string "10.0.0.0/8".toList) (.string "10.0.0.0/255.0.0.0".toList)
        (addresses 8 167772160) (addresses 8 167772160) ↔
      Harmless (Misread .number 8) (Misread .dotted 8) (addresses 8 167772160)
        (addresses 8 167772160) :=
  networks_right_iff networkText_ten.1 networkText_ten.2 notation_ten_number notation_ten_dotted

/-- The two notations of one network are taken for different networks. -/
theorem samenet_broken_for_ten :
    ¬ ∀ (env : Env) (l r : Elem) (leftText rightText : CString) (leftForm rightForm : MaskForm)
      (leftAddress leftBits rightAddress rightBits : ℕ),
      networkText env l = .ok leftText → networkText env r = .ok rightText →
      Notation leftText leftForm leftAddress leftBits →
      Notation rightText rightForm rightAddress rightBits →
      NetworksRight env l r (addresses leftBits leftAddress) (addresses rightBits rightAddress) := by
  intro h
  have hright := h oneNumeric _ _ _ _ _ _ _ _ _ _ networkText_ten.1 networkText_ten.2
    notation_ten_number notation_ten_dotted
  obtain ⟨verdict, hrun, hiff⟩ := hright.same
  have hfalse : condSameNet oneNumeric (.string "10.0.0.0/8".toList)
      (.string "10.0.0.0/255.0.0.0".toList) = .ok false := by
    rfl
  rw [hfalse, Except.ok.injEq] at hrun
  rw [← hrun] at hiff
  exact Bool.false_ne_true (hiff.mpr rfl)

end Verdicts

end Script
end Mkfli4l
