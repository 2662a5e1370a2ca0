import Mathlib
import Mkfli4l.Lib.CNumber
import Mkfli4l.Netcalc.Addresses

/-!
# Reverse zones

`convertCIDRToDNSRev` prints the names of the reverse zones of a network.  A label of a name stands for
eight bits of an IPv4 address or for four bits of an IPv6 address.  If the netmask ends within a label,
there is a name for each of the labels with the leading bits of the network.

The string with the labels in front of the last one is a null pointer until the first label is complete,
so that nothing can be printed for a network with fewer bits than a label (`printsZones_iff`).
-/

namespace Mkfli4l
namespace Netcalc

open Lib

variable {type : AddressType}

/-! ### The function -/

/-- `bitsPerEntry`: each component of a name describes a byte or a nibble. -/
def AddressType.bitsPerEntry : AddressType → ℕ
  | .inet => 8
  | .inet6 => 4

/-- `maxChars`: the digits of a component and its dot. -/
def AddressType.maxChars : AddressType → ℕ
  | .inet => 3 + 1
  | .inet6 => 1 + 1

/-- `format`: `"%u."` or `"%x."`. -/
def AddressType.format : AddressType → BitVec 32 → CString
  | .inet, value => Nat.toDigits 10 value.toNat ++ ['.']
  | .inet6, value => Nat.toDigits 16 value.toNat ++ ['.']

def AddressType.suffix : AddressType → CString
  | .inet => "in-addr.arpa".toList
  | .inet6 => "ip6.arpa".toList

def AddressType.initialMask (type : AddressType) : BitVec 32 :=
  (~~~(0xff#8 >>> type.bitsPerEntry)).setWidth 32

def AddressType.initialShiftCount (type : AddressType) : ℕ :=
  (8 / type.bitsPerEntry - 1) * type.bitsPerEntry

/-- `convertNumberToString`.  `none` stands for the null pointer. -/
def convertNumberToString (value : BitVec 32) (maxDigits : ℕ) (format : BitVec 32 → CString) :
    Option CString :=
  if 0 < (format value).length then some ((format value).take maxDigits) else none

/-- `prependString`.  The string may be the null pointer. -/
def prependString (buf : Option CString) (pre : CString) : CString := pre ++ buf.getD []

theorem AddressType.bitsPerEntry_pos (type : AddressType) : 0 < type.bitsPerEntry := by
  cases type <;> decide

/-- The variables of the first loop. -/
structure DnsRev where
  p : ℕ
  mask : BitVec 32
  shiftCount : ℕ
  bits : ℕ
  result : Option CString

/-- The first loop, which collects the complete labels.  `none` means that a byte outside of the address is
read. -/
def completeLabels (addr : Address type) (s : DnsRev) : Option DnsRev :=
  if type.bitsPerEntry ≤ s.bits then
    if h : s.p < type.num then
      let value := ((addr.address ⟨s.p, h⟩).setWidth 32 &&& s.mask) >>> s.shiftCount
      let result :=
        match convertNumberToString value type.maxChars type.format with
        | some str => some (prependString s.result str)
        | none => s.result
      let mask := s.mask >>> type.bitsPerEntry
      if mask = 0#32 then
        completeLabels addr
          ⟨s.p + 1, type.initialMask, type.initialShiftCount, s.bits - type.bitsPerEntry, result⟩
      else
        completeLabels addr
          ⟨s.p, mask, s.shiftCount - type.bitsPerEntry, s.bits - type.bitsPerEntry, result⟩
    else none
  else some s
termination_by s.bits
decreasing_by
  all_goals
    have hpos := type.bitsPerEntry_pos
    show s.bits - type.bitsPerEntry < s.bits
    omega

/-- The loop that takes the bits behind the netmask out of the mask; `k` of them are left. -/
def clearBits : ℕ → BitVec 32 → BitVec 32 → BitVec 32
  | 0, mask, _ => mask
  | k + 1, mask, bit => clearBits k (mask &&& ~~~bit) (bit <<< 1)

/-- The values of the last loop.  There are no more than `2 ^ 32` values; if that many rounds are not enough,
the loop does not end (`none`). -/
def lastValues (mask startValue : BitVec 32) : ℕ → BitVec 32 → Option (List (BitVec 32))
  | 0, _ => none
  | rounds + 1, value =>
      if value &&& mask = startValue then (lastValues mask startValue rounds (value + 1)).map (value :: ·)
      else some []

/-- A line of the last loop.  Printing a null pointer is undefined (`none`). -/
def lastLine (type : AddressType) (result : Option CString) (value : BitVec 32) : Option (List CString) :=
  match convertNumberToString value type.maxChars type.format with
  | some str => result.map fun result => [str ++ result ++ type.suffix]
  | none => some []

/-- `convertCIDRToDNSRev`: the lines that are printed.  `none` means that the behaviour is undefined. -/
def convertCIDRToDNSRev (addr : Address type) : Option (List CString) :=
  (completeLabels addr ⟨0, type.initialMask, type.initialShiftCount, addr.netmaskbits.toNat, none⟩).bind
    fun s =>
      if 0 < s.bits then
        if h : s.p < type.num then
          let mask := clearBits (type.bitsPerEntry - s.bits) s.mask (1#32 <<< s.shiftCount)
          let startValue := ((addr.address ⟨s.p, h⟩).setWidth 32 &&& mask) >>> s.shiftCount
          (lastValues (mask >>> s.shiftCount) startValue (2 ^ 32) startValue).bind fun values =>
            (values.mapM (lastLine type s.result)).map List.flatten
        else none
      else
        match s.result with
        | some result => some [result ++ type.suffix]
        | none => some []

/-! ### Labels -/

/-- The bits of the byte behind the label with the number `i`. -/
def AddressType.shiftAt (type : AddressType) (i : ℕ) : ℕ :=
  8 - type.bitsPerEntry - i * type.bitsPerEntry % 8

/-- The mask of the label with the number `i`. -/
def AddressType.entryMask (type : AddressType) (i : ℕ) : BitVec 32 :=
  type.initialMask >>> (i * type.bitsPerEntry % 8)

/-- The label with the number `i`. -/
def labelAt (a : Octets type.num) (i : ℕ) : BitVec type.bitsPerEntry :=
  if h : i * type.bitsPerEntry / 8 < type.num then
    (a ⟨i * type.bitsPerEntry / 8, h⟩).extractLsb' (type.shiftAt i) type.bitsPerEntry
  else 0

theorem AddressType.shiftAt_le (type : AddressType) (i : ℕ) : type.shiftAt i + type.bitsPerEntry ≤ 8 := by
  cases type <;> simp [AddressType.shiftAt, AddressType.bitsPerEntry]

theorem AddressType.getLsbD_entryMask (type : AddressType) (i j : ℕ) :
    (type.entryMask i).getLsbD j = true ↔ type.shiftAt i ≤ j ∧ j < type.shiftAt i + type.bitsPerEntry := by
  by_cases hj : j < 8
  · cases type with
    | inet =>
        have hmod : i * 8 % 8 = 0 := by omega
        have hall : ∀ j < 8, (AddressType.initialMask .inet >>> 0).getLsbD j = true ↔
            8 - 8 - 0 ≤ j ∧ j < 8 - 8 - 0 + 8 := by decide
        simp only [AddressType.entryMask, AddressType.shiftAt, AddressType.bitsPerEntry, hmod]
        exact hall j hj
    | inet6 =>
        have hhigh : ∀ j < 8, (AddressType.initialMask .inet6 >>> 0).getLsbD j = true ↔
            8 - 4 - 0 ≤ j ∧ j < 8 - 4 - 0 + 4 := by decide
        have hlow : ∀ j < 8, (AddressType.initialMask .inet6 >>> 4).getLsbD j = true ↔
            8 - 4 - 4 ≤ j ∧ j < 8 - 4 - 4 + 4 := by decide
        simp only [AddressType.entryMask, AddressType.shiftAt, AddressType.bitsPerEntry]
        rcases (show i * 4 % 8 = 0 ∨ i * 4 % 8 = 4 by omega) with hmod | hmod
        · rw [hmod]
          exact hhigh j hj
        · rw [hmod]
          exact hlow j hj
  · have hle := type.shiftAt_le i
    have hnone : (~~~(0xff#8 >>> type.bitsPerEntry)).getLsbD (i * type.bitsPerEntry % 8 + j) = false :=
      BitVec.getLsbD_of_ge _ _ (by omega)
    unfold AddressType.entryMask AddressType.initialMask
    rw [BitVec.getLsbD_ushiftRight, BitVec.getLsbD_setWidth, hnone, Bool.and_false]
    exact iff_of_false Bool.false_ne_true (by omega)

theorem AddressType.entryMask_step (type : AddressType) (i : ℕ) :
    type.entryMask i >>> type.bitsPerEntry = 0#32 ∧
        (i + 1) * type.bitsPerEntry / 8 = i * type.bitsPerEntry / 8 + 1 ∧
        type.entryMask (i + 1) = type.initialMask ∧ type.shiftAt (i + 1) = type.initialShiftCount ∨
      type.entryMask i >>> type.bitsPerEntry ≠ 0#32 ∧
        (i + 1) * type.bitsPerEntry / 8 = i * type.bitsPerEntry / 8 ∧
        type.entryMask (i + 1) = type.entryMask i >>> type.bitsPerEntry ∧
        type.shiftAt (i + 1) = type.shiftAt i - type.bitsPerEntry := by
  cases type with
  | inet =>
      have hmod : i * 8 % 8 = 0 := by omega
      have hmod' : (i + 1) * 8 % 8 = 0 := by omega
      simp only [AddressType.entryMask, AddressType.shiftAt, AddressType.bitsPerEntry, hmod, hmod']
      exact .inl ⟨by decide, by omega, by decide, by decide⟩
  | inet6 =>
      simp only [AddressType.entryMask, AddressType.shiftAt, AddressType.bitsPerEntry]
      rcases (show i * 4 % 8 = 0 ∧ (i + 1) * 4 % 8 = 4 ∨ i * 4 % 8 = 4 ∧ (i + 1) * 4 % 8 = 0 by omega) with
        ⟨hmod, hmod'⟩ | ⟨hmod, hmod'⟩
      · rw [hmod, hmod']
        exact .inr ⟨by decide, by omega, by decide, by decide⟩
      · rw [hmod, hmod']
        exact .inl ⟨by decide, by omega, by decide, by decide⟩

variable {i k r q : ℕ} {mask : BitVec 32} {a b : Octets type.num} {label : BitVec type.bitsPerEntry}

theorem value_eq_label (a : Octets type.num) (h : i * type.bitsPerEntry / 8 < type.num) :
    ((a ⟨i * type.bitsPerEntry / 8, h⟩).setWidth 32 &&& type.entryMask i) >>> type.shiftAt i =
      (labelAt a i).setWidth 32 := by
  have hle := type.shiftAt_le i
  apply BitVec.eq_of_getLsbD_eq
  intro j hj
  have hmask := type.getLsbD_entryMask i (type.shiftAt i + j)
  rw [BitVec.getLsbD_ushiftRight, BitVec.getLsbD_and, BitVec.getLsbD_setWidth, BitVec.getLsbD_setWidth]
  unfold labelAt
  rw [dif_pos h, BitVec.getLsbD_extractLsb']
  by_cases hin : j < type.bitsPerEntry
  · have hlt : type.shiftAt i + j < 32 := by omega
    rw [hmask.mpr ⟨Nat.le_add_right _ _, by omega⟩]
    simp [hin, hj, hlt]
  · have hfalse : (type.entryMask i).getLsbD (type.shiftAt i + j) = false :=
      Bool.eq_false_iff.mpr fun h => hin (by have hlt := (hmask.mp h).2; omega)
    rw [hfalse]
    simp [hin]

theorem getLsbD_labelAt (a : Octets type.num) (h : i * type.bitsPerEntry / 8 < type.num)
    (hk : k < type.bitsPerEntry) :
    (labelAt a i).getLsbD (type.bitsPerEntry - 1 - k) = bitAt a (i * type.bitsPerEntry + k) := by
  have hbyte : (i * type.bitsPerEntry + k) / 8 = i * type.bitsPerEntry / 8 := by
    cases type <;> simp only [AddressType.bitsPerEntry] at hk ⊢ <;> omega
  have hpos : type.shiftAt i + (type.bitsPerEntry - 1 - k) = 7 - (i * type.bitsPerEntry + k) % 8 := by
    cases type <;> simp only [AddressType.bitsPerEntry, AddressType.shiftAt] at hk ⊢ <;> omega
  unfold labelAt bitAt
  simp only [hbyte]
  rw [dif_pos h, dif_pos h, BitVec.getLsbD_extractLsb', hpos, decide_eq_true (by omega), Bool.true_and]

/-! ### The first loop -/

/-- The text of a label, with its dot. -/
def labelText (type : AddressType) (label : BitVec type.bitsPerEntry) : CString :=
  type.format (label.setWidth 32)

/-- The text of labels in reverse order. -/
def labelsText (type : AddressType) (labels : List (BitVec type.bitsPerEntry)) : CString :=
  labels.reverse.flatMap (labelText type)

/-- The name of a reverse zone. -/
def zoneName (type : AddressType) (labels : List (BitVec type.bitsPerEntry)) : CString :=
  labelsText type labels ++ type.suffix

/-- The first `k` labels of an address. -/
def leadingLabels (a : Octets type.num) (k : ℕ) : List (BitVec type.bitsPerEntry) :=
  (List.range k).map (labelAt a)

/-- The string with the labels: a null pointer as long as there are none. -/
def labelsString (type : AddressType) (labels : List (BitVec type.bitsPerEntry)) : Option CString :=
  if labels = [] then none else some (labelsText type labels)

theorem convertNumberToString_label (label : BitVec type.bitsPerEntry) :
    convertNumberToString (label.setWidth 32) type.maxChars type.format = some (labelText type label) := by
  have hlen : 0 < (type.format (label.setWidth 32)).length ∧
      (type.format (label.setWidth 32)).length ≤ type.maxChars := by
    have hv : (label.setWidth 32).toNat < 2 ^ type.bitsPerEntry := by
      rw [BitVec.toNat_setWidth]
      exact lt_of_le_of_lt (Nat.mod_le _ _) label.isLt
    cases type with
    | inet =>
        have hle := Nat.toDigits_length 10 (label.setWidth 32).toNat 3 (by omega)
          (lt_trans hv (by decide))
        simp only [AddressType.format, AddressType.maxChars, List.length_append, List.length_singleton]
        omega
    | inet6 =>
        have hle := Nat.toDigits_length 16 (label.setWidth 32).toNat 1 (by omega)
          (lt_of_lt_of_le hv (by decide))
        simp only [AddressType.format, AddressType.maxChars, List.length_append, List.length_singleton]
        omega
  unfold convertNumberToString
  rw [if_pos hlen.1, List.take_of_length_le hlen.2]
  rfl

theorem prependString_labels (labels : List (BitVec type.bitsPerEntry)) (label : BitVec type.bitsPerEntry) :
    some (prependString (labelsString type labels) (labelText type label)) =
      labelsString type (labels ++ [label]) := by
  by_cases hnil : labels = []
  · simp [labelsString, prependString, hnil, labelsText]
  · simp [labelsString, prependString, hnil, labelsText]

theorem completeLabels_spec (addr : Address type) (k : ℕ) {bits : ℕ} (hk : bits / type.bitsPerEntry = k)
    (hfit : i * type.bitsPerEntry + bits ≤ 8 * type.num) :
    completeLabels addr ⟨i * type.bitsPerEntry / 8, type.entryMask i, type.shiftAt i, bits,
        labelsString type (leadingLabels addr.address i)⟩ =
      some ⟨(i + k) * type.bitsPerEntry / 8, type.entryMask (i + k), type.shiftAt (i + k),
        bits % type.bitsPerEntry, labelsString type (leadingLabels addr.address (i + k))⟩ := by
  have hpos := type.bitsPerEntry_pos
  induction k generalizing i bits with
  | zero =>
      have hlt : bits < type.bitsPerEntry := (Nat.div_eq_zero_iff_lt hpos).mp hk
      rw [completeLabels]
      dsimp only
      rw [if_neg (Nat.not_le.mpr hlt), Nat.mod_eq_of_lt hlt]
      rfl
  | succ k ih =>
      have hle : type.bitsPerEntry ≤ bits := by
        by_contra hlt
        rw [Nat.div_eq_of_lt (Nat.not_le.mp hlt)] at hk
        omega
      have hbyte : i * type.bitsPerEntry / 8 < type.num := by omega
      have hdiv : (bits - type.bitsPerEntry) / type.bitsPerEntry = k := by
        rw [Nat.div_eq_sub_div hpos hle] at hk
        omega
      have hnext := ih (i := i + 1) hdiv (by rw [Nat.add_mul]; omega)
      have hlabels : leadingLabels addr.address (i + 1) =
          leadingLabels addr.address i ++ [labelAt addr.address i] := by
        unfold leadingLabels
        rw [List.range_succ, List.map_append]
        rfl
      have hcount : i + 1 + k = i + (k + 1) := by omega
      rw [hlabels, ← prependString_labels, ← Nat.mod_eq_sub_mod hle, hcount] at hnext
      rw [completeLabels]
      dsimp only
      rw [if_pos hle, dif_pos hbyte, value_eq_label, convertNumberToString_label]
      dsimp only
      rcases type.entryMask_step i with ⟨hzero, hbyte', hmask, hshift⟩ | ⟨hne, hbyte', hmask, hshift⟩
      · rw [if_pos hzero, ← hbyte', ← hmask, ← hshift]
        exact hnext
      · rw [if_neg hne, ← hmask, ← hshift, ← hbyte']
        exact hnext

/-! ### The last loop -/

theorem getLsbD_clearBits (k s j : ℕ) (mask : BitVec 32) :
    (clearBits k mask (1#32 <<< s)).getLsbD j = true ↔
      mask.getLsbD j = true ∧ ¬ (s ≤ j ∧ j < s + k) := by
  induction k generalizing mask s with
  | zero =>
      have hnone : ¬ (s ≤ j ∧ j < s + 0) := by omega
      simp only [clearBits, hnone, not_false_eq_true, and_true]
  | succ k ih =>
      have hbit : (mask &&& ~~~(1#32 <<< s)).getLsbD j = true ↔ mask.getLsbD j = true ∧ s ≠ j := by
        by_cases hj : j < 32
        · rw [BitVec.getLsbD_and, BitVec.getLsbD_not, ← BitVec.twoPow_eq, BitVec.getLsbD_twoPow]
          simp [hj]
          intro _
          omega
        · have hout (x : BitVec 32) : x.getLsbD j = false := BitVec.getLsbD_of_ge x j (by omega)
          simp [hout]
      rw [clearBits, ← BitVec.shiftLeft_add, ih, hbit, and_assoc]
      have hiff : s ≠ j ∧ ¬ (s + 1 ≤ j ∧ j < s + 1 + k) ↔ ¬ (s ≤ j ∧ j < s + (k + 1)) := by omega
      rw [hiff]

theorem toNat_and_mask {w : ℕ} (hk : k ≤ w)
    (hmask : ∀ j, mask.getLsbD j = true ↔ k ≤ j ∧ j < w) (value : BitVec 32) :
    (value &&& mask).toNat = value.toNat / 2 ^ k % 2 ^ (w - k) * 2 ^ k := by
  apply Nat.eq_of_testBit_eq
  intro j
  have hbit : (value &&& mask).toNat.testBit j = (value.getLsbD j && mask.getLsbD j) := by
    rw [← BitVec.getLsbD_and]
    rfl
  rw [hbit, Nat.testBit_mul_two_pow, Nat.testBit_mod_two_pow, Nat.testBit_div_two_pow]
  by_cases hin : k ≤ j ∧ j < w
  · have hindex : j - k + k = j := by omega
    have hlt : j - k < w - k := by omega
    rw [(hmask j).mpr hin, hindex]
    simp only [hin.1, hlt, decide_true, Bool.true_and, Bool.and_true]
    rfl
  · have hfalse : mask.getLsbD j = false := Bool.eq_false_iff.mpr fun h => hin ((hmask j).mp h)
    rw [hfalse, Bool.and_false]
    by_cases hle : k ≤ j
    · have hnot : ¬ j - k < w - k := by omega
      simp [hnot]
    · simp [hle]

theorem lastValues_spec {w c : ℕ} {start : BitVec 32} (hk : k < w) (hw : w ≤ 8)
    (hmask : ∀ j, mask.getLsbD j = true ↔ k ≤ j ∧ j < w) (hc : c < 2 ^ (w - k))
    (hstart : start.toNat = c * 2 ^ k) (m : ℕ) {d rounds : ℕ} (hd : d + m = 2 ^ k) (hrounds : m < rounds) :
    lastValues mask start rounds (BitVec.ofNat 32 (c * 2 ^ k + d)) =
      some ((List.range' d m).map fun e => BitVec.ofNat 32 (c * 2 ^ k + e)) := by
  have hpow : 0 < 2 ^ k := Nat.two_pow_pos k
  have hsmall : c * 2 ^ k + 2 ^ k ≤ 2 ^ 8 := by
    calc
      c * 2 ^ k + 2 ^ k = (c + 1) * 2 ^ k := by ring
      _ ≤ 2 ^ (w - k) * 2 ^ k := Nat.mul_le_mul_right _ hc
      _ = 2 ^ w := by rw [← pow_add, Nat.sub_add_cancel hk.le]
      _ ≤ 2 ^ 8 := Nat.pow_le_pow_right (by omega) hw
  have hvalue (e : ℕ) (he : e ≤ 2 ^ k) : (BitVec.ofNat 32 (c * 2 ^ k + e)).toNat = c * 2 ^ k + e := by
    rw [BitVec.toNat_ofNat]
    exact Nat.mod_eq_of_lt (by omega)
  have hmasked (e : ℕ) (he : e ≤ 2 ^ k) :
      BitVec.ofNat 32 (c * 2 ^ k + e) &&& mask = start ↔ (c + e / 2 ^ k) % 2 ^ (w - k) = c := by
    have hdiv : (c * 2 ^ k + e) / 2 ^ k = c + e / 2 ^ k := by
      rw [Nat.add_comm, Nat.add_mul_div_right _ _ hpow, Nat.add_comm]
    rw [← BitVec.toNat_inj, toNat_and_mask hk.le hmask, hvalue e he, hstart, hdiv]
    exact Nat.mul_left_inj hpow.ne'
  induction m generalizing d rounds with
  | zero =>
      obtain ⟨rounds, rfl⟩ : ∃ n, rounds = n + 1 := ⟨rounds - 1, by omega⟩
      obtain rfl : d = 2 ^ k := by omega
      -- the value behind the block has other leading bits
      have hnot : ¬ BitVec.ofNat 32 (c * 2 ^ k + 2 ^ k) &&& mask = start := by
        rw [hmasked _ (le_refl _), Nat.div_self hpow]
        have htwo : 2 ≤ 2 ^ (w - k) := by
          calc
            2 = 2 ^ 1 := rfl
            _ ≤ 2 ^ (w - k) := Nat.pow_le_pow_right (by omega) (by omega)
        by_cases hlast : c + 1 = 2 ^ (w - k)
        · rw [hlast, Nat.mod_self]
          omega
        · rw [Nat.mod_eq_of_lt (by omega)]
          omega
      rw [lastValues, if_neg hnot]
      rfl
  | succ m ih =>
      obtain ⟨rounds, rfl⟩ : ∃ n, rounds = n + 1 := ⟨rounds - 1, by omega⟩
      have hin : BitVec.ofNat 32 (c * 2 ^ k + d) &&& mask = start := by
        rw [hmasked d (by omega), Nat.div_eq_of_lt (by omega), Nat.add_zero, Nat.mod_eq_of_lt hc]
      have hnext : lastValues mask start rounds (BitVec.ofNat 32 (c * 2 ^ k + (d + 1))) = _ :=
        ih (by omega) (by omega)
      rw [← Nat.add_assoc, BitVec.ofNat_add] at hnext
      rw [lastValues, if_pos hin]
      show (lastValues mask start rounds (BitVec.ofNat 32 (c * 2 ^ k + d) + BitVec.ofNat 32 1)).map _ = _
      rw [hnext]
      rfl

theorem lastLine_label (labels : List (BitVec type.bitsPerEntry)) (hne : labels ≠ [])
    (label : BitVec type.bitsPerEntry) :
    lastLine type (labelsString type labels) (label.setWidth 32) = some [zoneName type (labels ++ [label])] := by
  unfold lastLine
  rw [convertNumberToString_label]
  unfold labelsString
  rw [if_neg hne]
  simp [zoneName, labelsText]

theorem lastLine_null (label : BitVec type.bitsPerEntry) :
    lastLine type none (label.setWidth 32) = none := by
  unfold lastLine
  rw [convertNumberToString_label]
  rfl

/-! ### Zones -/

/-- The addresses of a reverse zone: those that begin with its labels. -/
def zone (labels : List (BitVec type.bitsPerEntry)) : Set (Octets type.num) :=
  {a | leadingLabels a labels.length = labels}

/-- The addresses of a network: those with the same leading bits. -/
def networkOf (addr : Address type) : Set (Octets type.num) :=
  {a | ∀ j < addr.netmaskbits.toNat, bitAt a j = bitAt addr.address j}

theorem length_leadingLabels (a : Octets type.num) (k : ℕ) : (leadingLabels a k).length = k := by
  unfold leadingLabels
  rw [List.length_map, List.length_range]

theorem leadingLabels_succ (a : Octets type.num) (k : ℕ) :
    leadingLabels a (k + 1) = leadingLabels a k ++ [labelAt a k] := by
  unfold leadingLabels
  rw [List.range_succ, List.map_append]
  rfl

theorem leadingLabels_eq_iff :
    leadingLabels a k = leadingLabels b k ↔ ∀ i < k, labelAt a i = labelAt b i := by
  unfold leadingLabels
  rw [List.map_inj_left]
  simp only [List.mem_range]

theorem mem_zone_leadingLabels :
    a ∈ zone (leadingLabels b k) ↔ ∀ i < k, labelAt a i = labelAt b i := by
  show leadingLabels a (leadingLabels b k).length = leadingLabels b k ↔ _
  rw [length_leadingLabels]
  exact leadingLabels_eq_iff

theorem mem_zone_append :
    a ∈ zone (leadingLabels b k ++ [label]) ↔ (∀ i < k, labelAt a i = labelAt b i) ∧ labelAt a k = label := by
  show leadingLabels a (leadingLabels b k ++ [label]).length = leadingLabels b k ++ [label] ↔ _
  rw [List.length_append, length_leadingLabels, List.length_singleton, leadingLabels_succ]
  constructor
  · intro h
    have hparts := List.append_inj' h rfl
    exact ⟨leadingLabels_eq_iff.mp hparts.1, List.singleton_inj.mp hparts.2⟩
  · rintro ⟨hlabels, hlast⟩
    rw [leadingLabels_eq_iff.mpr hlabels, hlast]

theorem label_div_eq_iff (hr : r ≤ type.bitsPerEntry) (h : i * type.bitsPerEntry / 8 < type.num) :
    (labelAt a i).toNat / 2 ^ (type.bitsPerEntry - r) = (labelAt b i).toNat / 2 ^ (type.bitsPerEntry - r) ↔
      ∀ k < r, bitAt a (i * type.bitsPerEntry + k) = bitAt b (i * type.bitsPerEntry + k) := by
  have htest (c : Octets type.num) (j : ℕ) :
      ((labelAt c i).toNat / 2 ^ (type.bitsPerEntry - r)).testBit j =
        (labelAt c i).getLsbD (j + (type.bitsPerEntry - r)) := by
    rw [Nat.testBit_div_two_pow]
    rfl
  constructor
  · intro heq k hk
    have hsame := congrArg (fun x => x.testBit (r - 1 - k)) heq
    have hindex : r - 1 - k + (type.bitsPerEntry - r) = type.bitsPerEntry - 1 - k := by omega
    simp only [htest, hindex] at hsame
    rwa [getLsbD_labelAt a h (by omega), getLsbD_labelAt b h (by omega)] at hsame
  · intro hall
    apply Nat.eq_of_testBit_eq
    intro j
    rw [htest, htest]
    by_cases hj : j < r
    · have hindex : j + (type.bitsPerEntry - r) = type.bitsPerEntry - 1 - (r - 1 - j) := by omega
      rw [hindex, getLsbD_labelAt a h (by omega), getLsbD_labelAt b h (by omega)]
      exact hall _ (by omega)
    · rw [BitVec.getLsbD_of_ge _ _ (by omega), BitVec.getLsbD_of_ge _ _ (by omega)]

theorem label_eq_iff (h : i * type.bitsPerEntry / 8 < type.num) :
    labelAt a i = labelAt b i ↔ ∀ k < type.bitsPerEntry,
      bitAt a (i * type.bitsPerEntry + k) = bitAt b (i * type.bitsPerEntry + k) := by
  rw [← label_div_eq_iff (le_refl _) h, Nat.sub_self, Nat.pow_zero, Nat.div_one, Nat.div_one,
    BitVec.toNat_inj]

theorem labels_eq_iff (h : q * type.bitsPerEntry ≤ 8 * type.num) :
    (∀ i < q, labelAt a i = labelAt b i) ↔ ∀ j < q * type.bitsPerEntry, bitAt a j = bitAt b j := by
  have hpos := type.bitsPerEntry_pos
  have hlabel (i : ℕ) (hi : i < q) : i * type.bitsPerEntry + type.bitsPerEntry ≤ q * type.bitsPerEntry := by
    rw [← Nat.succ_mul]
    exact Nat.mul_le_mul_right _ hi
  constructor
  · intro hall j hj
    have hi : j / type.bitsPerEntry < q := (Nat.div_lt_iff_lt_mul hpos).mpr hj
    have hle := hlabel _ hi
    have hbit := (label_eq_iff (by omega)).mp (hall _ hi) (j % type.bitsPerEntry) (Nat.mod_lt j hpos)
    rwa [Nat.div_add_mod'] at hbit
  · intro hall i hi
    have hle := hlabel i hi
    apply (label_eq_iff (by omega)).mpr
    intro k hk
    exact hall _ (by omega)

theorem mem_networkOf_iff {addr : Address type}
    (hbits : addr.netmaskbits.toNat = q * type.bitsPerEntry + r) (hr : r ≤ type.bitsPerEntry)
    (hfit : q * type.bitsPerEntry + r ≤ 8 * type.num) (hin : q * type.bitsPerEntry / 8 < type.num) :
    a ∈ networkOf addr ↔ (∀ i < q, labelAt a i = labelAt addr.address i) ∧
      (labelAt a q).toNat / 2 ^ (type.bitsPerEntry - r) =
        (labelAt addr.address q).toNat / 2 ^ (type.bitsPerEntry - r) := by
  rw [labels_eq_iff (by omega), label_div_eq_iff hr hin]
  show (∀ j < addr.netmaskbits.toNat, bitAt a j = bitAt addr.address j) ↔ _
  rw [hbits]
  constructor
  · intro hall
    exact ⟨fun j hj => hall j (by omega), fun k hk => hall _ (by omega)⟩
  · rintro ⟨hlabels, hrest⟩ j hj
    by_cases hlead : j < q * type.bitsPerEntry
    · exact hlabels j hlead
    · have hindex : q * type.bitsPerEntry + (j - q * type.bitsPerEntry) = j := by omega
      have hbit := hrest (j - q * type.bitsPerEntry) (by omega)
      rwa [hindex] at hbit

/-- The labels with the same leading bits as a label. -/
def blockLabels (label : BitVec type.bitsPerEntry) (k : ℕ) : List (BitVec type.bitsPerEntry) :=
  (List.range (2 ^ k)).map fun e => BitVec.ofNat _ (label.toNat / 2 ^ k * 2 ^ k + e)

theorem block_lt {e : ℕ} (hk : k ≤ type.bitsPerEntry) (he : e < 2 ^ k) :
    label.toNat / 2 ^ k * 2 ^ k + e < 2 ^ type.bitsPerEntry := by
  have hlt := label.isLt
  have hc : label.toNat / 2 ^ k < 2 ^ (type.bitsPerEntry - k) := by
    apply Nat.div_lt_of_lt_mul
    rw [← pow_add, Nat.add_sub_cancel' hk]
    exact hlt
  calc
    label.toNat / 2 ^ k * 2 ^ k + e < (label.toNat / 2 ^ k + 1) * 2 ^ k := by
      rw [Nat.add_mul, Nat.one_mul]
      omega
    _ ≤ 2 ^ (type.bitsPerEntry - k) * 2 ^ k := Nat.mul_le_mul_right _ hc
    _ = 2 ^ type.bitsPerEntry := by rw [← pow_add, Nat.sub_add_cancel hk]

theorem mem_blockLabels {label' : BitVec type.bitsPerEntry} (hk : k ≤ type.bitsPerEntry) :
    label' ∈ blockLabels label k ↔ label'.toNat / 2 ^ k = label.toNat / 2 ^ k := by
  have hpow : 0 < 2 ^ k := Nat.two_pow_pos k
  unfold blockLabels
  rw [List.mem_map]
  constructor
  · rintro ⟨e, he, rfl⟩
    have he' := List.mem_range.mp he
    rw [BitVec.toNat_ofNat, Nat.mod_eq_of_lt (block_lt hk he'), Nat.add_comm,
      Nat.add_mul_div_right _ _ hpow, Nat.div_eq_of_lt he', Nat.zero_add]
  · intro hdiv
    refine ⟨label'.toNat % 2 ^ k, List.mem_range.mpr (Nat.mod_lt _ hpow), ?_⟩
    rw [← hdiv, Nat.div_add_mod', BitVec.ofNat_toNat, BitVec.setWidth_eq]

theorem blockLabels_nodup (label : BitVec type.bitsPerEntry) (hk : k ≤ type.bitsPerEntry) :
    (blockLabels label k).Nodup := by
  apply List.Nodup.map_on _ List.nodup_range
  intro e he e' he' heq
  have hnat := congrArg BitVec.toNat heq
  rw [BitVec.toNat_ofNat, BitVec.toNat_ofNat, Nat.mod_eq_of_lt (block_lt hk (List.mem_range.mp he)),
    Nat.mod_eq_of_lt (block_lt hk (List.mem_range.mp he'))] at hnat
  omega

/-! ### What is printed -/

theorem completeLabels_start {addr : Address type} (h : addr.InRange)
    (hbits : addr.netmaskbits.toNat = q * type.bitsPerEntry + r) (hr : r < type.bitsPerEntry) :
    completeLabels addr ⟨0, type.initialMask, type.initialShiftCount, addr.netmaskbits.toNat, none⟩ =
      some ⟨q * type.bitsPerEntry / 8, type.entryMask q, type.shiftAt q, r,
        labelsString type (leadingLabels addr.address q)⟩ := by
  have hpos := type.bitsPerEntry_pos
  have hdiv : addr.netmaskbits.toNat / type.bitsPerEntry = q := by
    rw [hbits, Nat.add_comm, Nat.add_mul_div_right _ _ hpos, Nat.div_eq_of_lt hr, Nat.zero_add]
  have hmod : addr.netmaskbits.toNat % type.bitsPerEntry = r := by
    rw [hbits, Nat.add_comm, Nat.add_mul_mod_self_right, Nat.mod_eq_of_lt hr]
  have hspec := completeLabels_spec addr q hdiv (i := 0) (by rw [Nat.zero_mul, Nat.zero_add]; exact h)
  have hmask : type.entryMask 0 = type.initialMask := by cases type <;> decide
  have hshift : type.shiftAt 0 = type.initialShiftCount := by cases type <;> decide
  have hbyte : 0 * type.bitsPerEntry / 8 = 0 := by rw [Nat.zero_mul, Nat.zero_div]
  rw [hmask, hshift, hbyte, Nat.zero_add, hmod] at hspec
  exact hspec

theorem startValue_toNat (a : Octets type.num) (h : q * type.bitsPerEntry / 8 < type.num)
    (hk : k ≤ type.bitsPerEntry)
    (hmask : ∀ j, (mask >>> type.shiftAt q).getLsbD j = true ↔ k ≤ j ∧ j < type.bitsPerEntry) :
    (((a ⟨q * type.bitsPerEntry / 8, h⟩).setWidth 32 &&& mask) >>> type.shiftAt q).toNat =
      (labelAt a q).toNat / 2 ^ k * 2 ^ k := by
  have hlabel : (labelAt a q).toNat =
      ((a ⟨q * type.bitsPerEntry / 8, h⟩).setWidth 32 >>> type.shiftAt q).toNat % 2 ^ type.bitsPerEntry := by
    unfold labelAt
    rw [dif_pos h, BitVec.extractLsb'_toNat, BitVec.toNat_ushiftRight, BitVec.toNat_setWidth,
      Nat.mod_eq_of_lt (lt_trans (BitVec.isLt _) (by decide))]
  have hpow : 2 ^ type.bitsPerEntry = 2 ^ k * 2 ^ (type.bitsPerEntry - k) := by
    rw [← pow_add, Nat.add_sub_cancel' hk]
  rw [BitVec.ushiftRight_and_distrib, toNat_and_mask hk hmask, hlabel, hpow, Nat.mod_mul_right_div_self]

theorem mapM_eq_some_map {α β γ : Type} {f : α → β} {g : β → Option γ} {h : α → γ}
    (hg : ∀ a, g (f a) = some (h a)) (l : List α) : (l.map f).mapM g = some (l.map h) := by
  induction l with
  | nil => rfl
  | cons a l ih =>
      rw [List.map_cons, List.mapM_cons, hg, ih]
      rfl

theorem lastValues_blockLabels {start : BitVec 32}
    (hk : k < type.bitsPerEntry) (hmask : ∀ j, mask.getLsbD j = true ↔ k ≤ j ∧ j < type.bitsPerEntry)
    (hstart : start.toNat = label.toNat / 2 ^ k * 2 ^ k) :
    lastValues mask start (2 ^ 32) start = some ((blockLabels label k).map (BitVec.setWidth 32)) := by
  have hw : type.bitsPerEntry ≤ 8 := by cases type <;> decide
  have hc : label.toNat / 2 ^ k < 2 ^ (type.bitsPerEntry - k) := by
    apply Nat.div_lt_of_lt_mul
    rw [← pow_add, Nat.add_sub_cancel' hk.le]
    exact label.isLt
  have hrounds : 2 ^ k < 2 ^ 32 := Nat.pow_lt_pow_right (by omega) (by omega)
  have hspec := lastValues_spec hk hw hmask hc hstart (2 ^ k) (Nat.zero_add _) hrounds
  have hfirst : BitVec.ofNat 32 (label.toNat / 2 ^ k * 2 ^ k + 0) = start := by
    rw [Nat.add_zero, ← hstart, BitVec.ofNat_toNat, BitVec.setWidth_eq]
  rw [hfirst] at hspec
  rw [hspec, ← List.range_eq_range']
  unfold blockLabels
  rw [List.map_map]
  congr 1
  apply List.map_congr_left
  intro e he
  have hlt : label.toNat / 2 ^ k * 2 ^ k + e < 2 ^ type.bitsPerEntry :=
    block_lt hk.le (List.mem_range.mp he)
  apply BitVec.eq_of_toNat_eq
  rw [Function.comp_apply, BitVec.toNat_setWidth, BitVec.toNat_ofNat, BitVec.toNat_ofNat,
    Nat.mod_eq_of_lt hlt]

theorem convertCIDRToDNSRev_block {addr : Address type} (h : addr.InRange)
    (hbits : addr.netmaskbits.toNat = q * type.bitsPerEntry + r) (hr : r < type.bitsPerEntry) (hpos : 0 < r) :
    convertCIDRToDNSRev addr =
      (((blockLabels (labelAt addr.address q) (type.bitsPerEntry - r)).map (BitVec.setWidth 32)).mapM
        (lastLine type (labelsString type (leadingLabels addr.address q)))).map List.flatten := by
  have hle := type.shiftAt_le q
  have hrange : addr.netmaskbits.toNat ≤ 8 * type.num := h
  have hin : q * type.bitsPerEntry / 8 < type.num := by omega
  -- the bits of the label in front of the end of the netmask
  have hmask (j : ℕ) :
      (clearBits (type.bitsPerEntry - r) (type.entryMask q) (1#32 <<< type.shiftAt q) >>>
        type.shiftAt q).getLsbD j = true ↔ type.bitsPerEntry - r ≤ j ∧ j < type.bitsPerEntry := by
    rw [BitVec.getLsbD_ushiftRight, getLsbD_clearBits, type.getLsbD_entryMask]
    omega
  unfold convertCIDRToDNSRev
  rw [completeLabels_start h hbits hr, Option.bind_some]
  dsimp only
  rw [if_pos hpos, dif_pos hin, lastValues_blockLabels (by omega) hmask
    (startValue_toNat addr.address hin (by omega) hmask), Option.bind_some]

/-- The names of the reverse zones are printed: they have complete labels, belong to disjoint sets of
addresses, and these are the network together.  There is one of them if the netmask ends with a label. -/
def PrintsZones (addr : Address type) : Prop :=
  ∃ zones : List (List (BitVec type.bitsPerEntry)),
    convertCIDRToDNSRev addr = some (zones.map (zoneName type)) ∧
    (∀ labels ∈ zones, labels ≠ [] ∧ labels.length * type.bitsPerEntry ≤ 8 * type.num) ∧
    zones.Pairwise (fun labels labels' => Disjoint (zone labels) (zone labels')) ∧
    ⋃ labels ∈ zones, zone labels = networkOf addr ∧
    zones.length = if addr.netmaskbits.toNat % type.bitsPerEntry = 0 then 1
      else 2 ^ (type.bitsPerEntry - addr.netmaskbits.toNat % type.bitsPerEntry)

theorem printsZones_complete {addr : Address type} (h : addr.InRange) (hq : 0 < q)
    (hbits : addr.netmaskbits.toNat = q * type.bitsPerEntry) : PrintsZones addr := by
  have hrange : addr.netmaskbits.toNat ≤ 8 * type.num := h
  have hne : leadingLabels addr.address q ≠ [] := by
    intro hnil
    have hlen := length_leadingLabels addr.address q
    rw [hnil] at hlen
    exact hq.ne hlen
  refine ⟨[leadingLabels addr.address q], ?_, ?_, List.pairwise_singleton _ _, ?_, ?_⟩
  · unfold convertCIDRToDNSRev
    rw [completeLabels_start h (r := 0) hbits type.bitsPerEntry_pos, Option.bind_some]
    dsimp only
    rw [if_neg (lt_irrefl 0)]
    unfold labelsString
    rw [if_neg hne]
    rfl
  · intro labels hlabels
    rw [List.mem_singleton] at hlabels
    subst hlabels
    rw [length_leadingLabels]
    exact ⟨hne, by omega⟩
  · ext a
    simp only [List.mem_singleton, Set.iUnion_iUnion_eq_left]
    rw [mem_zone_leadingLabels, labels_eq_iff (by omega), ← hbits]
    rfl
  · rw [hbits, Nat.mul_mod_left, if_pos rfl]
    rfl

theorem printsZones_block {addr : Address type} (h : addr.InRange) (hq : 0 < q)
    (hbits : addr.netmaskbits.toNat = q * type.bitsPerEntry + r) (hr : r < type.bitsPerEntry) (hpos : 0 < r) :
    PrintsZones addr := by
  have hrange : addr.netmaskbits.toNat ≤ 8 * type.num := h
  have hin : q * type.bitsPerEntry / 8 < type.num := by omega
  have hk : type.bitsPerEntry - r ≤ type.bitsPerEntry := Nat.sub_le _ _
  have hne : leadingLabels addr.address q ≠ [] := by
    intro hnil
    have hlen := length_leadingLabels addr.address q
    rw [hnil] at hlen
    exact hq.ne hlen
  have hmod : addr.netmaskbits.toNat % type.bitsPerEntry = r := by
    rw [hbits, Nat.add_comm, Nat.add_mul_mod_self_right, Nat.mod_eq_of_lt hr]
  have hwhole : q * type.bitsPerEntry + type.bitsPerEntry ≤ 8 * type.num := by
    cases type <;> simp only [AddressType.bitsPerEntry, AddressType.num] at hbits hrange ⊢ <;> omega
  refine ⟨(blockLabels (labelAt addr.address q) (type.bitsPerEntry - r)).map
    fun label => leadingLabels addr.address q ++ [label], ?_, ?_, ?_, ?_, ?_⟩
  · rw [convertCIDRToDNSRev_block h hbits hr hpos, mapM_eq_some_map (lastLine_label _ hne), List.map_map]
    rw [Option.map_some, List.map_eq_flatMap (f := zoneName type ∘ _), List.flatten_eq_flatMap, List.flatMap_map]
    rfl
  · intro labels hlabels
    obtain ⟨label, -, rfl⟩ := List.mem_map.mp hlabels
    rw [List.length_append, length_leadingLabels, List.length_singleton, Nat.add_mul, Nat.one_mul]
    exact ⟨by simp, hwhole⟩
  · rw [List.pairwise_map]
    apply (blockLabels_nodup _ hk).imp
    intro label label' hdiffer
    rw [Set.disjoint_left]
    intro a ha ha'
    exact hdiffer ((mem_zone_append.mp ha).2.symm.trans (mem_zone_append.mp ha').2)
  · ext a
    rw [mem_networkOf_iff hbits hr.le (by omega) hin, ← mem_blockLabels hk]
    simp only [Set.mem_iUnion, List.mem_map, exists_prop]
    constructor
    · rintro ⟨labels, ⟨label, hlabel, rfl⟩, ha⟩
      obtain ⟨hlabels, rfl⟩ := mem_zone_append.mp ha
      exact ⟨hlabels, hlabel⟩
    · rintro ⟨hlabels, hlabel⟩
      exact ⟨_, ⟨_, hlabel, rfl⟩, mem_zone_append.mpr ⟨hlabels, rfl⟩⟩
  · rw [List.length_map, hmod, if_neg hpos.ne']
    unfold blockLabels
    rw [List.length_map, List.length_range]

theorem convertCIDRToDNSRev_null {addr : Address type} (h : addr.InRange)
    (hpos : 0 < addr.netmaskbits.toNat) (hlt : addr.netmaskbits.toNat < type.bitsPerEntry) :
    convertCIDRToDNSRev addr = none := by
  have hbits : addr.netmaskbits.toNat = 0 * type.bitsPerEntry + addr.netmaskbits.toNat := by
    rw [Nat.zero_mul, Nat.zero_add]
  rw [convertCIDRToDNSRev_block h hbits hlt hpos]
  have hstring : labelsString type (leadingLabels addr.address 0) = none := rfl
  obtain ⟨n, hn⟩ : ∃ n, 2 ^ (type.bitsPerEntry - addr.netmaskbits.toNat) = n + 1 :=
    ⟨_, (Nat.sub_add_cancel (Nat.two_pow_pos _)).symm⟩
  unfold blockLabels
  rw [hn, List.range_succ_eq_map, List.map_cons, List.map_cons, List.mapM_cons, hstring, lastLine_null]
  rfl

/-- The names of the reverse zones of a network are printed if and only if its netmask has the bits of a
label. -/
theorem printsZones_iff {addr : Address type} (h : addr.InRange) (hpos : 1 ≤ addr.netmaskbits.toNat) :
    PrintsZones addr ↔ type.bitsPerEntry ≤ addr.netmaskbits.toNat := by
  constructor
  · rintro ⟨zones, hprinted, -⟩
    by_contra hlt
    rw [convertCIDRToDNSRev_null h hpos (Nat.not_le.mp hlt)] at hprinted
    contradiction
  · intro hle
    have hq : 0 < addr.netmaskbits.toNat / type.bitsPerEntry := Nat.div_pos hle type.bitsPerEntry_pos
    have hbits := (Nat.div_add_mod' addr.netmaskbits.toNat type.bitsPerEntry).symm
    by_cases hzero : addr.netmaskbits.toNat % type.bitsPerEntry = 0
    · rw [hzero, Nat.add_zero] at hbits
      exact printsZones_complete h hq hbits
    · exact printsZones_block h hq hbits (Nat.mod_lt _ type.bitsPerEntry_pos) (Nat.pos_of_ne_zero hzero)

/-- Six bits behind the first byte: four zones. -/
def privateBlock : Address .inet := ⟨![10#8, 64#8, 0#8, 0#8], 14#32⟩

theorem printsZones_iff_privateBlock : PrintsZones privateBlock := by
  apply (printsZones_iff _ _).mpr
  · decide
  · unfold Address.InRange
    decide
  · decide

/-- The network `10.0.0.0/7`. -/
def shortBlock : Address .inet := ⟨![10#8, 0#8, 0#8, 0#8], 7#32⟩

/-- There is nothing that could be printed for it. -/
theorem convertCIDRToDNSRev_short :
    convertCIDRToDNSRev shortBlock = none ∧ ¬ PrintsZones shortBlock := by
  have hnone : convertCIDRToDNSRev shortBlock = none := by
    apply convertCIDRToDNSRev_null
    · unfold Address.InRange
      decide
    · decide
    · decide
  refine ⟨hnone, ?_⟩
  rintro ⟨zones, hprinted, -⟩
  rw [hnone] at hprinted
  contradiction

end Netcalc
end Mkfli4l
