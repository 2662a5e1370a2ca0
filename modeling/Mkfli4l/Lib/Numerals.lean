import Mathlib.Data.Nat.Digits.Lemmas
import Mathlib.Tactic

/-!
# Numerals in byte fields

Archive formats store numbers as ASCII digits in fields of fixed width, most significant digit
first.  `printPadded` is what `printf` writes for a conversion with a minimum width and leading
zeros: a number that needs more digits than the width gets them.  `readDigits` is the way back.
-/

namespace Mkfli4l
namespace Lib

abbrev Bytes := List UInt8

/-- The ASCII digit for a value below 16, with upper-case letters. -/
def digitByte (d : Nat) : UInt8 := UInt8.ofNat (if d < 10 then 48 + d else 55 + d)

/-- The value of an ASCII digit, with letters of either case. -/
def byteDigit (base : Nat) (c : UInt8) : Option Nat :=
  let d :=
    if 48 ≤ c.toNat ∧ c.toNat ≤ 57 then c.toNat - 48
    else if 65 ≤ c.toNat ∧ c.toNat ≤ 70 then c.toNat - 55
    else if 97 ≤ c.toNat ∧ c.toNat ≤ 102 then c.toNat - 87
    else base
  if d < base then some d else none

/-- The digits of a number, most significant first, with zeros in front up to the width. -/
def paddedDigits (base width n : Nat) : List Nat :=
  List.replicate (width - (Nat.digits base n).length) 0 ++ (Nat.digits base n).reverse

/-- `printf` with a minimum width and the flag `0`. -/
def printPadded (base width n : Nat) : Bytes := (paddedDigits base width n).map digitByte

/-- The number that a string of digits stands for. -/
def readDigits (base : Nat) (bytes : Bytes) : Option Nat :=
  bytes.foldlM (fun acc c => (byteDigit base c).map fun d => acc * base + d) 0

variable {base width n : Nat}

theorem byteDigit_digitByte {d : Nat} (hbase : base ≤ 16) (hd : d < base) :
    byteDigit base (digitByte d) = some d := by
  have hall : ∀ d < 16, (if 48 ≤ (digitByte d).toNat ∧ (digitByte d).toNat ≤ 57 then
        (digitByte d).toNat - 48
      else if 65 ≤ (digitByte d).toNat ∧ (digitByte d).toNat ≤ 70 then (digitByte d).toNat - 55
      else if 97 ≤ (digitByte d).toNat ∧ (digitByte d).toNat ≤ 102 then (digitByte d).toNat - 87
      else 16) = d := by decide
  have hvalue := hall d (by omega)
  unfold byteDigit
  split at hvalue
  · next h => simp [h, hvalue, hd]
  · split at hvalue
    · next h h' => simp [h, h', hvalue, hd]
    · split at hvalue
      · next h h' h'' => simp [h, h', h'', hvalue, hd]
      · omega

theorem foldlM_digitByte (hbase : base ≤ 16) {ds : List Nat} (hds : ∀ d ∈ ds, d < base) (acc : Nat) :
    (ds.map digitByte).foldlM (fun acc c => (byteDigit base c).map fun d => acc * base + d) acc =
      some (ds.foldl (fun acc d => acc * base + d) acc) := by
  induction ds generalizing acc with
  | nil => rfl
  | cons d ds ih =>
      rw [List.map_cons, List.foldlM_cons, byteDigit_digitByte hbase (hds d List.mem_cons_self)]
      exact ih (fun d hd => hds d (List.mem_cons_of_mem _ hd)) _

theorem foldl_digits_append_zeros (k : Nat) (ds : List Nat) :
    (List.replicate k 0 ++ ds).foldl (fun acc d => acc * base + d) 0 =
      ds.foldl (fun acc d => acc * base + d) 0 := by
  induction k with
  | zero => rfl
  | succ k ih => simpa [List.replicate_succ] using ih

theorem foldl_reverse_digits (base n : Nat) :
    (Nat.digits base n).reverse.foldl (fun acc d => acc * base + d) 0 = n := by
  rw [List.foldl_reverse]
  have hvalue := Nat.ofDigits_digits base n
  rw [Nat.ofDigits_eq_foldr] at hvalue
  simpa [Nat.add_comm, Nat.mul_comm] using hvalue

theorem mem_paddedDigits (hbase : 1 < base) {d : Nat} (h : d ∈ paddedDigits base width n) :
    d < base := by
  rcases List.mem_append.mp h with h | h
  · have hzero := List.eq_of_mem_replicate h
    omega
  · exact Nat.digits_lt_base hbase (List.mem_reverse.mp h)

theorem readDigits_printPadded (hbase : 1 < base) (hbase' : base ≤ 16) :
    readDigits base (printPadded base width n) = some n := by
  unfold readDigits printPadded
  rw [foldlM_digitByte hbase' fun d hd => mem_paddedDigits hbase hd]
  unfold paddedDigits
  rw [foldl_digits_append_zeros, foldl_reverse_digits]

theorem foldl_digits_lt {ds : List Nat} (hds : ∀ d ∈ ds, d < base) (acc : Nat) :
    ds.foldl (fun acc d => acc * base + d) acc < (acc + 1) * base ^ ds.length := by
  induction ds generalizing acc with
  | nil => simp
  | cons d ds ih =>
      have hd := hds d List.mem_cons_self
      have hrest := ih (fun d hd => hds d (List.mem_cons_of_mem _ hd)) (acc * base + d)
      have hle : acc * base + d + 1 ≤ (acc + 1) * base := by
        rw [Nat.add_mul, Nat.one_mul]
        omega
      calc
        (d :: ds).foldl (fun acc d => acc * base + d) acc
            < (acc * base + d + 1) * base ^ ds.length := hrest
        _ ≤ (acc + 1) * base * base ^ ds.length := Nat.mul_le_mul_right _ hle
        _ = (acc + 1) * base ^ (d :: ds).length := by
            rw [List.length_cons, Nat.pow_succ, Nat.mul_assoc, Nat.mul_comm base]

theorem readDigits_digitByte (hbase : base ≤ 16) {ds : List Nat} (hds : ∀ d ∈ ds, d < base) :
    ∃ w, readDigits base (ds.map digitByte) = some w ∧ w < base ^ ds.length := by
  refine ⟨_, foldlM_digitByte hbase hds 0, ?_⟩
  simpa using foldl_digits_lt hds 0

theorem length_printPadded (hbase : 1 < base) (hn : n < base ^ width) :
    (printPadded base width n).length = width := by
  have hle : (Nat.digits base n).length ≤ width := (Nat.digits_length_le_iff hbase n).mpr hn
  simp only [printPadded, paddedDigits, List.length_map, List.length_append,
    List.length_replicate, List.length_reverse]
  omega

theorem length_paddedDigits (base width n : Nat) :
    (paddedDigits base width n).length = max width (Nat.digits base n).length := by
  simp only [paddedDigits, List.length_append, List.length_replicate, List.length_reverse]
  omega

end Lib
end Mkfli4l
