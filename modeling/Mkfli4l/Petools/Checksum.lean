import Mkfli4l.Lib.Layout
import Mkfli4l.Lib.OnesComplement

/-!
# The checksum of PE files

`petools_update_checksum` adds up a file as words of 32 bits with an end-around carry, and reduces the sum
to 16 bits at the end.  The headers are taken from memory, the rest is read from the file in two pieces,
block by block.

Every one of these five pieces is taken by itself: a rest of less than four bytes at its end is left out,
and if it begins at an odd position, its bytes change places.  If the headers overlap, bytes are counted
twice.  `updateChecksum_iff` says when this goes well.
-/

namespace Mkfli4l
namespace Petools

open Lib
open Finset (Ico mem_Ico range mem_range sum_add_distrib sum_congr)

/-! ### Files and headers -/

/-- A little-endian field of two bytes. -/
def u16 (bytes : Bytes) (pos : ℕ) : ℕ := (bytes.getD pos 0).toNat + 256 * (bytes.getD (pos + 1) 0).toNat

/-- A little-endian field of four bytes. -/
def u32 (bytes : Bytes) (pos : ℕ) : ℕ := u16 bytes pos + 65536 * u16 bytes (pos + 2)

/-- Four bytes are written. -/
def putU32 (bytes : Bytes) (pos : ℕ) (value : UInt32) : Bytes :=
  bytes.take pos ++ [UInt8.ofNat value.toNat, UInt8.ofNat (value.toNat / 256),
    UInt8.ofNat (value.toNat / 65536), UInt8.ofNat (value.toNat / 16777216)] ++ bytes.drop (pos + 4)

/-- `petools_file_t`: the file, and its headers in memory. -/
structure PetoolsFile where
  f : Bytes
  mzHeader : Bytes
  pe32Header : Bytes
  pe32OptHeader : Bytes

namespace PetoolsFile

variable (h : PetoolsFile)

def peOffset : ℕ := u32 h.mzHeader 60

def sizeOfOptionalHeader : ℕ := u16 h.pe32Header 20

def checkSum : ℕ := u32 h.pe32OptHeader 64

end PetoolsFile

/-- `fread` from a position on: all bytes or an error. -/
def fread (f : Bytes) (pos len : ℕ) : Option Bytes :=
  let bytes := slice f pos len
  if bytes.length = len then some bytes else none

def petoolsInit (f : Bytes) : Option PetoolsFile := do
  let mzHeader ← fread f 0 64
  guard (u16 mzHeader 0 = 0x4d5a ∨ u16 mzHeader 0 = 0x5a4d)
  let peOffset := u32 mzHeader 60
  let pe32Header ← fread f peOffset 24
  guard (u32 pe32Header 0 = 0x4550)
  let sizeOfOptionalHeader := u16 pe32Header 20
  guard (sizeOfOptionalHeader ≠ 0)
  guard (96 ≤ sizeOfOptionalHeader)
  let pe32OptHeader ← fread f (peOffset + 24) sizeOfOptionalHeader
  guard (u16 pe32OptHeader 0 = 0x10b)
  return ⟨f, mzHeader, pe32Header, pe32OptHeader⟩

/-! ### The checksum -/

/-- `computeChecksum`: as many words as the buffer has. -/
def computeChecksum (chksum : UInt32) : Bytes → UInt32
  | a :: b :: c :: d :: rest =>
      let new := chksum + UInt32.ofNat (a.toNat + 256 * b.toNat + 65536 * c.toNat + 16777216 * d.toNat)
      computeChecksum (if new < chksum then new + 1 else new) rest
  | _ => chksum

def finishChecksum (chksum filesize : UInt32) : UInt32 :=
  let folded := chksum.toUInt16.toUInt32 + chksum >>> 16
  (folded + folded >>> 16).toUInt16.toUInt32 + filesize

/-- `readAndComputeChecksum`: the bytes from `start` up to `stop`, in blocks of `BUFSIZE`. -/
def readAndComputeChecksum (f : Bytes) (stop : ℕ) (chksum : UInt32) (start : ℕ) : Option UInt32 :=
  if start < stop then
    let bytes := if 4096 < stop - start then 4096 else stop - start
    match fread f start bytes with
    | none => none
    | some buffer => readAndComputeChecksum f stop (computeChecksum chksum buffer) (start + bytes)
  else some chksum
termination_by stop - start
decreasing_by split <;> omega

/-- `petools_update_checksum`.  The length of the file and the positions are `uint32_t`. -/
def updateChecksum (h : PetoolsFile) : Option PetoolsFile := do
  let filesize := h.f.length % 4294967296
  let pe32OptHeader := putU32 h.pe32OptHeader 64 0
  let chksum := computeChecksum 0 h.mzHeader
  let chksum ← readAndComputeChecksum h.f h.peOffset chksum 64
  let chksum := computeChecksum chksum h.pe32Header
  let chksum := computeChecksum chksum pe32OptHeader
  let chksum ← readAndComputeChecksum h.f filesize chksum
    ((h.peOffset + 24 + h.sizeOfOptionalHeader) % 4294967296)
  return { h with pe32OptHeader := putU32 pe32OptHeader 64 (finishChecksum chksum (UInt32.ofNat filesize)) }

/-! ### What the checksum is -/

/-- A file as words of 16 bits, with a zero byte behind the last one if their number is odd. -/
def words16 : Bytes → List ℕ
  | lo :: hi :: rest => (lo.toNat + 256 * hi.toNat) :: words16 rest
  | [last] => [last.toNat]
  | [] => []

/-- The file with the checksum as zero. -/
def zeroed (h : PetoolsFile) : Bytes := putU32 h.f (h.peOffset + 88) 0

/-- The checksum of a PE file: the sum of its words in the one's complement, and its length. -/
def peChecksum (h : PetoolsFile) : ℕ :=
  ((words16 (zeroed h)).foldl (addCarry 65535) 0 + h.f.length) % 4294967296

/-! ### Loaded files -/

variable {f : Bytes} {h : PetoolsFile}

/-- What `petools_init` has made sure of. -/
structure Loaded (f : Bytes) (h : PetoolsFile) : Prop where
  f_eq : h.f = f
  mzHeader_eq : h.mzHeader = slice f 0 64
  mzHeader_length : h.mzHeader.length = 64
  signature : u16 h.mzHeader 0 ≠ 0
  pe32Header_eq : h.pe32Header = slice f h.peOffset 24
  pe32Header_length : h.pe32Header.length = 24
  optHeader_eq : h.pe32OptHeader = slice f (h.peOffset + 24) h.sizeOfOptionalHeader
  optHeader_length : h.pe32OptHeader.length = h.sizeOfOptionalHeader
  size_ge : 96 ≤ h.sizeOfOptionalHeader

variable {pos len start : ℕ} {bytes : Bytes}

theorem fread_some (hread : fread f pos len = some bytes) :
    bytes = slice f pos len ∧ bytes.length = len := by
  unfold fread at hread
  dsimp only at hread
  split at hread
  · next hlen =>
      obtain rfl := Option.some.inj hread
      exact ⟨rfl, hlen⟩
  · contradiction

theorem loaded_of_init (hinit : petoolsInit f = some h) : Loaded f h := by
  unfold petoolsInit at hinit
  obtain ⟨mz, hmz, hinit⟩ := Option.bind_eq_some_iff.mp hinit
  obtain ⟨_, hsig, hinit⟩ := Option.bind_eq_some_iff.mp hinit
  obtain ⟨pe, hpe, hinit⟩ := Option.bind_eq_some_iff.mp hinit
  obtain ⟨_, -, hinit⟩ := Option.bind_eq_some_iff.mp hinit
  obtain ⟨_, -, hinit⟩ := Option.bind_eq_some_iff.mp hinit
  obtain ⟨_, hsize, hinit⟩ := Option.bind_eq_some_iff.mp hinit
  obtain ⟨opt, hopt, hinit⟩ := Option.bind_eq_some_iff.mp hinit
  obtain ⟨_, -, hinit⟩ := Option.bind_eq_some_iff.mp hinit
  obtain rfl := Option.some.inj hinit
  obtain ⟨hmz, hmzlen⟩ := fread_some hmz
  obtain ⟨hpe, hpelen⟩ := fread_some hpe
  obtain ⟨hopt, hoptlen⟩ := fread_some hopt
  have hsignature : u16 mz 0 = 0x4d5a ∨ u16 mz 0 = 0x5a4d := (Option.guard_eq_some' _).mp hsig
  have hge : 96 ≤ u16 pe 20 := (Option.guard_eq_some' _).mp hsize
  refine ⟨rfl, hmz, hmzlen, ?_, hpe, hpelen, hopt, hoptlen, hge⟩
  show u16 mz 0 ≠ 0
  omega

/-! ### Words of 32 bits -/

/-- A buffer as words of 32 bits; a rest of less than four bytes is left out. -/
def words32 : Bytes → List ℕ
  | a :: b :: c :: d :: rest =>
      (a.toNat + 256 * b.toNat + 65536 * c.toNat + 16777216 * d.toNat) :: words32 rest
  | _ => []

/-- The largest sum. -/
def maxWord : ℕ := 4294967295

theorem reduceWord_maxWord (w : UInt32) : reduceWord maxWord w.toNat = w.toNat :=
  (eq_reduceWord (Nat.le_of_lt_succ w.toNat_lt) rfl Iff.rfl).symm

theorem addWord_toNat (chksum word : UInt32) :
    (if chksum + word < chksum then chksum + word + 1 else chksum + word).toNat =
      reduceWord maxWord (chksum.toNat + word.toNat) := by
  have hc := chksum.toNat_lt
  have hw := word.toNat_lt
  have hc' : chksum.toNat ≤ maxWord := Nat.le_of_lt_succ hc
  have hw' : word.toNat ≤ maxWord := Nat.le_of_lt_succ hw
  rw [← addCarry_eq hc' hw']
  unfold addCarry maxWord
  split_ifs with hlt hle hle
  · rw [UInt32.lt_iff_toNat_lt, UInt32.toNat_add] at hlt
    omega
  · rw [UInt32.toNat_add, UInt32.toNat_add]
    rw [UInt32.lt_iff_toNat_lt, UInt32.toNat_add] at hlt
    have hone : (1 : UInt32).toNat = 1 := rfl
    omega
  · rw [UInt32.toNat_add]
    omega
  · rw [UInt32.lt_iff_toNat_lt, UInt32.toNat_add] at hlt
    omega

theorem computeChecksum_toNat (chksum : UInt32) (bytes : Bytes) :
    (computeChecksum chksum bytes).toNat = reduceWord maxWord (chksum.toNat + (words32 bytes).sum) := by
  fun_induction computeChecksum chksum bytes with
  | case1 chksum a b c d rest new ih =>
      have ha := a.toNat_lt
      have hb := b.toNat_lt
      have hc := c.toNat_lt
      have hd := d.toNat_lt
      have hword : (UInt32.ofNat (a.toNat + 256 * b.toNat + 65536 * c.toNat + 16777216 * d.toNat)).toNat =
          a.toNat + 256 * b.toNat + 65536 * c.toNat + 16777216 * d.toNat := by
        rw [UInt32.toNat_ofNat']
        omega
      rw [ih, addWord_toNat, hword, reduceWord_add (by decide), words32, List.sum_cons, Nat.add_assoc]
  | case2 bytes chksum hshort =>
      have hnil : words32 bytes = [] := by
        unfold words32
        split
        · exact (hshort _ _ _ _ _ rfl).elim
        · rfl
      rw [hnil, List.sum_nil, Nat.add_zero, reduceWord_maxWord]

theorem words32_append {a b : Bytes} (ha : a.length % 4 = 0) : words32 (a ++ b) = words32 a ++ words32 b := by
  fun_induction words32 a with
  | case1 w x y z rest ih =>
      simp only [List.length_cons] at ha
      simp only [List.cons_append, words32, ih (by omega)]
  | case2 a hshort =>
      have hnil : a = [] := by
        match a, hshort with
        | [], _ => rfl
        | [_], _ => simp at ha
        | [_, _], _ => simp at ha
        | [_, _, _], _ => simp at ha
        | w :: x :: y :: z :: rest, hshort => exact absurd rfl (hshort w x y z rest)
      rw [hnil]
      rfl

theorem computeChecksum_append (chksum : UInt32) {a b : Bytes} (ha : a.length % 4 = 0) :
    computeChecksum (computeChecksum chksum a) b = computeChecksum chksum (a ++ b) := by
  apply UInt32.toNat_inj.mp
  rw [computeChecksum_toNat, computeChecksum_toNat, computeChecksum_toNat, reduceWord_add (by decide),
    words32_append ha, List.sum_append, Nat.add_assoc]

theorem fread_of_le (hle : pos + len ≤ f.length) : fread f pos len = some (slice f pos len) := by
  unfold fread
  exact if_pos (by rw [slice, List.length_take, List.length_drop]; omega)

theorem readAndComputeChecksum_eq {stop : ℕ} (hle : stop ≤ f.length) (chksum : UInt32) :
    readAndComputeChecksum f stop chksum start =
      some (computeChecksum chksum (slice f start (stop - start))) := by
  fun_induction readAndComputeChecksum f stop chksum start with
  | case1 chksum start hlt bytes hread =>
      rw [fread_of_le (by simp only [bytes]; split <;> omega)] at hread
      contradiction
  | case2 chksum start hlt bytes buffer hread ih =>
      rw [fread_of_le (by simp only [bytes]; split <;> omega)] at hread
      obtain rfl := Option.some.inj hread
      rw [ih]
      by_cases hblock : 4096 < stop - start
      · have hbytes : bytes = 4096 := if_pos hblock
        have hlen : (slice f start bytes).length = 4096 := by
          rw [slice, List.length_take, List.length_drop]
          omega
        rw [computeChecksum_append chksum (by rw [hlen])]
        congr 2
        rw [slice, slice, slice, ← List.drop_drop, ← List.take_add]
        congr 1
        omega
      · have hbytes : bytes = stop - start := if_neg hblock
        have hrest : slice f (start + bytes) (stop - (start + bytes)) = [] := by
          rw [hbytes, slice, show stop - (start + (stop - start)) = 0 by omega, List.take_zero]
        rw [hrest, hbytes]
        rfl
  | case3 chksum start hlt =>
      rw [show stop - start = 0 by omega, slice, List.take_zero]
      rfl

theorem foldWord_toNat (chksum : UInt32) :
    (chksum.toUInt16.toUInt32 + chksum >>> 16).toNat = chksum.toNat % 65536 + chksum.toNat / 65536 := by
  have hlt := chksum.toNat_lt
  rw [UInt32.toNat_add, UInt16.toNat_toUInt32, UInt32.toNat_toUInt16, UInt32.toNat_shiftRight]
  have hshift : chksum.toNat >>> ((16 : UInt32).toNat % 32) = chksum.toNat / 65536 := by
    rw [Nat.shiftRight_eq_div_pow]
    rfl
  rw [hshift]
  omega

theorem fold_twice (high low : ℕ) (hhigh : high < 65536) (hlow : low < 65536) :
    (low + high + (low + high) / 65536) % 65536 = reduceWord 65535 (65536 * high + low) := by
  by_cases hcarry : low + high < 65536
  · rw [Nat.div_eq_of_lt hcarry, Nat.add_zero, Nat.mod_eq_of_lt hcarry]
    apply eq_reduceWord
    · omega
    · unfold Nat.ModEq
      omega
    · omega
  · have hone : (low + high) / 65536 = 1 := by omega
    rw [hone, show (low + high + 1) % 65536 = low + high - 65535 by omega]
    apply eq_reduceWord
    · omega
    · unfold Nat.ModEq
      omega
    · omega

theorem finishChecksum_toNat (chksum filesize : UInt32) :
    (finishChecksum chksum filesize).toNat =
      (reduceWord 65535 chksum.toNat + filesize.toNat) % 4294967296 := by
  have hlt := chksum.toNat_lt
  have hfold := foldWord_toNat chksum
  have hshift : (chksum.toUInt16.toUInt32 + chksum >>> 16) >>> 16 =
      UInt32.ofNat ((chksum.toNat % 65536 + chksum.toNat / 65536) / 65536) := by
    apply UInt32.toNat_inj.mp
    rw [UInt32.toNat_shiftRight, hfold, UInt32.toNat_ofNat', Nat.shiftRight_eq_div_pow]
    have hpow : 2 ^ ((16 : UInt32).toNat % 32) = 65536 := rfl
    rw [hpow]
    omega
  have hword := fold_twice (chksum.toNat / 65536) (chksum.toNat % 65536) (by omega) (by omega)
  rw [Nat.div_add_mod] at hword
  unfold finishChecksum
  dsimp only
  rw [UInt32.toNat_add, hshift, UInt16.toNat_toUInt32, UInt32.toNat_toUInt16, UInt32.toNat_add, hfold,
    UInt32.toNat_ofNat', ← hword]
  congr 2
  omega

/-! ### Bytes and their weights -/

/-- The sum of words of 16 bits, byte by byte. -/
def byteSum (g : ℕ → ℕ) (n : ℕ) : ℕ := ∑ j ∈ range n, 256 ^ (j % 2) * g j

/-- The byte at a position. -/
def byteAt (bytes : Bytes) (pos : ℕ) : ℕ := (bytes.getD pos 0).toNat

theorem byteSum_word (g : ℕ → ℕ) (n : ℕ) :
    byteSum g (n + 2) = g 0 + 256 * g 1 + byteSum (fun j => g (j + 2)) n := by
  unfold byteSum
  rw [Finset.sum_range_succ', Finset.sum_range_succ']
  simp only [Nat.add_assoc, Nat.add_mod_right]
  ring

theorem words16_sum (bytes : Bytes) : (words16 bytes).sum = byteSum (byteAt bytes) bytes.length := by
  fun_induction words16 bytes with
  | case1 lo hi rest ih =>
      rw [List.sum_cons, ih, List.length_cons, List.length_cons, byteSum_word]
      rfl
  | case2 last => simp [byteSum, byteAt]
  | case3 => rfl

theorem words32_sum (bytes : Bytes) :
    (words32 bytes).sum ≡ byteSum (byteAt bytes) (bytes.length / 4 * 4) [MOD 65535] := by
  fun_induction words32 bytes with
  | case1 a b c d rest ih =>
      have hlen : (a :: b :: c :: d :: rest).length / 4 * 4 = rest.length / 4 * 4 + 2 + 2 := by
        simp only [List.length_cons]
        omega
      rw [List.sum_cons, hlen, byteSum_word, byteSum_word]
      have hword : a.toNat + 256 * b.toNat + 65536 * c.toNat + 16777216 * d.toNat ≡
          (a.toNat + 256 * b.toNat) + (c.toNat + 256 * d.toNat) [MOD 65535] := by
        unfold Nat.ModEq
        omega
      have hsum := hword.add ih
      rw [Nat.add_assoc (a.toNat + 256 * b.toNat) (c.toNat + 256 * d.toNat)] at hsum
      exact hsum
  | case2 bytes hshort =>
      have hlen : bytes.length / 4 * 4 = 0 := by
        match bytes, hshort with
        | [], _ => rfl
        | [_], _ => simp
        | [_, _], _ => simp
        | [_, _, _], _ => simp
        | a :: b :: c :: d :: rest, hshort => exact (hshort a b c d rest rfl).elim
      rw [hlen]
      rfl

/-- The weight that the byte at a position has in a piece, which begins at `start` and has `len` bytes. -/
def pieceWeight (start len pos : ℕ) : ℕ :=
  if start ≤ pos ∧ pos < start + len / 4 * 4 then 256 ^ ((pos - start) % 2) else 0

theorem byteSum_piece {n : ℕ} (hle : start + len ≤ n) (g : ℕ → ℕ) :
    byteSum (fun j => g (start + j)) (len / 4 * 4) = ∑ i ∈ range n, pieceWeight start len i * g i := by
  have hpiece : ∀ i, pieceWeight start len i * g i =
      if i ∈ Ico start (start + len / 4 * 4) then 256 ^ ((i - start) % 2) * g i else 0 := by
    intro i
    simp only [pieceWeight, mem_Ico, ite_mul, zero_mul]
  have hsub : Ico start (start + len / 4 * 4) ⊆ range n := by
    intro i hi
    rw [mem_Ico] at hi
    rw [mem_range]
    omega
  rw [sum_congr rfl fun i _ => hpiece i, ← Finset.sum_filter, Finset.filter_mem_eq_inter,
    Finset.inter_eq_right.mpr hsub, Finset.sum_Ico_eq_sum_range, Nat.add_sub_cancel_left]
  simp only [byteSum, Nat.add_sub_cancel_left]

/-! ### The pieces of a file -/

/-- `filesize`, which is a `uint32_t`. -/
def PetoolsFile.filesize (h : PetoolsFile) : ℕ := h.f.length % 4294967296

/-- Where the second piece begins that is read from the file, in a `uint32_t`, too. -/
def PetoolsFile.restStart (h : PetoolsFile) : ℕ := (h.peOffset + 24 + h.sizeOfOptionalHeader) % 4294967296

/-- The weight of a position in the headers. -/
def headerWeight (h : PetoolsFile) (pos : ℕ) : ℕ :=
  pieceWeight 0 64 pos + pieceWeight h.peOffset 24 pos +
    pieceWeight (h.peOffset + 24) h.sizeOfOptionalHeader pos

/-- The weight of a position in the pieces that are read from the file. -/
def readWeight (h : PetoolsFile) (pos : ℕ) : ℕ :=
  pieceWeight 64 (h.peOffset - 64) pos + pieceWeight h.restStart (h.filesize - h.restStart) pos

/-- How much too much, or too little if it is negative, the byte at a position adds to the sum: in the
headers it is counted with the checksum as zero, in the rest of the file as it is. -/
def excess (h : PetoolsFile) (pos : ℕ) : ℤ :=
  ((headerWeight h pos : ℤ) - 256 ^ (pos % 2)) * byteAt (zeroed h) pos + readWeight h pos * byteAt h.f pos

/-- What is counted too much and too little cancels. -/
def Cancels (h : PetoolsFile) : Prop := (∑ pos ∈ range h.f.length, excess h pos) % 65535 = 0

instance (h : PetoolsFile) : Decidable (Cancels h) := inferInstanceAs (Decidable (_ = _))

/-- The headers do not overlap, and every piece consists of whole words. -/
structure Aligned (h : PetoolsFile) : Prop where
  length_lt : h.f.length < 4294967296
  offset_ge : 64 ≤ h.peOffset
  offset_mod : h.peOffset % 4 = 0
  size_mod : h.sizeOfOptionalHeader % 4 = 0
  length_mod : h.f.length % 4 = 0

theorem byteAt_slice {j : ℕ} (hj : j < len) : byteAt (slice f pos len) j = byteAt f (pos + j) := by
  unfold byteAt slice
  rw [List.getD_eq_getElem?_getD, List.getD_eq_getElem?_getD, List.getElem?_take_of_lt hj, List.getElem?_drop]

theorem byteAt_putU32_zero {i : ℕ} (hle : pos + 4 ≤ bytes.length) :
    byteAt (putU32 bytes pos 0) i = if pos ≤ i ∧ i < pos + 4 then 0 else byteAt bytes i := by
  have hlen : (bytes.take pos).length = pos := by
    rw [List.length_take]
    omega
  have hfour : putU32 bytes pos 0 = bytes.take pos ++ ([0, 0, 0, 0] ++ bytes.drop (pos + 4)) := by
    rw [putU32, List.append_assoc]
    rfl
  unfold byteAt
  rw [hfour, List.getD_eq_getElem?_getD, List.getD_eq_getElem?_getD]
  rcases Nat.lt_or_ge i pos with hbefore | hfrom
  · rw [List.getElem?_append_left (by omega), List.getElem?_take_of_lt hbefore, if_neg (by omega)]
  · rw [List.getElem?_append_right (by omega), hlen]
    by_cases hfield : i < pos + 4
    · rw [if_pos ⟨hfrom, hfield⟩, List.getElem?_append_left
        (by simp only [List.length_cons, List.length_nil]; omega)]
      have hall : ∀ k < 4, (([0, 0, 0, 0] : Bytes)[k]?.getD 0).toNat = 0 := by decide
      exact hall _ (by omega)
    · rw [if_neg (by omega), List.getElem?_append_right
        (by simp only [List.length_cons, List.length_nil]; omega),
        List.getElem?_drop]
      congr 3
      simp only [List.length_cons, List.length_nil]
      omega

theorem length_putU32 (hle : pos + 4 ≤ bytes.length) (value : UInt32) :
    (putU32 bytes pos value).length = bytes.length := by
  simp only [putU32, List.length_append, List.length_take, List.length_drop, List.length_cons,
    List.length_nil]
  omega

theorem u32_putU32 (hle : pos + 4 ≤ bytes.length) (value : UInt32) :
    u32 (putU32 bytes pos value) pos = value.toNat := by
  have hlt := value.toNat_lt
  have hlen : (bytes.take pos).length = pos := by
    rw [List.length_take]
    omega
  have hbyte : ∀ k, (putU32 bytes pos value).getD (pos + k) 0 =
      ([UInt8.ofNat value.toNat, UInt8.ofNat (value.toNat / 256), UInt8.ofNat (value.toNat / 65536),
        UInt8.ofNat (value.toNat / 16777216)] ++ bytes.drop (pos + 4)).getD k 0 := by
    intro k
    rw [putU32, List.append_assoc, List.getD_eq_getElem?_getD, List.getElem?_append_right (by omega), hlen,
      Nat.add_sub_cancel_left, List.getD_eq_getElem?_getD]
  have hfirst := hbyte 0
  rw [Nat.add_zero] at hfirst
  unfold u32 u16
  rw [show pos + 2 + 1 = pos + 3 from rfl, hfirst, hbyte, hbyte, hbyte]
  simp only [List.cons_append, List.getD_cons_zero, List.getD_cons_succ, UInt8.toNat_ofNat']
  omega

theorem words32_piece (piece : Bytes) (g : ℕ → ℕ) (start n : ℕ) (hle : start + piece.length ≤ n)
    (hbytes : ∀ j < piece.length, byteAt piece j = g (start + j)) :
    (words32 piece).sum ≡ ∑ i ∈ range n, pieceWeight start piece.length i * g i [MOD 65535] := by
  have hsame : byteSum (byteAt piece) (piece.length / 4 * 4) =
      byteSum (fun j => g (start + j)) (piece.length / 4 * 4) := by
    apply sum_congr rfl
    intro j hj
    rw [mem_range] at hj
    rw [hbytes j (by omega)]
  rw [← byteSum_piece hle, ← hsame]
  exact words32_sum piece

theorem length_slice (hle : pos + len ≤ f.length) : (slice f pos len).length = len := by
  rw [slice, List.length_take, List.length_drop]
  omega

theorem words32_slice (f : Bytes) (pos len : ℕ) (hle : pos + len ≤ f.length ∨ len = 0) :
    (words32 (slice f pos len)).sum ≡ ∑ i ∈ range f.length, pieceWeight pos len i * byteAt f i [MOD 65535] := by
  rcases hle with hle | rfl
  · have hlen := length_slice hle
    have hpiece := words32_piece (slice f pos len) (byteAt f) pos f.length
      (by rw [hlen]; exact hle) (fun j hj => byteAt_slice (by rw [hlen] at hj; exact hj))
    rw [hlen] at hpiece
    exact hpiece
  · have hnone : ∀ i, pieceWeight pos 0 i = 0 := fun i => if_neg (by omega)
    rw [slice, List.take_zero]
    simp [hnone, words32, Nat.ModEq]

/-- The words of the five pieces. -/
def total (h : PetoolsFile) : ℕ :=
  (words32 h.mzHeader).sum + (words32 (slice h.f 64 (h.peOffset - 64))).sum + (words32 h.pe32Header).sum +
    (words32 (putU32 h.pe32OptHeader 64 0)).sum +
    (words32 (slice h.f h.restStart (h.filesize - h.restStart))).sum

theorem Loaded.length_le (hload : Loaded f h) :
    64 ≤ f.length ∧ h.peOffset + 24 + h.sizeOfOptionalHeader ≤ f.length := by
  have hmz := hload.mzHeader_length
  have hopt := hload.optHeader_length
  have hge := hload.size_ge
  rw [hload.mzHeader_eq, slice, List.length_take, List.length_drop] at hmz
  rw [hload.optHeader_eq, slice, List.length_take, List.length_drop] at hopt
  omega

/-- The five pieces one after the other. -/
def piecewiseChecksum (h : PetoolsFile) : UInt32 :=
  computeChecksum
    (computeChecksum
      (computeChecksum
        (computeChecksum (computeChecksum 0 h.mzHeader) (slice h.f 64 (h.peOffset - 64)))
        h.pe32Header)
      (putU32 h.pe32OptHeader 64 0))
    (slice h.f h.restStart (h.filesize - h.restStart))

theorem piecewiseChecksum_toNat (h : PetoolsFile) :
    (piecewiseChecksum h).toNat = reduceWord maxWord (total h) := by
  have hzero : (0 : UInt32).toNat = 0 := rfl
  have hpos : 0 < maxWord := by decide
  unfold piecewiseChecksum total
  simp only [computeChecksum_toNat, hzero, Nat.zero_add, reduceWord_add hpos]

theorem updateChecksum_eq (hload : Loaded f h) :
    ∃ h', updateChecksum h = some h' ∧
      h'.checkSum = (reduceWord 65535 (total h) + f.length) % 4294967296 := by
  obtain ⟨hmz, hend⟩ := hload.length_le
  have hge := hload.size_ge
  have hopt := hload.optHeader_length
  have hfile : h.f.length % 4294967296 ≤ h.f.length := Nat.mod_le h.f.length 4294967296
  have hoffset : h.peOffset ≤ h.f.length := by
    rw [hload.f_eq]
    omega
  have hrun : updateChecksum h = some { h with
      pe32OptHeader := putU32 (putU32 h.pe32OptHeader 64 0) 64
        (finishChecksum (piecewiseChecksum h) (UInt32.ofNat h.filesize)) } := by
    unfold updateChecksum
    simp only [readAndComputeChecksum_eq hoffset, readAndComputeChecksum_eq hfile, Option.bind_eq_bind,
      Option.bind_some]
    rfl
  refine ⟨_, hrun, ?_⟩
  show u32 (putU32 (putU32 h.pe32OptHeader 64 0) 64 _) 64 = _
  rw [u32_putU32 (by rw [length_putU32 (by omega)]; omega), finishChecksum_toNat, piecewiseChecksum_toNat,
    reduceWord_dvd (by decide) (by decide), UInt32.toNat_ofNat', hload.f_eq.symm]
  unfold PetoolsFile.filesize
  omega

theorem Loaded.total_ne_zero (hload : Loaded f h) : total h ≠ 0 := by
  have hsignature := hload.signature
  have hlen := hload.mzHeader_length
  have hpos : 0 < (words32 h.mzHeader).sum := by
    match hmz : h.mzHeader, hlen with
    | a :: b :: c :: d :: rest, _ =>
        have hword : u16 h.mzHeader 0 = a.toNat + 256 * b.toNat := by
          rw [hmz]
          rfl
        rw [words32, List.sum_cons]
        omega
  unfold total
  omega

theorem Loaded.length_zeroed (hload : Loaded f h) : (zeroed h).length = f.length := by
  obtain ⟨-, hend⟩ := hload.length_le
  have hge := hload.size_ge
  unfold zeroed
  rw [hload.f_eq, length_putU32 (by omega)]

theorem Loaded.byteAt_zeroed (hload : Loaded f h) (pos : ℕ) :
    byteAt (zeroed h) pos = if h.peOffset + 88 ≤ pos ∧ pos < h.peOffset + 88 + 4 then 0 else byteAt f pos := by
  obtain ⟨-, hend⟩ := hload.length_le
  have hge := hload.size_ge
  unfold zeroed
  rw [hload.f_eq, byteAt_putU32_zero (by omega)]

theorem Loaded.total_modEq (hload : Loaded f h) :
    total h ≡ ∑ i ∈ range f.length, (headerWeight h i * byteAt (zeroed h) i + readWeight h i * byteAt f i)
      [MOD 65535] := by
  obtain ⟨hmz, hend⟩ := hload.length_le
  have hge := hload.size_ge
  have hf := hload.f_eq
  -- the checksum lies behind the first two headers
  have hzeroed := hload.byteAt_zeroed
  have hfirst := words32_piece h.mzHeader (byteAt (zeroed h)) 0 f.length
    (by rw [hload.mzHeader_length]; omega) (by
      intro j hj
      rw [hload.mzHeader_length] at hj
      rw [hload.mzHeader_eq, byteAt_slice hj, hzeroed, if_neg (by omega)])
  have hsecond := words32_piece h.pe32Header (byteAt (zeroed h)) h.peOffset f.length
    (by rw [hload.pe32Header_length]; omega) (by
      intro j hj
      rw [hload.pe32Header_length] at hj
      rw [hload.pe32Header_eq, byteAt_slice hj, hzeroed, if_neg (by omega)])
  have hopt : (putU32 h.pe32OptHeader 64 0).length = h.sizeOfOptionalHeader := by
    rw [length_putU32 (by rw [hload.optHeader_length]; omega), hload.optHeader_length]
  have hthird := words32_piece (putU32 h.pe32OptHeader 64 0) (byteAt (zeroed h)) (h.peOffset + 24)
    f.length (by rw [hopt]; omega) (by
      intro j hj
      rw [hopt] at hj
      rw [byteAt_putU32_zero (by rw [hload.optHeader_length]; omega), hload.optHeader_eq, byteAt_slice hj,
        hzeroed]
      split_ifs <;> first | rfl | omega)
  have hstub := words32_slice f 64 (h.peOffset - 64) (by omega)
  have hrest := words32_slice f h.restStart (h.filesize - h.restStart) (by
    have hle : h.filesize ≤ f.length := by
      rw [← hf]
      exact Nat.mod_le h.f.length 4294967296
    omega)
  rw [hload.mzHeader_length] at hfirst
  rw [hload.pe32Header_length] at hsecond
  rw [hopt] at hthird
  have hsum := (((hfirst.add hstub).add hsecond).add hthird).add hrest
  unfold total
  rw [hf]
  refine hsum.trans ?_
  rw [← sum_add_distrib, ← sum_add_distrib, ← sum_add_distrib, ← sum_add_distrib]
  unfold headerWeight readWeight
  apply congrArg (· % 65535)
  apply sum_congr rfl
  intro i _
  ring

theorem words16_le (bytes : Bytes) : ∀ w ∈ words16 bytes, w ≤ 65535 := by
  fun_induction words16 bytes with
  | case1 lo hi rest ih =>
      have hlo := lo.toNat_lt
      have hhi := hi.toNat_lt
      exact List.forall_mem_cons.mpr ⟨by omega, ih⟩
  | case2 last =>
      have hlast := last.toNat_lt
      exact List.forall_mem_singleton.mpr (by omega)
  | case3 => simp

theorem Loaded.zeroed_ne_zero (hload : Loaded f h) : byteSum (byteAt (zeroed h)) f.length ≠ 0 := by
  obtain ⟨hmz, -⟩ := hload.length_le
  have hsignature := hload.signature
  obtain ⟨n, hn⟩ := Nat.exists_eq_add_of_le hmz
  have hfirst : u16 h.mzHeader 0 = byteAt (zeroed h) 0 + 256 * byteAt (zeroed h) 1 := by
    rw [hload.byteAt_zeroed, hload.byteAt_zeroed, if_neg (by omega), if_neg (by omega), hload.mzHeader_eq]
    exact congrArg₂ (· + 256 * ·) (byteAt_slice (by omega)) (byteAt_slice (by omega))
  rw [hn, show 64 + n = (62 + n) + 2 by omega, byteSum_word]
  omega

theorem Loaded.peChecksum_eq (hload : Loaded f h) :
    peChecksum h = (reduceWord 65535 (byteSum (byteAt (zeroed h)) f.length) + f.length) % 4294967296 := by
  unfold peChecksum
  rw [foldl_addCarry (by decide) (words16_le (zeroed h)) (Nat.zero_le _), words16_sum, hload.length_zeroed,
    Nat.zero_add, hload.f_eq]

theorem Loaded.sum_excess (hload : Loaded f h) :
    ∑ pos ∈ range h.f.length, excess h pos =
      ((∑ i ∈ range f.length, (headerWeight h i * byteAt (zeroed h) i + readWeight h i * byteAt f i) : ℕ) : ℤ) -
        byteSum (byteAt (zeroed h)) f.length := by
  unfold excess byteSum
  rw [hload.f_eq]
  push_cast
  rw [← Finset.sum_sub_distrib]
  apply sum_congr rfl
  intro i _
  ring

theorem pieceWeight_aligned (hstart : start % 2 = 0) (hlen : len % 4 = 0) :
    pieceWeight start len pos = if start ≤ pos ∧ pos < start + len then 256 ^ (pos % 2) else 0 := by
  unfold pieceWeight
  rw [show len / 4 * 4 = len by omega]
  split_ifs with hin
  · congr 1
    omega
  · rfl

theorem cancels_of_aligned (hload : Loaded f h) (haligned : Aligned h) : Cancels h := by
  obtain ⟨hlt, hoffset, hmod, hsize, hlength⟩ := haligned
  obtain ⟨hmz, hend⟩ := hload.length_le
  have hge := hload.size_ge
  have hf := hload.f_eq
  have hfile : h.filesize = f.length := by
    unfold PetoolsFile.filesize
    rw [hf] at hlt ⊢
    exact Nat.mod_eq_of_lt hlt
  have hrest : h.restStart = h.peOffset + 24 + h.sizeOfOptionalHeader := by
    unfold PetoolsFile.restStart
    rw [hf] at hlt
    exact Nat.mod_eq_of_lt (by omega)
  unfold Cancels
  rw [Finset.sum_eq_zero, Int.zero_emod]
  intro pos hpos
  rw [mem_range, hf] at hpos
  rw [hf] at hlength
  unfold excess headerWeight readWeight
  rw [hfile, hrest, hf, pieceWeight_aligned rfl rfl, pieceWeight_aligned (by omega) rfl,
    pieceWeight_aligned (by omega) hsize, pieceWeight_aligned rfl (by omega),
    pieceWeight_aligned (by omega) (by omega), hload.byteAt_zeroed]
  -- every position lies in one of the pieces, and the checksum in the optional header
  by_cases hstub : 64 ≤ pos ∧ pos < h.peOffset
  · rw [if_neg (by omega), if_neg (by omega), if_neg (by omega), if_neg (by omega), if_pos (by omega),
      if_neg (by omega)]
    push_cast
    ring
  · by_cases hbehind : h.peOffset + 24 + h.sizeOfOptionalHeader ≤ pos
    · rw [if_neg (by omega), if_neg (by omega), if_neg (by omega), if_neg (by omega), if_neg (by omega),
        if_pos (by omega)]
      push_cast
      ring
    · have hheader : (if 0 ≤ pos ∧ pos < 0 + 64 then 256 ^ (pos % 2) else 0) +
            (if h.peOffset ≤ pos ∧ pos < h.peOffset + 24 then 256 ^ (pos % 2) else 0) +
            (if h.peOffset + 24 ≤ pos ∧ pos < h.peOffset + 24 + h.sizeOfOptionalHeader then
              256 ^ (pos % 2) else 0) = 256 ^ (pos % 2) := by
        generalize 256 ^ (pos % 2) = weight
        split_ifs <;> omega
      have hread : (if 64 ≤ pos ∧ pos < 64 + (h.peOffset - 64) then 256 ^ (pos % 2) else 0) +
            (if h.peOffset + 24 + h.sizeOfOptionalHeader ≤ pos ∧ pos < h.peOffset + 24 +
                h.sizeOfOptionalHeader + (f.length - (h.peOffset + 24 + h.sizeOfOptionalHeader)) then
              256 ^ (pos % 2) else 0) = 0 := by
        rw [if_neg (by omega), if_neg (by omega)]
      rw [hheader, hread]
      push_cast
      ring

/-- The right checksum is stored if what is counted too much and too little cancels, and only then.  It
does so whenever the offset of the header, the size of the optional header and the size of the file are
multiples of four, and the headers do not overlap. -/
theorem updateChecksum_iff (hinit : petoolsInit f = some h) :
    ((updateChecksum h).map PetoolsFile.checkSum = some (peChecksum h) ↔ Cancels h) ∧
      (Aligned h → Cancels h) := by
  have hload := loaded_of_init hinit
  refine ⟨?_, cancels_of_aligned hload⟩
  obtain ⟨h', hrun, hvalue⟩ := updateChecksum_eq hload
  have htotal := hload.total_modEq
  have hle := reduceWord_le (m := 65535) (by decide) (total h)
  have hle' := reduceWord_le (m := 65535) (by decide) (byteSum (byteAt (zeroed h)) f.length)
  have hwords : (reduceWord 65535 (total h) + f.length) % 4294967296 =
      (reduceWord 65535 (byteSum (byteAt (zeroed h)) f.length) + f.length) % 4294967296 ↔
      reduceWord 65535 (total h) = reduceWord 65535 (byteSum (byteAt (zeroed h)) f.length) := by
    omega
  rw [hrun, Option.map_some, Option.some_inj, hvalue, hload.peChecksum_eq, hwords,
    reduceWord_eq_iff hload.total_ne_zero hload.zeroed_ne_zero]
  unfold Cancels
  rw [hload.sum_excess]
  unfold Nat.ModEq at htotal ⊢
  rw [htotal]
  omega

/-- A file of headers only, with some bytes behind them. -/
def headersAnd (rest : Bytes) : Bytes :=
  [0x4d, 0x5a] ++ List.replicate 58 0 ++ [64, 0, 0, 0] ++
    [0x50, 0x45, 0, 0] ++ List.replicate 16 0 ++ [96, 0, 0, 0] ++
    [0x0b, 0x01] ++ List.replicate 94 0 ++ rest

/-- This file, loaded. -/
def headersLoaded (rest : Bytes) : PetoolsFile :=
  ⟨headersAnd rest, slice (headersAnd []) 0 64, slice (headersAnd []) 64 24, slice (headersAnd []) 88 96⟩

theorem updateChecksum_iff_headers :
    petoolsInit (headersAnd [1, 2, 3, 4]) = some (headersLoaded [1, 2, 3, 4]) ∧
      (updateChecksum (headersLoaded [1, 2, 3, 4])).map PetoolsFile.checkSum =
        some (peChecksum (headersLoaded [1, 2, 3, 4])) := by
  have hinit : petoolsInit (headersAnd [1, 2, 3, 4]) = some (headersLoaded [1, 2, 3, 4]) := rfl
  obtain ⟨hright, haligned⟩ := updateChecksum_iff hinit
  refine ⟨hinit, hright.mpr (haligned ⟨?_, ?_, ?_, ?_, ?_⟩)⟩
  all_goals decide +kernel

/-- A byte behind the headers is left out. -/
theorem updateChecksum_single :
    petoolsInit (headersAnd [1]) = some (headersLoaded [1]) ∧
      (updateChecksum (headersLoaded [1])).map PetoolsFile.checkSum ≠ some (peChecksum (headersLoaded [1])) := by
  have hinit : petoolsInit (headersAnd [1]) = some (headersLoaded [1]) := rfl
  obtain ⟨h', hrun, hvalue⟩ := updateChecksum_eq (loaded_of_init hinit)
  refine ⟨hinit, ?_⟩
  rw [hrun, Option.map_some, hvalue]
  decide +kernel

end Petools
end Mkfli4l
