import Mkfli4l.Lib.Layout

/-!
# What goes into an archive

A type backend writes one item after the other into the archive file: a file with its contents,
a directory, a device node or a symbolic link.  Names, link targets and file contents are strings
of bytes; a name and a link target have no zero byte in them, since they come from C strings.

All backends count the bytes they write in 32 bits and pad by that count.
-/

namespace Mkfli4l
namespace Archive

open Lib

/-- The type of a device node, written `b` or `c` in the options of an entry. -/
inductive DevType
  | block
  | char
deriving DecidableEq, Repr

/-- The part of an item that depends on its type. -/
inductive Content
  | file (data : Bytes)
  | dir
  | node (devtype : DevType) (major minor : Nat)
  | symlink (linktarget : Bytes)
deriving DecidableEq, Repr

/-- An entry of the archive list as it is handed to a backend, with the contents of its file. -/
structure Item where
  name : Bytes
  mode : Nat
  uid : Nat
  gid : Nat
  content : Content
deriving DecidableEq, Repr

/-- The target of a symbolic link and the empty string for other items. -/
def Item.linkname (e : Item) : Bytes :=
  match e.content with
  | .symlink linktarget => linktarget
  | _ => []

/-- The string in front of the first zero byte. -/
def cString (bytes : Bytes) : Bytes := bytes.takeWhile (· ≠ 0)

theorem cString_append_zero {s : Bytes} (h : (0 : UInt8) ∉ s) (rest : Bytes) :
    cString (s ++ 0 :: rest) = s := by
  unfold cString
  rw [List.takeWhile_append_of_pos]
  · simp
  · intro c hc
    simpa using fun hzero : c = 0 => h (hzero ▸ hc)

/-! ### The archive file -/

/-- The bytes written to the archive file, and the offset that the backend keeps of them. -/
structure Output where
  out : Bytes
  offset : UInt32

/-- Writing some bytes and counting them. -/
def Output.write (o : Output) (bytes : Bytes) : Output :=
  { out := o.out ++ bytes, offset := o.offset + UInt32.ofNat bytes.length }

/-- The loop of `push_pad`: zeros until the offset has none of the bits of `mask`. -/
def Output.padLoop (mask : UInt32) : Nat → Output → Output
  | 0, o => o
  | n + 1, o => if o.offset &&& mask ≠ 0 then padLoop mask n (o.write [0]) else o

/-- The offset is the number of bytes written, as far as it fits. -/
def Output.Tracks (o : Output) : Prop := o.offset.toNat = o.out.length % 4294967296

namespace Output

variable {o : Output} {mask : UInt32} {b n : Nat}

theorem Tracks.write (h : o.Tracks) (bytes : Bytes) : (o.write bytes).Tracks := by
  unfold Output.Tracks Output.write at *
  simp only [UInt32.toNat_add, UInt32.toNat_ofNat', List.length_append]
  omega

theorem Tracks.and_ne_zero_iff (h : o.Tracks) (hmask : mask.toNat = 2 ^ b - 1)
    (hb : 2 ^ b ∣ 4294967296) : o.offset &&& mask ≠ 0 ↔ o.out.length % 2 ^ b ≠ 0 := by
  have hand : (o.offset &&& mask).toNat = o.out.length % 2 ^ b := by
    rw [UInt32.toNat_and, hmask, Nat.and_two_pow_sub_one_eq_mod, h, Nat.mod_mod_of_dvd _ hb]
  rw [Ne, ← UInt32.toNat_inj, hand]
  rfl

theorem padLoop_spec (h : o.Tracks) (hmask : mask.toNat = 2 ^ b - 1) (hb : 2 ^ b ∣ 4294967296)
    (hn : (2 ^ b - o.out.length % 2 ^ b) % 2 ^ b ≤ n) :
    (padLoop mask n o).out = padded (2 ^ b) o.out ∧ (padLoop mask n o).Tracks := by
  have hpos : 0 < 2 ^ b := Nat.two_pow_pos b
  have hstop (o : Output) (h : o.Tracks) (hzero : o.out.length % 2 ^ b = 0) :
      o.out = padded (2 ^ b) o.out ∧ o.Tracks := ⟨(padded_of_mod hzero).symm, h⟩
  induction n generalizing o with
  | zero =>
      refine hstop o h ?_
      by_contra hne
      rw [sub_mod_succ hpos hne] at hn
      omega
  | succ n ih =>
      unfold padLoop
      by_cases hzero : o.out.length % 2 ^ b = 0
      · rw [if_neg (by rw [h.and_ne_zero_iff hmask hb]; exact not_not_intro hzero)]
        exact hstop o h hzero
      · rw [if_pos ((h.and_ne_zero_iff hmask hb).mpr hzero)]
        rw [sub_mod_succ hpos hzero] at hn
        have hlen : (o.write [0]).out.length = o.out.length + 1 := List.length_append
        obtain ⟨hout, htracks⟩ := ih (h.write [0]) (by rw [hlen]; omega)
        refine ⟨hout.trans ?_, htracks⟩
        rw [padded, padded, hlen, zeros_succ hpos hzero, Output.write, List.append_assoc]
        rfl

end Output

end Archive
end Mkfli4l
