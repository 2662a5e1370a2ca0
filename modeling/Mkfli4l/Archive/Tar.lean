import Mkfli4l.Archive.Items

/-!
# Archives in the tar format

The backend writes headers of 512 bytes in the `ustar` format, with octal numbers, and pads the
contents of files to the same size.  A name or a link target of a hundred bytes or more goes into
an extended header in front of the header proper.  A number that has too many digits for its field
is meant to lose the leading blank that the comments speak of; there is no blank, and the number
loses its leading digit.
-/

namespace Mkfli4l
namespace Archive

open Lib

/-! ### The writer -/

/-- `union tar_header_t`: the fields in the order of the header, each with all its bytes, and the
long names that are kept beside it. -/
structure TarHeader where
  name : Bytes
  mode : Bytes
  uid : Bytes
  gid : Bytes
  size : Bytes
  mtime : Bytes
  chksum : Bytes
  typeflag : UInt8
  linkname : Bytes
  magic : Bytes
  version : Bytes
  uname : Bytes
  gname : Bytes
  devmajor : Bytes
  devminor : Bytes
  pfx : Bytes
  padding : Bytes
  realname : Option Bytes
  reallinkname : Option Bytes

def TarHeader.fields (h : TarHeader) : List Bytes :=
  [h.name, h.mode, h.uid, h.gid, h.size, h.mtime, h.chksum, [h.typeflag], h.linkname, h.magic,
    h.version, h.uname, h.gname, h.devmajor, h.devminor, h.pfx, h.padding]

def TarHeader.raw (h : TarHeader) : Bytes := h.fields.flatten

/-- The sizes of the fields. -/
def tarFieldSizes : List Nat := [100, 8, 8, 8, 12, 12, 8, 1, 100, 6, 2, 32, 32, 8, 8, 155, 12]

abbrev TarData := Output

/-- The type flags `REGTYPE`, `SYMTYPE`, `CHRTYPE`, `BLKTYPE`, `DIRTYPE` and `EXTHDR`. -/
def regType : UInt8 := 48
@[inherit_doc regType] def symType : UInt8 := 50
@[inherit_doc regType] def chrType : UInt8 := 51
@[inherit_doc regType] def blkType : UInt8 := 52
@[inherit_doc regType] def dirType : UInt8 := 53
@[inherit_doc regType] def extHdr : UInt8 := 120

/-- The text `ustar` with its zero byte. -/
def ustarMagic : Bytes := [117, 115, 116, 97, 114, 0]

/-- `put_octal`: the bytes that are copied into a field of the given length. -/
def putOctal (len value : Nat) : Option Bytes :=
  let printed := printPadded 8 (len - 1) value
  let tempLength := printed.length + 1
  -- "suppress the leading space"
  let tempString := if tempLength > len then printed.drop 1 else printed
  let tempLength := if tempLength > len then tempLength - 1 else tempLength
  -- "suppress the trailing null"
  let tempLength := if tempLength > len then tempLength - 1 else tempLength
  if tempLength > len then none else some ((tempString ++ [0]).take len)

/-- `strncpy` of at most 99 bytes into a cleared field of 100 bytes. -/
def copyName (name : Bytes) : Bytes :=
  name.take 99 ++ List.replicate (100 - (name.take 99).length) 0

def prepareHeader (mtime : Nat) (name : Bytes) (typeflag : UInt8) (mode uid gid : Nat) :
    Option TarHeader := do
  let uid ← putOctal 8 uid
  let gid ← putOctal 8 gid
  let mode ← putOctal 8 mode
  let size ← putOctal 12 0
  let mtime ← putOctal 12 mtime
  return {
    name := copyName name
    mode, uid, gid, size, mtime
    chksum := List.replicate 8 0
    typeflag
    linkname := List.replicate 100 0
    magic := ustarMagic
    version := List.replicate 2 0
    uname := List.replicate 32 0
    gname := List.replicate 32 0
    devmajor := List.replicate 8 0
    devminor := List.replicate 8 0
    pfx := List.replicate 155 0
    padding := List.replicate 12 0
    realname := if 100 ≤ name.length then some name else none
    reallinkname := none }

/-- `push_pad`; 511 rounds are enough. -/
def tarPushPad (d : TarData) : TarData := d.padLoop 511 511

/-- `asprintf`, which fails if the string does not fit in an `int`. -/
def asprintf (s : Bytes) : Option Bytes := if s.length ≤ 2147483647 then some s else none

/-- The loop of `create_record`; `len` is the length that is printed, as an `unsigned`. -/
def createRecordLoop (line : Bytes) : Nat → Nat → Option Bytes
  | 0, _ => none
  | fuel + 1, len => do
      let record ← asprintf (printPadded 10 1 (len % 4294967296) ++ line)
      if record.length = len then some record else createRecordLoop line fuel record.length

/-- `create_record`.  The printed length has at most ten digits, so the length of the record grows
at most nine times. -/
def createRecord (key value : Bytes) : Option Bytes := do
  let line ← asprintf (32 :: key ++ 61 :: value ++ [10])
  createRecordLoop line 11 (line.length + 1)

/-- The key `path`. -/
def pathKey : Bytes := [112, 97, 116, 104]

/-- The key `linkpath`. -/
def linkpathKey : Bytes := [108, 105, 110, 107, 112, 97, 116, 104]

/-- The header with its checksum. -/
def withChecksum (h : TarHeader) : Option TarHeader :=
  let blank := { h with chksum := List.replicate 8 32 }
  (putOctal 7 (blank.raw.map UInt8.toNat).sum).map fun sum => { blank with chksum := sum ++ [32] }

/-- The part of `write_header` for headers without a long name. -/
def writeShortHeader (d : TarData) (h : TarHeader) : Option TarData :=
  (withChecksum h).map fun h => d.write h.raw

/-- The record for a long name, if there is one. -/
def longRecord (key : Bytes) : Option Bytes → Option Bytes
  | none => some []
  | some value => createRecord key value

def writeHeader (d : TarData) (h : TarHeader) : Option TarData :=
  if h.realname.isSome ∨ h.reallinkname.isSome then do
    let recordName ← longRecord pathKey h.realname
    let recordLinkname ← longRecord linkpathKey h.reallinkname
    let size ← putOctal 12 (recordName.length + recordLinkname.length)
    let d ← writeShortHeader d { h with typeflag := extHdr, size }
    writeShortHeader (tarPushPad ((d.write recordName).write recordLinkname)) h
  else writeShortHeader d h

def tarTrailer (d : TarData) : TarData :=
  { d with out := d.out ++ List.replicate 512 0 ++ List.replicate 512 0 }

def tarMklink (d : TarData) (mtime : Nat) (e : Item) (target : Bytes) (typeflag : UInt8) :
    Option TarData := do
  let hdr ← prepareHeader mtime e.name typeflag e.mode e.uid e.gid
  writeHeader d { hdr with
    linkname := copyName target
    reallinkname := if 100 ≤ target.length then some target else none }

def tarMkgeneric (d : TarData) (mtime : Nat) (e : Item) (typeflag : UInt8) : Option TarData := do
  let hdr ← prepareHeader mtime e.name typeflag e.mode e.uid e.gid
  writeHeader d hdr

def tarMknod (d : TarData) (mtime : Nat) (e : Item) (devtype : DevType) (major minor : Nat) :
    Option TarData := do
  let hdr ← prepareHeader mtime e.name (if devtype = .block then blkType else chrType) e.mode e.uid
    e.gid
  let devmajor ← putOctal 8 major
  let devminor ← putOctal 8 minor
  writeHeader d { hdr with devmajor, devminor }

def tarMkfile (d : TarData) (mtime : Nat) (e : Item) (data : Bytes) : Option TarData := do
  let hdr ← prepareHeader mtime e.name regType e.mode e.uid e.gid
  let size ← putOctal 12 data.length
  let d ← writeHeader d { hdr with size }
  return tarPushPad (d.write data)

def createTarArchive : TarData := { out := [], offset := 0 }

/-- `add_file_to_tar_archive` and `add_non_file_to_tar_archive`; `mtime` is the time of the call.
`none` means that the call does not return `OK`. -/
def addToTarArchive (d : TarData) (mtime : Nat) (e : Item) : Option TarData :=
  match e.content with
  | .file data => tarMkfile d mtime e data
  | .dir => tarMkgeneric d mtime e dirType
  | .node devtype major minor => tarMknod d mtime e devtype major minor
  | .symlink linktarget => tarMklink d mtime e linktarget symType

/-- The archive with the given items, each with the time at which it is added, if every item can be
added. -/
def writeTar (items : List (Nat × Item)) : Option Bytes :=
  (items.foldlM (fun d e => addToTarArchive d e.1 e.2) createTarArchive).map
    fun d => (tarTrailer d).out

/-! ### The reader -/

/-- The pieces of the given sizes. -/
def splitFields : List Nat → Bytes → List Bytes
  | [], _ => []
  | n :: ns, bytes => bytes.take n :: splitFields ns (bytes.drop n)

/-- An octal number, ended by a zero byte, a blank or the end of its field. -/
def readOctal (field : Bytes) : Option Nat :=
  readDigits 8 (field.takeWhile fun c => c ≠ 0 ∧ c ≠ 32)

/-- What is read from a header. -/
structure TarFields where
  name : Bytes
  mode : Nat
  uid : Nat
  gid : Nat
  size : Nat
  typeflag : UInt8
  linkname : Bytes
  devmajor : Nat
  devminor : Nat
deriving DecidableEq, Repr

/-- A header block with a valid checksum. -/
def readTarHeader (block : Bytes) : Option TarFields :=
  match splitFields tarFieldSizes block with
  | [name, mode, uid, gid, size, _, chksum, [typeflag], linkname, magic, _, _, _, devmajor, devminor,
      pfx, _] => do
      let sum ← readOctal chksum
      let blank := block.take 148 ++ List.replicate 8 32 ++ block.drop 156
      if magic ≠ ustarMagic ∨ sum ≠ (blank.map UInt8.toNat).sum then none
      else
        let mode ← readOctal mode
        let uid ← readOctal uid
        let gid ← readOctal gid
        let size ← readOctal size
        let devmajor ← readOctal devmajor
        let devminor ← readOctal devminor
        let name := if cString pfx = [] then cString name else cString pfx ++ 47 :: cString name
        return { name, mode, uid, gid, size, typeflag, linkname := cString linkname, devmajor,
                 devminor }
  | _ => none

/-- A record of an extended header and what follows it: the length of the whole record, a blank, a
key, an equals sign, a value and a line feed. -/
def readRecord (bytes : Bytes) : Option ((Bytes × Bytes) × Bytes) := do
  let digits := bytes.takeWhile fun c => 48 ≤ c ∧ c ≤ 57
  let len ← if digits = [] then none else readDigits 10 digits
  let record := bytes.take len
  if record.length ≠ len ∨ record[digits.length]? ≠ some 32 ∨ record.getLast? ≠ some 10 then none
  else
    let body := (record.drop (digits.length + 1)).dropLast
    let key := body.takeWhile (· ≠ 61)
    if body[key.length]? ≠ some 61 then none
    else return ((key, body.drop (key.length + 1)), bytes.drop len)

/-- The records of an extended header. -/
def readRecords : Nat → Bytes → Option (List (Bytes × Bytes))
  | _, [] => some []
  | 0, _ => none
  | fuel + 1, bytes => do
      let (record, rest) ← readRecord bytes
      let records ← readRecords fuel rest
      return record :: records

/-- The value of the last record with a key. -/
def recordValue (key : Bytes) (records : List (Bytes × Bytes)) : Option Bytes :=
  (records.reverse.find? fun record => record.1 = key).map Prod.snd

/-- The item that a header, the records in front of it and the data behind it stand for. -/
def tarItem (records : List (Bytes × Bytes)) (h : TarFields) (data : Bytes) : Option Item :=
  let item (content : Content) : Item :=
    { name := (recordValue pathKey records).getD h.name, mode := h.mode, uid := h.uid, gid := h.gid
      content }
  if h.typeflag = regType then some (item (.file data))
  else if h.typeflag = dirType then some (item .dir)
  else if h.typeflag = blkType then some (item (.node .block h.devmajor h.devminor))
  else if h.typeflag = chrType then some (item (.node .char h.devmajor h.devminor))
  else if h.typeflag = symType then
    some (item (.symlink ((recordValue linkpathKey records).getD h.linkname)))
  else none

/-- All items from a position on, up to the two empty blocks at the end; `records` are those of an
extended header directly in front of the position. -/
def readTarFrom (stream : Bytes) : Nat → Nat → List (Bytes × Bytes) → Option (List Item)
  | 0, _, _ => none
  | fuel + 1, pos, records =>
      if slice stream pos 1024 = List.replicate 1024 0 then some []
      else
        match readTarHeader (slice stream pos 512) with
        | none => none
        | some h =>
            let data := slice stream (pos + 512) h.size
            let next := align 512 (pos + 512 + h.size)
            if data.length ≠ h.size then none
            else if h.typeflag = extHdr then
              match readRecords data.length data with
              | none => none
              | some records => readTarFrom stream fuel next records
            else
              match tarItem records h data with
              | none => none
              | some e => (readTarFrom stream fuel next []).map (e :: ·)

/-- The items of an archive.  Every header takes more than a byte. -/
def readTar (stream : Bytes) : Option (List Item) := readTarFrom stream stream.length 0 []

/-! ### Numbers -/

variable {rest block record key name size : Bytes} {len value mtime : Nat} {h : TarHeader}
  {d d' : TarData} {f : TarFields} {e : Item}

theorem takeWhile_digitByte {ds : List Nat} (hds : ∀ d ∈ ds, d < 8)
    (hrest : rest = [] ∨ ∃ rest', rest = 0 :: rest') :
    (ds.map digitByte ++ rest).takeWhile (fun c => c ≠ 0 ∧ c ≠ 32) = ds.map digitByte := by
  have hdigit : ∀ d < 8, digitByte d ≠ 0 ∧ digitByte d ≠ 32 := by decide
  rw [List.takeWhile_append_of_pos]
  · rcases hrest with rfl | ⟨rest', rfl⟩
    · simp
    · simp
  · intro c hc
    obtain ⟨d, hd, rfl⟩ := List.mem_map.mp hc
    simpa using hdigit d (hds d hd)

theorem readOctal_printPadded (width value : Nat) (hrest : rest = [] ∨ ∃ rest', rest = 0 :: rest') :
    readOctal (printPadded 8 width value ++ rest) = some value := by
  unfold readOctal printPadded
  rw [takeWhile_digitByte (fun d hd => mem_paddedDigits (by decide) hd) hrest]
  exact readDigits_printPadded (by decide) (by decide)

theorem putOctal_of_lt (hlen : 0 < len) (h : value < 8 ^ (len - 1)) :
    putOctal len value = some (printPadded 8 (len - 1) value ++ [0]) := by
  have hprinted : (printPadded 8 (len - 1) value).length = len - 1 :=
    length_printPadded (by decide) h
  have htotal : (printPadded 8 (len - 1) value).length + 1 = len := by omega
  have hfits : ¬ len > len := lt_irrefl len
  unfold putOctal
  dsimp only
  rw [htotal, if_neg hfits, if_neg hfits, if_neg hfits, if_neg hfits, List.take_of_length_le]
  rw [List.length_append, List.length_singleton, htotal]

/-- A number with too many digits loses the first of them, if it is written at all. -/
theorem putOctal_of_ge {field : Bytes} (hlen : 0 < len)
    (hge : 8 ^ (len - 1) ≤ value) (h : putOctal len value = some field) :
    field.length = len ∧ ∃ w, readOctal field = some w ∧ w < value := by
  have hdigits : len ≤ (Nat.digits 8 value).length := by
    by_contra hlt
    have hle : (Nat.digits 8 value).length ≤ len - 1 := by omega
    exact absurd ((Nat.digits_length_le_iff (by decide) value).mp hle) (not_lt.mpr hge)
  have hprinted : (printPadded 8 (len - 1) value).length = (Nat.digits 8 value).length := by
    rw [printPadded, List.length_map, length_paddedDigits]
    omega
  have hlong : (Nat.digits 8 value).length + 1 > len := by omega
  unfold putOctal at h
  simp only [hprinted, if_pos hlong, Nat.add_sub_cancel] at h
  -- the digits behind the first one
  have hdrop : (printPadded 8 (len - 1) value).drop 1 =
      ((paddedDigits 8 (len - 1) value).drop 1).map digitByte := by
    rw [printPadded, List.map_drop]
  have hsmall : ∀ d ∈ (paddedDigits 8 (len - 1) value).drop 1, d < 8 :=
    fun d hd => mem_paddedDigits (by decide) (List.mem_of_mem_drop hd)
  have hcount : ((paddedDigits 8 (len - 1) value).drop 1).length =
      (Nat.digits 8 value).length - 1 := by
    rw [List.length_drop, length_paddedDigits]
    omega
  obtain ⟨w, hw, hlt⟩ := readDigits_digitByte (by decide : 8 ≤ 16) hsmall
  have hwvalue : w < value := by
    refine hlt.trans_le ?_
    rw [hcount]
    by_contra hnot
    have hle := (Nat.digits_length_le_iff (by decide) value).mpr (not_le.mp hnot)
    omega
  have hread {rest : Bytes} (hrest : rest = [] ∨ ∃ rest', rest = 0 :: rest') :
      readOctal (((paddedDigits 8 (len - 1) value).drop 1).map digitByte ++ rest) = some w := by
    unfold readOctal
    rw [takeWhile_digitByte hsmall hrest, hw]
  have hbound : ¬ (if (Nat.digits 8 value).length > len then (Nat.digits 8 value).length - 1
      else (Nat.digits 8 value).length) > len := by
    intro hgt
    rw [if_pos hgt] at h
    contradiction
  rw [if_neg hbound, hdrop] at h
  obtain rfl := (Option.some.inj h).symm
  have hlength : (((paddedDigits 8 (len - 1) value).drop 1).map digitByte).length =
      (Nat.digits 8 value).length - 1 := by rw [List.length_map, hcount]
  by_cases hlast : (Nat.digits 8 value).length = len
  · have htotal : (((paddedDigits 8 (len - 1) value).drop 1).map digitByte ++ [0]).length = len := by
      rw [List.length_append, hlength, List.length_singleton]
      omega
    rw [List.take_of_length_le htotal.le]
    exact ⟨htotal, w, hread (.inr ⟨[], rfl⟩), hwvalue⟩
  · have hmore : (Nat.digits 8 value).length - 1 = len := by
      rw [if_pos (by omega)] at hbound
      omega
    rw [List.take_left' (hlength.trans hmore)]
    refine ⟨hlength.trans hmore, w, ?_, hwvalue⟩
    have hfield := hread (.inl rfl)
    rwa [List.append_nil] at hfield

/-- A field that can be read, but gives back the number only if it has fewer digits than the field
has bytes. -/
def OctalField (len value : Nat) (field : Bytes) : Prop :=
  field.length = len ∧ ∃ w, readOctal field = some w ∧ (w = value ↔ value < 8 ^ (len - 1))

theorem octalField_putOctal {field : Bytes} (hlen : 0 < len)
    (h : putOctal len value = some field) : OctalField len value field := by
  by_cases hlt : value < 8 ^ (len - 1)
  · rw [putOctal_of_lt hlen hlt] at h
    obtain rfl := (Option.some.inj h).symm
    refine ⟨?_, value, readOctal_printPadded _ _ (.inr ⟨[], rfl⟩), by simp [hlt]⟩
    rw [List.length_append, length_printPadded (by decide) hlt, List.length_singleton]
    omega
  · obtain ⟨hlength, w, hw, hwvalue⟩ := putOctal_of_ge hlen (not_lt.mp hlt) h
    refine ⟨hlength, w, hw, ?_⟩
    constructor
    · exact fun heq => absurd heq (Nat.ne_of_lt hwvalue)
    · exact fun hlt' => absurd hlt' hlt

/-! ### Headers -/

theorem splitFields_flatten {sizes : List Nat} {fs : List Bytes}
    (h : fs.map List.length = sizes) : splitFields sizes fs.flatten = fs := by
  subst h
  induction fs with
  | nil => rfl
  | cons f fs ih =>
      rw [List.map_cons, List.flatten_cons, splitFields, List.take_left, List.drop_left, ih]

/-- All fields have their sizes. -/
def TarHeader.Sized (h : TarHeader) : Prop := h.fields.map List.length = tarFieldSizes

theorem TarHeader.Sized.length_raw (hsized : h.Sized) : h.raw.length = 512 := by
  unfold TarHeader.raw
  rw [List.length_flatten, hsized]
  rfl

/-- What is read from the fields of a header. -/
def TarHeader.decode (h : TarHeader) : Option TarFields := do
  let mode ← readOctal h.mode
  let uid ← readOctal h.uid
  let gid ← readOctal h.gid
  let size ← readOctal h.size
  let devmajor ← readOctal h.devmajor
  let devminor ← readOctal h.devminor
  let name :=
    if cString h.pfx = [] then cString h.name else cString h.pfx ++ 47 :: cString h.name
  return { name, mode, uid, gid, size, typeflag := h.typeflag, linkname := cString h.linkname
           devmajor, devminor }

theorem sum_bytes_le (bytes : Bytes) : (bytes.map UInt8.toNat).sum ≤ 255 * bytes.length := by
  induction bytes with
  | nil => rfl
  | cons c bytes ih =>
      have hc : c.toNat < 256 := c.toNat_lt
      rw [List.map_cons, List.sum_cons, List.length_cons]
      omega

theorem TarHeader.raw_eq (h : TarHeader) :
    h.raw = (h.name ++ (h.mode ++ (h.uid ++ (h.gid ++ (h.size ++ h.mtime))))) ++ (h.chksum ++
      ([h.typeflag] ++ (h.linkname ++ (h.magic ++ (h.version ++ (h.uname ++ (h.gname ++
        (h.devmajor ++ (h.devminor ++ (h.pfx ++ h.padding)))))))))) := by
  simp [TarHeader.raw, TarHeader.fields]

theorem TarHeader.Sized.set_chksum (hsized : h.Sized) {chksum : Bytes}
    (hlength : chksum.length = 8) : ({ h with chksum } : TarHeader).Sized := by
  unfold TarHeader.Sized TarHeader.fields tarFieldSizes at *
  simp only [List.map_cons, List.map_nil, List.cons.injEq] at hsized ⊢
  tauto

theorem TarHeader.Sized.take_drop (hsized : h.Sized) (chksum : Bytes) :
    h.raw.take 148 ++ chksum ++ h.raw.drop 156 = ({ h with chksum } : TarHeader).raw := by
  unfold TarHeader.Sized TarHeader.fields tarFieldSizes at hsized
  simp only [List.map_cons, List.map_nil, List.cons.injEq] at hsized
  obtain ⟨hname, hmode, huid, hgid, hsize, hmtime, hchksum, -⟩ := hsized
  rw [h.raw_eq, TarHeader.raw_eq]
  rw [List.take_left' (by simp only [List.length_append]; omega)]
  rw [← List.append_assoc _ h.chksum]
  rw [List.drop_left' (by simp only [List.length_append]; omega)]
  rw [List.append_assoc]

theorem withChecksum_spec (hsized : h.Sized) (hmagic : h.magic = ustarMagic) :
    ∃ h', withChecksum h = some h' ∧ h'.raw.length = 512 ∧ (117 : UInt8) ∈ h'.raw ∧
      readTarHeader h'.raw = h.decode := by
  have hblank : ({ h with chksum := List.replicate 8 32 } : TarHeader).Sized :=
    hsized.set_chksum (List.length_replicate)
  generalize hsum :
    (List.map UInt8.toNat (TarHeader.raw { h with chksum := List.replicate 8 32 })).sum = sum
  have hbound : sum < 8 ^ (7 - 1) := by
    have hle := sum_bytes_le (TarHeader.raw { h with chksum := List.replicate 8 32 })
    rw [hblank.length_raw, hsum] at hle
    have hpow : 8 ^ (7 - 1) = 262144 := rfl
    omega
  have hput := putOctal_of_lt (by decide : 0 < 7) hbound
  have hlength : (printPadded 8 6 sum).length = 6 := length_printPadded (by decide) hbound
  obtain ⟨chksum, hchksum⟩ : ∃ chksum, chksum = printPadded 8 6 sum ++ 0 :: [32] := ⟨_, rfl⟩
  have hsized' : ({ h with chksum } : TarHeader).Sized := by
    refine hsized.set_chksum ?_
    rw [hchksum, List.length_append, hlength]
    rfl
  refine ⟨{ h with chksum }, ?_, hsized'.length_raw, ?_, ?_⟩
  · unfold withChecksum
    dsimp only
    rw [hsum, hput, hchksum]
    simp
  · rw [TarHeader.raw_eq, hmagic]
    simp [ustarMagic]
  · unfold readTarHeader
    have hread : readOctal chksum = some sum := by
      rw [hchksum]
      exact readOctal_printPadded 6 sum (.inr ⟨_, rfl⟩)
    rw [hsized'.take_drop]
    unfold TarHeader.raw
    rw [splitFields_flatten hsized']
    simp only [TarHeader.fields, hread, Option.bind_eq_bind, Option.bind_some]
    refine (if_neg ?_).trans rfl
    rintro (hne | hne)
    · exact hne hmagic
    · exact hne hsum.symm

/-- A block from which the fields of a header are read. -/
structure IsHeader (h : TarHeader) (block : Bytes) : Prop where
  length : block.length = 512
  mem : (117 : UInt8) ∈ block
  read : readTarHeader block = h.decode

theorem writeShortHeader_spec (htracks : d.Tracks)
    (hsized : h.Sized) (hmagic : h.magic = ustarMagic) (hwritten : writeShortHeader d h = some d') :
    ∃ block, IsHeader h block ∧ d'.out = d.out ++ block ∧ d'.Tracks := by
  obtain ⟨h', hchecksum, hlength, hmem, hread⟩ := withChecksum_spec hsized hmagic
  unfold writeShortHeader at hwritten
  rw [hchecksum, Option.map_some, Option.some.injEq] at hwritten
  subst hwritten
  exact ⟨h'.raw, ⟨hlength, hmem, hread⟩, rfl, htracks.write h'.raw⟩

theorem readTarFrom_header {pre post : Bytes}
    (hblock : IsHeader h block) (hdecode : h.decode = some f) (fuel : Nat)
    (records : List (Bytes × Bytes)) :
    readTarFrom (pre ++ (block ++ post)) (fuel + 1) pre.length records =
      (let data := post.take f.size
       let next := align 512 (pre.length + 512 + f.size)
       if data.length ≠ f.size then none
       else if f.typeflag = extHdr then
         match readRecords data.length data with
         | none => none
         | some records => readTarFrom (pre ++ (block ++ post)) fuel next records
       else
         match tarItem records f data with
         | none => none
         | some e => (readTarFrom (pre ++ (block ++ post)) fuel next []).map (e :: ·)) := by
  have hzeros : slice (pre ++ (block ++ post)) pre.length 1024 ≠ List.replicate 1024 0 := by
    intro heq
    have hmem : (117 : UInt8) ∈ slice (pre ++ (block ++ post)) pre.length 1024 := by
      unfold slice
      rw [List.drop_left, List.take_append]
      refine List.mem_append_left _ ?_
      rw [List.take_of_length_le (by rw [hblock.length]; decide)]
      exact hblock.mem
    rw [heq] at hmem
    exact absurd (List.eq_of_mem_replicate hmem) (by decide)
  have hheader : slice (pre ++ (block ++ post)) pre.length 512 = block :=
    slice_append rfl hblock.length.symm
  have hdata : slice (pre ++ (block ++ post)) (pre.length + 512) f.size = post.take f.size := by
    unfold slice
    rw [← List.append_assoc, List.drop_left' (by rw [List.length_append, hblock.length])]
  rw [readTarFrom, if_neg hzeros, hheader, hblock.read, hdecode]
  dsimp only
  rw [hdata]

/-! ### Extended headers -/

theorem createRecordLoop_spec {line : Bytes} {fuel : Nat}
    (h : createRecordLoop line fuel len = some record) :
    record = printPadded 10 1 record.length ++ line ∧ record.length ≤ 2147483647 := by
  induction fuel generalizing len with
  | zero => exact nomatch h
  | succ fuel ih =>
      unfold createRecordLoop asprintf at h
      split at h
      · next hfits =>
          rw [Option.bind_eq_bind, Option.bind_some] at h
          split at h
          · next hlen =>
              obtain rfl := (Option.some.inj h).symm
              refine ⟨?_, hfits⟩
              rw [hlen]
              rw [hlen] at hfits
              rw [Nat.mod_eq_of_lt (by omega)]
          · exact ih h
      · exact nomatch h

theorem createRecord_spec {value : Bytes} (h : createRecord key value = some record) :
    record = printPadded 10 1 record.length ++ (32 :: key ++ 61 :: value ++ [10]) ∧
      record.length ≤ 2147483647 := by
  unfold createRecord asprintf at h
  split at h
  · rw [Option.bind_eq_bind, Option.bind_some] at h
    exact createRecordLoop_spec h
  · exact nomatch h

theorem takeWhile_decimal (width n : Nat) (rest : Bytes) :
    (printPadded 10 width n ++ 32 :: rest).takeWhile (fun c => 48 ≤ c ∧ c ≤ 57) =
      printPadded 10 width n := by
  have hdigit : ∀ d < 10, 48 ≤ digitByte d ∧ digitByte d ≤ 57 := by decide
  rw [List.takeWhile_append_of_pos]
  · simp
  · intro c hc
    obtain ⟨d, hd, rfl⟩ := List.mem_map.mp hc
    simpa using hdigit d (mem_paddedDigits (by decide) hd)

theorem takeWhile_key (hkey : (61 : UInt8) ∉ key) (value : Bytes) :
    (key ++ 61 :: value).takeWhile (· ≠ 61) = key := by
  rw [List.takeWhile_append_of_pos]
  · simp
  · intro c hc
    simpa using fun heq : c = 61 => hkey (heq ▸ hc)

theorem printPadded_ne_nil (n : Nat) : printPadded 10 1 n ≠ [] := by
  intro hnil
  have hlength := congrArg List.length hnil
  rw [printPadded, List.length_map, length_paddedDigits, List.length_nil] at hlength
  omega

theorem readRecord_createRecord {value : Bytes} (hkey : (61 : UInt8) ∉ key)
    (h : createRecord key value = some record) (rest : Bytes) :
    readRecord (record ++ rest) = some ((key, value), rest) := by
  obtain ⟨hrecord, -⟩ := createRecord_spec h
  generalize hdigits : printPadded 10 1 record.length = digits at hrecord
  have hassoc : record = digits ++ 32 :: (key ++ 61 :: value ++ [10]) := by
    rw [hrecord]
    simp
  have htake : (record ++ rest).takeWhile (fun c => 48 ≤ c ∧ c ≤ 57) = digits := by
    rw [hassoc, List.append_assoc, List.cons_append, ← hdigits, takeWhile_decimal]
  have hlen : readDigits 10 digits = some record.length := by
    rw [← hdigits]
    exact readDigits_printPadded (by decide) (by decide)
  have hne : digits ≠ [] := hdigits ▸ printPadded_ne_nil _
  have hblank : record[digits.length]? = some 32 := by
    rw [hassoc]
    simp
  have hlast : record.getLast? = some 10 := by
    rw [hrecord, ← List.append_assoc, List.getLast?_concat]
  have hbody : (record.drop (digits.length + 1)).dropLast = key ++ 61 :: value := by
    rw [hassoc, ← List.drop_drop, List.drop_left, List.drop_succ_cons, List.drop_zero,
      List.dropLast_concat]
  have hequals : (key ++ 61 :: value)[key.length]? = some 61 := by simp
  have hvalue : (key ++ 61 :: value).drop (key.length + 1) = value := by
    rw [← List.drop_drop, List.drop_left, List.drop_succ_cons, List.drop_zero]
  unfold readRecord
  simp only [htake, if_neg hne, hlen, Option.bind_eq_bind, Option.bind_some, List.take_left,
    List.drop_left, hblank, hlast, hbody, takeWhile_key hkey, hequals, hvalue, ne_eq,
    not_true_eq_false, or_false, if_false]
  rfl

/-- The records that stand for a long name. -/
def longRecords (key : Bytes) (value : Option Bytes) : List (Bytes × Bytes) :=
  (value.map (key, ·)).toList

theorem readRecords_longRecord {bytes : Bytes} {value : Option Bytes} {fuel : Nat}
    {tail : List (Bytes × Bytes)} (hkey : (61 : UInt8) ∉ key) (h : longRecord key value = some bytes)
    (hrest : ∀ fuel' ≥ fuel, readRecords fuel' rest = some tail) {fuel' : Nat}
    (hfuel : fuel + bytes.length ≤ fuel') :
    readRecords fuel' (bytes ++ rest) = some (longRecords key value ++ tail) := by
  cases value with
  | none =>
      obtain rfl := (Option.some.inj h).symm
      exact hrest fuel' hfuel
  | some value =>
      obtain ⟨hrecord, -⟩ := createRecord_spec h
      have hpos : bytes ≠ [] := by
        intro hnil
        rw [hnil] at hrecord
        simp at hrecord
      obtain ⟨c, cs, hcons⟩ := List.exists_cons_of_ne_nil hpos
      obtain ⟨fuel'', rfl⟩ : ∃ fuel'', fuel' = fuel'' + 1 := by
        refine ⟨fuel' - 1, ?_⟩
        rw [hcons, List.length_cons] at hfuel
        omega
      have hread := readRecord_createRecord hkey h rest
      have hmore : fuel ≤ fuel'' := by
        rw [hcons, List.length_cons] at hfuel
        omega
      rw [hcons, List.cons_append] at hread ⊢
      rw [readRecords, hread, Option.bind_eq_bind, Option.bind_some]
      · simp only [hrest fuel'' hmore, Option.bind_eq_bind, Option.bind_some]
        rfl
      · exact fun hnil => nomatch hnil

theorem readRecords_longNames {link : Bytes} {realname reallinkname : Option Bytes}
    (hname : longRecord pathKey realname = some name)
    (hlink : longRecord linkpathKey reallinkname = some link) :
    readRecords (name ++ link).length (name ++ link) =
      some (longRecords pathKey realname ++ longRecords linkpathKey reallinkname) := by
  have hpath : (61 : UInt8) ∉ pathKey := by decide
  have hlinkpath : (61 : UInt8) ∉ linkpathKey := by decide
  have hnil : ∀ fuel ≥ 0, readRecords fuel [] = some [] := by
    intro fuel _
    unfold readRecords
    rfl
  have hlinks : ∀ fuel ≥ link.length, readRecords fuel link =
      some (longRecords linkpathKey reallinkname) := by
    intro fuel hfuel
    have hread := readRecords_longRecord hlinkpath hlink hnil ((Nat.zero_add _).trans_le hfuel)
    rwa [List.append_nil, List.append_nil] at hread
  refine readRecords_longRecord hpath hname hlinks ?_
  rw [List.length_append, Nat.add_comm]

theorem recordValue_longRecords (realname reallinkname : Option Bytes) :
    recordValue pathKey (longRecords pathKey realname ++ longRecords linkpathKey reallinkname) =
        realname ∧
      recordValue linkpathKey
        (longRecords pathKey realname ++ longRecords linkpathKey reallinkname) = reallinkname := by
  have hkeys : ¬ pathKey = linkpathKey := by decide
  have hkeys' : ¬ linkpathKey = pathKey := by decide
  cases realname <;> cases reallinkname <;> simp [recordValue, longRecords, hkeys, hkeys']

theorem length_longRecord {bytes : Bytes} {value : Option Bytes}
    (h : longRecord key value = some bytes) : bytes.length ≤ 2147483647 := by
  cases value with
  | none =>
      obtain rfl := (Option.some.inj h).symm
      exact Nat.zero_le _
  | some value => exact (createRecord_spec h).2

/-! ### Headers as they are written -/

theorem tarPushPad_spec (h : d.Tracks) :
    (tarPushPad d).out = padded 512 d.out ∧ (tarPushPad d).Tracks := by
  refine Output.padLoop_spec h (b := 9) rfl (by decide) ?_
  have hlt : (2 ^ 9 - d.out.length % 2 ^ 9) % 2 ^ 9 < 2 ^ 9 := Nat.mod_lt _ (by decide)
  omega

theorem TarHeader.Sized.set_ext (hsized : h.Sized) (hlength : size.length = 12) :
    ({ h with typeflag := extHdr, size } : TarHeader).Sized := by
  unfold TarHeader.Sized TarHeader.fields tarFieldSizes at *
  simp only [List.map_cons, List.map_nil, List.cons.injEq] at hsized ⊢
  tauto

theorem TarHeader.decode_ext {total : Nat}
    (hdecode : h.decode = some f) (hsize : readOctal size = some total) :
    ({ h with typeflag := extHdr, size } : TarHeader).decode =
      some { f with typeflag := extHdr, size := total } := by
  unfold TarHeader.decode at *
  simp only [Option.bind_eq_bind, Option.bind_eq_some_iff] at hdecode
  obtain ⟨mode, hmode, uid, huid, gid, hgid, w, hw, major, hmajor, minor, hminor, hf⟩ := hdecode
  obtain rfl := (Option.some.inj hf).symm
  simp only [hmode, huid, hgid, hsize, hmajor, hminor, Option.bind_eq_bind, Option.bind_some]
  rfl

/-- What `write_header` puts in front of the header, together with the records that the reader takes
from it. -/
structure IsExtension (ext : Bytes) (records : List (Bytes × Bytes)) : Prop where
  mod : ext.length % 512 = 0
  read : ∀ {pre post : Bytes} {fuel : Nat}, pre.length % 512 = 0 → ext.length ≤ fuel →
    ∃ fuel', fuel ≤ fuel' + ext.length ∧
      readTarFrom (pre ++ (ext ++ post)) fuel pre.length [] =
        readTarFrom (pre ++ (ext ++ post)) fuel' (pre.length + ext.length) records

theorem IsExtension.nil : IsExtension [] [] where
  mod := rfl
  read := by
    intro pre post fuel _ _
    exact ⟨fuel, le_rfl, rfl⟩

theorem IsHeader.isExtension {body : Bytes}
    {records : List (Bytes × Bytes)} (hblock : IsHeader h block) (hdecode : h.decode = some f)
    (hflag : f.typeflag = extHdr) (hsize : f.size = body.length)
    (hrecords : readRecords body.length body = some records) :
    IsExtension (block ++ padded 512 body) records where
  mod := by
    rw [List.length_append, hblock.length, Nat.add_mod, length_padded_mod (by decide)]
  read := by
    intro pre post fuel hpre hfuel
    rw [List.length_append, hblock.length] at hfuel
    obtain ⟨fuel, rfl⟩ : ∃ n, fuel = n + 1 := ⟨fuel - 1, by omega⟩
    refine ⟨fuel, ?_, ?_⟩
    · rw [List.length_append, hblock.length]
      omega
    · have hbody : (padded 512 body ++ post).take body.length = body := by
        rw [padded, List.append_assoc, List.take_left]
      have hnext : align 512 (pre.length + 512 + body.length) =
          pre.length + (block ++ padded 512 body).length := by
        rw [align_add (by omega), List.length_append, hblock.length, length_padded, Nat.add_assoc]
      rw [List.append_assoc, readTarFrom_header hblock hdecode]
      simp only [hsize, hbody, hflag, hrecords, hnext, ne_eq, not_true_eq_false, if_false, if_true]

theorem writeHeader_spec (htracks : d.Tracks)
    (hmod : d.out.length % 512 = 0) (hsized : h.Sized) (hmagic : h.magic = ustarMagic)
    (hdecode : h.decode = some f) (hwritten : writeHeader d h = some d') :
    ∃ ext block, IsExtension ext
        (longRecords pathKey h.realname ++ longRecords linkpathKey h.reallinkname) ∧
      IsHeader h block ∧ d'.out = d.out ++ (ext ++ block) ∧ d'.Tracks := by
  unfold writeHeader at hwritten
  split at hwritten
  · simp only [Option.bind_eq_bind, Option.bind_eq_some_iff] at hwritten
    obtain ⟨name, hname, link, hlink, size, hsize, d₁, hd₁, hd'⟩ := hwritten
    have hfits : name.length + link.length < 8 ^ (12 - 1) := by
      have hname' := length_longRecord hname
      have hlink' := length_longRecord hlink
      have hpow : 8 ^ (12 - 1) = 8589934592 := rfl
      omega
    obtain ⟨hlength, w, hw, hwvalue⟩ := octalField_putOctal (by decide) hsize
    obtain rfl := hwvalue.mpr hfits
    have hsized' : ({ h with typeflag := extHdr, size } : TarHeader).Sized :=
      hsized.set_ext hlength
    obtain ⟨xblock, hxblock, hout₁, htracks₁⟩ := writeShortHeader_spec htracks hsized' hmagic hd₁
    have htracks₂ := (htracks₁.write name).write link
    obtain ⟨hout₃, htracks₃⟩ := tarPushPad_spec htracks₂
    obtain ⟨block, hblock, hout', htracks'⟩ := writeShortHeader_spec htracks₃ hsized hmagic hd'
    have hrecords := readRecords_longNames hname hlink
    refine ⟨xblock ++ padded 512 (name ++ link), block, ?_, hblock, ?_, htracks'⟩
    · exact hxblock.isExtension (TarHeader.decode_ext hdecode hw) rfl List.length_append.symm
        hrecords
    · have hpre : (d.out ++ xblock).length % 512 = 0 := by
        rw [List.length_append, hxblock.length, Nat.add_mod, hmod]
      rw [hout', hout₃]
      simp only [Output.write, hout₁, List.append_assoc]
      rw [← List.append_assoc d.out, padded_append hpre]
      simp only [List.append_assoc]
  · next hshort =>
    obtain ⟨block, hblock, hout, htracks'⟩ := writeShortHeader_spec htracks hsized hmagic hwritten
    have hname : h.realname = none := by
      by_contra hne
      exact hshort (.inl (Option.isSome_iff_ne_none.mpr hne))
    have hlink : h.reallinkname = none := by
      by_contra hne
      exact hshort (.inr (Option.isSome_iff_ne_none.mpr hne))
    refine ⟨[], block, ?_, hblock, hout, htracks'⟩
    rw [hname, hlink]
    exact IsExtension.nil

/-! ### Items -/

/-- The contents of a file. -/
def Item.fileData (e : Item) : Bytes :=
  match e.content with
  | .file data => data
  | _ => []

/-- The major number of a device node and zero for other items. -/
def Item.major (e : Item) : Nat :=
  match e.content with
  | .node _ major _ => major
  | _ => 0

/-- The minor number of a device node and zero for other items. -/
def Item.minor (e : Item) : Nat :=
  match e.content with
  | .node _ _ minor => minor
  | _ => 0

/-- The type flag of an item. -/
def Item.tarType (e : Item) : UInt8 :=
  match e.content with
  | .file _ => regType
  | .dir => dirType
  | .node devtype _ _ => if devtype = .block then blkType else chrType
  | .symlink _ => symType

/-- Numbers with fewer digits than their fields have bytes. -/
structure Item.FitsTar (e : Item) : Prop where
  mode : e.mode < 8 ^ 7
  uid : e.uid < 8 ^ 7
  gid : e.gid < 8 ^ 7
  size : e.fileData.length < 8 ^ 11
  major : e.major < 8 ^ 7
  minor : e.minor < 8 ^ 7

/-- The name, if it is too long for its field. -/
def longName (name : Bytes) : Option Bytes := if 100 ≤ name.length then some name else none

/-- A header that stands for an item, with the fields that are read from it. -/
structure Item.IsHeaderOf (e : Item) (h : TarHeader) (f : TarFields) : Prop where
  sized : h.Sized
  magic : h.magic = ustarMagic
  decode : h.decode = some f
  realname : h.realname = longName e.name
  reallinkname : h.reallinkname = longName e.linkname
  typeflag : f.typeflag = e.tarType
  name : f.name = cString (copyName e.name)
  linkname : f.linkname = cString (copyName e.linkname)
  mode : f.mode = e.mode ↔ e.mode < 8 ^ 7
  uid : f.uid = e.uid ↔ e.uid < 8 ^ 7
  gid : f.gid = e.gid ↔ e.gid < 8 ^ 7
  size : f.size = e.fileData.length ↔ e.fileData.length < 8 ^ 11
  major : f.devmajor = e.major ↔ e.major < 8 ^ 7
  minor : f.devminor = e.minor ↔ e.minor < 8 ^ 7

theorem length_copyName (name : Bytes) : (copyName name).length = 100 := by
  have hle := List.length_take_le 99 name
  rw [copyName, List.length_append, List.length_replicate]
  omega

theorem octalField_zero : OctalField 8 0 (List.replicate 8 0) :=
  ⟨List.length_replicate, 0, rfl, iff_of_true rfl (by decide)⟩

/-- `prepare_header` leaves the header of an item to be completed by its size, its device numbers
and its link target. -/
theorem prepareHeader_isHeaderOf {hdr : TarHeader}
    {devmajor devminor linkname : Bytes} {reallinkname : Option Bytes}
    (hprep : prepareHeader mtime e.name e.tarType e.mode e.uid e.gid = some hdr)
    (hsize : OctalField 12 e.fileData.length size) (hmajor : OctalField 8 e.major devmajor)
    (hminor : OctalField 8 e.minor devminor) (hlink : linkname = copyName e.linkname)
    (hreal : reallinkname = longName e.linkname) :
    ∃ f, e.IsHeaderOf { hdr with size, devmajor, devminor, linkname, reallinkname } f := by
  subst hlink hreal
  unfold prepareHeader at hprep
  simp only [Option.bind_eq_bind, Option.bind_eq_some_iff] at hprep
  obtain ⟨uid, huid, gid, hgid, mode, hmode, zero, -, time, htime, hhdr⟩ := hprep
  obtain rfl := (Option.some.inj hhdr).symm
  obtain ⟨luid, wuid, ruid, iuid⟩ := octalField_putOctal (by decide) huid
  obtain ⟨lgid, wgid, rgid, igid⟩ := octalField_putOctal (by decide) hgid
  obtain ⟨lmode, wmode, rmode, imode⟩ := octalField_putOctal (by decide) hmode
  obtain ⟨ltime, -⟩ := octalField_putOctal (by decide) htime
  obtain ⟨lsize, wsize, rsize, isize⟩ := hsize
  obtain ⟨lmajor, wmajor, rmajor, imajor⟩ := hmajor
  obtain ⟨lminor, wminor, rminor, iminor⟩ := hminor
  refine ⟨{ name := cString (copyName e.name), mode := wmode, uid := wuid, gid := wgid
            size := wsize, typeflag := e.tarType, linkname := cString (copyName e.linkname)
            devmajor := wmajor, devminor := wminor }, ?_⟩
  refine ⟨?_, rfl, ?_, rfl, rfl, rfl, rfl, rfl, imode, iuid, igid, isize, imajor, iminor⟩
  · simp only [TarHeader.Sized, TarHeader.fields, List.map_cons, List.map_nil, length_copyName,
      List.length_replicate, luid, lgid, lmode, ltime, lsize, lmajor, lminor]
    rfl
  · have hpfx : cString (List.replicate 155 0) = [] := rfl
    simp only [TarHeader.decode, ruid, rgid, rmode, rsize, rmajor, rminor, Option.bind_eq_bind,
      Option.bind_some, hpfx, if_true]
    rfl

theorem prepareHeader_defaults {mode uid gid : Nat} {typeflag : UInt8}
    {hdr : TarHeader} (h : prepareHeader mtime name typeflag mode uid gid = some hdr) :
    OctalField 12 0 hdr.size ∧ OctalField 8 0 hdr.devmajor ∧ OctalField 8 0 hdr.devminor ∧
      hdr.linkname = copyName [] ∧ hdr.reallinkname = none := by
  unfold prepareHeader at h
  simp only [Option.bind_eq_bind, Option.bind_eq_some_iff] at h
  obtain ⟨_, -, _, -, _, -, size, hsize, _, -, hhdr⟩ := h
  obtain rfl := (Option.some.inj hhdr).symm
  exact ⟨octalField_putOctal (by decide) hsize, octalField_zero, octalField_zero, rfl, rfl⟩

/-- The contents of the file behind a header. -/
def TarData.finish (d : TarData) (e : Item) : TarData :=
  match e.content with
  | .file data => tarPushPad (d.write data)
  | _ => d

theorem TarData.finish_spec (htracks : d.Tracks) (hmod : d.out.length % 512 = 0) (e : Item) :
    (TarData.finish d e).out = d.out ++ padded 512 e.fileData ∧ (TarData.finish d e).Tracks := by
  have hnone : d.out = d.out ++ padded 512 [] ∧ d.Tracks := by
    refine ⟨?_, htracks⟩
    rw [padded_of_mod (by rfl), List.append_nil]
  unfold TarData.finish Item.fileData
  cases e.content with
  | file data =>
      obtain ⟨hout, htracks'⟩ := tarPushPad_spec (htracks.write data)
      refine ⟨hout.trans ?_, htracks'⟩
      exact padded_append hmod data
  | dir => exact hnone
  | node devtype major minor => exact hnone
  | symlink linktarget => exact hnone

theorem addToTarArchive_cases (h : addToTarArchive d mtime e = some d') :
    ∃ hdr f d₁, e.IsHeaderOf hdr f ∧ writeHeader d hdr = some d₁ ∧ d' = d₁.finish e := by
  obtain ⟨name, mode, uid, gid, content⟩ := e
  cases content with
  | file data =>
      simp only [addToTarArchive, tarMkfile, Option.bind_eq_bind, Option.bind_eq_some_iff] at h
      obtain ⟨hdr, hprep, size, hsize, d₁, hd₁, hd'⟩ := h
      obtain ⟨-, hmajor, hminor, hlink, hreal⟩ := prepareHeader_defaults hprep
      obtain ⟨f, hf⟩ := prepareHeader_isHeaderOf (e := ⟨name, mode, uid, gid, .file data⟩) hprep
        (octalField_putOctal (by decide) hsize) hmajor hminor hlink hreal
      exact ⟨_, f, d₁, hf, hd₁, (Option.some.inj hd').symm⟩
  | dir =>
      simp only [addToTarArchive, tarMkgeneric, Option.bind_eq_bind, Option.bind_eq_some_iff] at h
      obtain ⟨hdr, hprep, hd'⟩ := h
      obtain ⟨hsize, hmajor, hminor, hlink, hreal⟩ := prepareHeader_defaults hprep
      obtain ⟨f, hf⟩ := prepareHeader_isHeaderOf (e := ⟨name, mode, uid, gid, .dir⟩) hprep hsize
        hmajor hminor hlink hreal
      exact ⟨_, f, d', hf, hd', rfl⟩
  | node devtype major minor =>
      simp only [addToTarArchive, tarMknod, Option.bind_eq_bind, Option.bind_eq_some_iff] at h
      obtain ⟨hdr, hprep, devmajor, hmajor, devminor, hminor, hd'⟩ := h
      obtain ⟨hsize, -, -, hlink, hreal⟩ := prepareHeader_defaults hprep
      obtain ⟨f, hf⟩ := prepareHeader_isHeaderOf
        (e := ⟨name, mode, uid, gid, .node devtype major minor⟩) hprep hsize
        (octalField_putOctal (by decide) hmajor) (octalField_putOctal (by decide) hminor) hlink hreal
      exact ⟨_, f, d', hf, hd', rfl⟩
  | symlink linktarget =>
      simp only [addToTarArchive, tarMklink, Option.bind_eq_bind, Option.bind_eq_some_iff] at h
      obtain ⟨hdr, hprep, hd'⟩ := h
      obtain ⟨hsize, hmajor, hminor, -, -⟩ := prepareHeader_defaults hprep
      obtain ⟨f, hf⟩ := prepareHeader_isHeaderOf
        (e := ⟨name, mode, uid, gid, .symlink linktarget⟩) hprep hsize hmajor hminor rfl rfl
      exact ⟨_, f, d', hf, hd', rfl⟩

theorem cString_copyName (h : (0 : UInt8) ∉ name) (hshort : name.length < 100) :
    cString (copyName name) = name := by
  unfold copyName
  rw [List.take_of_length_le (by omega)]
  obtain ⟨k, hk⟩ : ∃ k, 100 - name.length = k + 1 := ⟨99 - name.length, by omega⟩
  rw [hk, List.replicate_succ, cString_append_zero h]

theorem longName_getD (h : (0 : UInt8) ∉ name) :
    (longName name).getD (cString (copyName name)) = name := by
  unfold longName
  split
  · rfl
  · exact cString_copyName h (by omega)

theorem Item.tarType_ne_extHdr (e : Item) : e.tarType ≠ extHdr := by
  unfold Item.tarType
  split
  · decide
  · decide
  · split <;> decide
  · decide

theorem tarItem_eq_some_iff {records : List (Bytes × Bytes)}
    {data : Bytes} (htype : f.typeflag = e.tarType)
    (hname : (recordValue pathKey records).getD f.name = e.name)
    (hlink : (recordValue linkpathKey records).getD f.linkname = e.linkname) :
    tarItem records f data = some e ↔ f.mode = e.mode ∧ f.uid = e.uid ∧ f.gid = e.gid ∧
      match e.content with
      | .file data' => data = data'
      | .node _ major minor => f.devmajor = major ∧ f.devminor = minor
      | _ => True := by
  obtain ⟨name, mode, uid, gid, content⟩ := e
  cases content with
  | file data' =>
      simp [tarItem, htype, hname, Item.tarType]
  | dir =>
      simp [tarItem, htype, hname, Item.tarType, regType, dirType]
  | node devtype major minor =>
      cases devtype <;>
        simp [tarItem, htype, hname, Item.tarType, regType, dirType, blkType, chrType]
  | symlink linktarget =>
      simp only [Item.linkname] at hlink
      simp [tarItem, htype, hname, hlink, Item.tarType, regType, dirType, blkType, chrType, symType]

/-- The names of an item are C strings. -/
structure Item.Named (e : Item) : Prop where
  name : (0 : UInt8) ∉ e.name
  linkname : (0 : UInt8) ∉ e.linkname

theorem Item.IsHeaderOf.tarItem_iff (hf : e.IsHeaderOf h f) (hnamed : e.Named) (data : Bytes) :
    tarItem (longRecords pathKey h.realname ++ longRecords linkpathKey h.reallinkname) f data =
        some e ↔ f.mode = e.mode ∧ f.uid = e.uid ∧ f.gid = e.gid ∧
      match e.content with
      | .file data' => data = data'
      | .node _ major minor => f.devmajor = major ∧ f.devminor = minor
      | _ => True := by
  obtain ⟨hpath, hlinkpath⟩ := recordValue_longRecords h.realname h.reallinkname
  refine tarItem_eq_some_iff hf.typeflag ?_ ?_
  · rw [hpath, hf.realname, hf.name, longName_getD hnamed.name]
  · rw [hlinkpath, hf.reallinkname, hf.linkname, longName_getD hnamed.linkname]

theorem Item.IsHeaderOf.fitsTar_iff (post : Bytes) (hf : e.IsHeaderOf h f) (hnamed : e.Named) :
    (((padded 512 e.fileData ++ post).take f.size).length = f.size ∧
      tarItem (longRecords pathKey h.realname ++ longRecords linkpathKey h.reallinkname) f
        ((padded 512 e.fileData ++ post).take f.size) = some e) ↔ e.FitsTar := by
  have htake : (padded 512 e.fileData ++ post).take e.fileData.length = e.fileData := by
    rw [padded, List.append_assoc, List.take_left]
  have hmajor := hf.major
  have hminor := hf.minor
  have hsize := hf.size
  rw [hf.tarItem_iff hnamed, hf.mode, hf.uid, hf.gid]
  generalize hdata : (padded 512 e.fileData ++ post).take f.size = data
  constructor
  · rintro ⟨hlength, hmode, huid, hgid, hcontent⟩
    suffices hrest : e.fileData.length < 8 ^ 11 ∧ e.major < 8 ^ 7 ∧ e.minor < 8 ^ 7 from
      ⟨hmode, huid, hgid, hrest.1, hrest.2.1, hrest.2.2⟩
    unfold Item.fileData Item.major Item.minor at *
    cases hc : e.content with
    | file data' =>
        simp only [hc] at *
        refine ⟨?_, by decide, by decide⟩
        rw [← hsize, ← hcontent, hlength]
    | dir => decide
    | node devtype major minor =>
        simp only [hc] at *
        exact ⟨by decide, hmajor.mp hcontent.1, hminor.mp hcontent.2⟩
    | symlink linktarget =>
        simp only [hc] at *
        decide
  · intro hfits
    rw [hsize.mpr hfits.size, htake] at hdata
    refine ⟨?_, hfits.mode, hfits.uid, hfits.gid, ?_⟩
    · rw [← hdata, hsize.mpr hfits.size]
    · have hmajor' := hmajor.mpr hfits.major
      have hminor' := hminor.mpr hfits.minor
      unfold Item.fileData at hdata
      unfold Item.major at hmajor'
      unfold Item.minor at hminor'
      cases hc : e.content <;> simp only [hc] at *
      · exact hdata.symm
      · exact ⟨hmajor', hminor'⟩

/-- With the header of an item and the padded contents behind it, the reader finds the item and goes
on behind it if and only if all numbers of the item fit. -/
theorem readTarFrom_item {pre : Bytes}
    (hnamed : e.Named) (hpre : pre.length % 512 = 0) (hf : e.IsHeaderOf h f)
    (hblock : IsHeader h block) (post : Bytes) (fuel : Nat) (rest : List Item) :
    readTarFrom (pre ++ (block ++ (padded 512 e.fileData ++ post))) (fuel + 1) pre.length
        (longRecords pathKey h.realname ++ longRecords linkpathKey h.reallinkname) =
        some (e :: rest) ↔
      e.FitsTar ∧ readTarFrom (pre ++ (block ++ (padded 512 e.fileData ++ post))) fuel
        (pre.length + (block ++ padded 512 e.fileData).length) [] = some rest := by
  have hflag : ¬ f.typeflag = extHdr := by
    rw [hf.typeflag]
    exact e.tarType_ne_extHdr
  have hnext (hfits : e.FitsTar) : align 512 (pre.length + 512 + f.size) =
      pre.length + (block ++ padded 512 e.fileData).length := by
    rw [align_add (by omega), List.length_append, hblock.length, length_padded,
      hf.size.mpr hfits.size, Nat.add_assoc]
  have hfits_iff := hf.fitsTar_iff post hnamed
  rw [readTarFrom_header hblock hf.decode]
  dsimp only
  constructor
  · intro h
    split at h
    · exact nomatch h
    · next hlength =>
        split at h
        · exact nomatch h
        · next e' he' =>
            obtain ⟨rest', hrest', hcons⟩ := Option.map_eq_some_iff.mp h
            obtain ⟨rfl, rfl⟩ := List.cons.inj hcons
            have hfits := hfits_iff.mp ⟨not_not.mp hlength, he'⟩
            rw [hnext hfits] at hrest'
            exact ⟨hfits, hrest'⟩
  · rintro ⟨hfits, hrest⟩
    obtain ⟨hlength, hitem⟩ := hfits_iff.mpr hfits
    rw [if_neg (not_not_intro hlength), if_neg hflag, hitem]
    dsimp only
    rw [hnext hfits, hrest, Option.map_some]

/-! ### Archives -/

/-- The blocks behind the items. -/
def trailerBlocks : Bytes := List.replicate 512 0 ++ List.replicate 512 0

theorem readTarFrom_trailer (pre : Bytes) (fuel : Nat) :
    readTarFrom (pre ++ trailerBlocks) (fuel + 1) pre.length [] = some [] := by
  have hslice : slice (pre ++ trailerBlocks) pre.length 1024 = List.replicate 1024 0 := by
    unfold slice trailerBlocks
    rw [List.drop_left, List.replicate_append_replicate, List.take_of_length_le]
    rw [List.length_replicate]
  rw [readTarFrom, if_pos hslice]

theorem addToTarArchive_spec (htracks : d.Tracks) (hmod : d.out.length % 512 = 0) (hnamed : e.Named)
    (h : addToTarArchive d mtime e = some d') :
    ∃ bytes, d'.out = d.out ++ bytes ∧ d'.Tracks ∧ bytes.length % 512 = 0 ∧
      ∀ post fuel rest, bytes.length ≤ fuel → ∃ fuel', fuel ≤ fuel' + bytes.length ∧
        (readTarFrom (d.out ++ (bytes ++ post)) fuel d.out.length [] = some (e :: rest) ↔
          e.FitsTar ∧ readTarFrom (d.out ++ (bytes ++ post)) fuel' (d.out.length + bytes.length) [] =
            some rest) := by
  obtain ⟨hdr, f, d₁, hf, hwritten, rfl⟩ := addToTarArchive_cases h
  obtain ⟨ext, block, hext, hblock, hout, htracks₁⟩ :=
    writeHeader_spec htracks hmod hf.sized hf.magic hf.decode hwritten
  have hmod₁ : d₁.out.length % 512 = 0 := by
    rw [hout, List.length_append, List.length_append, hblock.length]
    have hext' := hext.mod
    omega
  obtain ⟨hout', htracks'⟩ := TarData.finish_spec htracks₁ hmod₁ e
  refine ⟨ext ++ (block ++ padded 512 e.fileData), ?_, htracks', ?_, ?_⟩
  · rw [hout', hout]
    simp only [List.append_assoc]
  · have hext' := hext.mod
    have hpadded : (padded 512 e.fileData).length % 512 = 0 := length_padded_mod (by decide) _
    rw [List.length_append, List.length_append, hblock.length]
    omega
  · intro post fuel rest hfuel
    rw [List.length_append, List.length_append, hblock.length] at hfuel
    obtain ⟨fuel₁, hfuel₁, hread⟩ :=
      @IsExtension.read _ _ hext d.out (block ++ padded 512 e.fileData ++ post) fuel hmod (by omega)
    obtain ⟨fuel₂, rfl⟩ : ∃ n, fuel₁ = n + 1 := ⟨fuel₁ - 1, by omega⟩
    have hpre : (d.out ++ ext).length % 512 = 0 := by
      have hext' := hext.mod
      rw [List.length_append]
      omega
    have hitem := readTarFrom_item hnamed hpre hf hblock post fuel₂ rest
    have hstream : d.out ++ (ext ++ (block ++ padded 512 e.fileData) ++ post) =
        d.out ++ ext ++ (block ++ (padded 512 e.fileData ++ post)) := by
      simp only [List.append_assoc]
    have hstream' : d.out ++ (ext ++ (block ++ padded 512 e.fileData ++ post)) =
        d.out ++ ext ++ (block ++ (padded 512 e.fileData ++ post)) := by
      simp only [List.append_assoc]
    refine ⟨fuel₂, ?_, ?_⟩
    · rw [List.length_append, List.length_append, hblock.length]
      omega
    · rw [hstream'] at hread
      rw [hstream, hread, ← List.length_append, hitem]
      simp only [List.length_append, Nat.add_assoc]

theorem readTarFrom_items {items : List (Nat × Item)} (htracks : d.Tracks)
    (hmod : d.out.length % 512 = 0) (hnamed : ∀ e ∈ items, e.2.Named)
    (h : items.foldlM (fun d e => addToTarArchive d e.1 e.2) d = some d') :
    ∃ tail, d'.out = d.out ++ tail ∧ ∀ fuel, tail.length < fuel →
      (readTarFrom (d.out ++ (tail ++ trailerBlocks)) fuel d.out.length [] =
        some (items.map Prod.snd) ↔ ∀ e ∈ items, e.2.FitsTar) := by
  induction items generalizing d with
  | nil =>
      obtain rfl := Option.some.inj h
      refine ⟨[], (List.append_nil _).symm, ?_⟩
      intro fuel hfuel
      obtain ⟨fuel, rfl⟩ : ∃ n, fuel = n + 1 := ⟨fuel - 1, by omega⟩
      refine iff_of_true (readTarFrom_trailer d.out fuel) ?_
      exact fun e he => nomatch he
  | cons e items ih =>
      rw [List.foldlM_cons, Option.bind_eq_bind, Option.bind_eq_some_iff] at h
      obtain ⟨d₁, hd₁, hd'⟩ := h
      obtain ⟨bytes, hout₁, htracks₁, hbytes, hread⟩ :=
        addToTarArchive_spec htracks hmod (hnamed e List.mem_cons_self) hd₁
      have hmod₁ : d₁.out.length % 512 = 0 := by
        rw [hout₁, List.length_append]
        omega
      obtain ⟨tail, hout', htail⟩ :=
        ih htracks₁ hmod₁ (fun e he => hnamed e (List.mem_cons_of_mem _ he)) hd'
      refine ⟨bytes ++ tail, ?_, ?_⟩
      · rw [hout', hout₁, List.append_assoc]
      · intro fuel hfuel
        rw [List.length_append] at hfuel
        obtain ⟨fuel', hfuel', hitem⟩ := hread (tail ++ trailerBlocks) fuel (items.map Prod.snd)
          (by omega)
        have hrest := htail fuel' (by omega)
        rw [hout₁, List.append_assoc, List.length_append] at hrest
        rw [List.append_assoc, List.map_cons, hitem, hrest]
        exact (List.forall_mem_cons (p := fun e : Nat × Item => e.2.FitsTar)).symm

/-- An archive that was written is read back as its items if and only if every number of every item
has fewer octal digits than its field has bytes. -/
theorem readTar_writeTar {items : List (Nat × Item)} {bytes : Bytes}
    (hnamed : ∀ e ∈ items, e.2.Named) (h : writeTar items = some bytes) :
    readTar bytes = some (items.map Prod.snd) ↔ ∀ e ∈ items, e.2.FitsTar := by
  obtain ⟨d', hd', rfl⟩ := Option.map_eq_some_iff.mp h
  have htracks : createTarArchive.Tracks := rfl
  obtain ⟨tail, hout, htail⟩ := readTarFrom_items htracks rfl hnamed hd'
  have hstream : (tarTrailer d').out = tail ++ trailerBlocks := by
    rw [tarTrailer, hout, List.append_assoc]
    rfl
  unfold readTar
  rw [hstream]
  refine htail _ ?_
  rw [List.length_append, trailerBlocks, List.length_append, List.length_replicate]
  omega

/-- A directory with a name of 120 bytes, a file and a symbolic link. -/
def sampleTarItems : List (Nat × Item) :=
  [(1, { name := List.replicate 120 100, mode := 0o755, uid := 0, gid := 0, content := .dir }),
   (2, { name := [102], mode := 0o644, uid := 1, gid := 2, content := .file [7, 0, 7] }),
   (3, { name := [108], mode := 0o777, uid := 0, gid := 0, content := .symlink [102] })]

theorem readTar_writeTar_sample :
    ∃ bytes, writeTar sampleTarItems = some bytes ∧
      readTar bytes = some (sampleTarItems.map Prod.snd) := by
  have hwritten : (writeTar sampleTarItems).isSome := by decide +kernel
  obtain ⟨bytes, hbytes⟩ := Option.isSome_iff_exists.mp hwritten
  refine ⟨bytes, hbytes, (readTar_writeTar ?_ hbytes).mpr ?_⟩
  · intro e he
    simp only [sampleTarItems, List.mem_cons, List.not_mem_nil, or_false] at he
    rcases he with rfl | rfl | rfl <;> exact ⟨by decide, by decide⟩
  · intro e he
    simp only [sampleTarItems, List.mem_cons, List.not_mem_nil, or_false] at he
    rcases he with rfl | rfl | rfl <;>
      exact ⟨by decide, by decide, by decide, by decide, by decide, by decide⟩

/-- A file whose owner has eight octal digits. -/
def largeUid : Item := { name := [102], mode := 0o644, uid := 2097157, gid := 0, content := .file [] }

/-- The owner 2097157, in octal digits 10000005, is written without an error and read as 5. -/
theorem readTar_writeTar_largeUid :
    ∃ bytes, writeTar [(1, largeUid)] = some bytes ∧ readTar bytes = some [{ largeUid with uid := 5 }] ∧
      readTar bytes ≠ some [largeUid] := by
  have hread : (writeTar [(1, largeUid)]).bind readTar = some [{ largeUid with uid := 5 }] := by
    decide +kernel
  obtain ⟨bytes, hbytes, hitems⟩ := Option.bind_eq_some_iff.mp hread
  refine ⟨bytes, hbytes, hitems, ?_⟩
  rw [hitems]
  decide

end Archive
end Mkfli4l
