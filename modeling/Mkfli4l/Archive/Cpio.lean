import Mkfli4l.Archive.Items

/-!
# Archives in the cpio format

The backend writes the `newc` variant of the format: a header of 110 bytes with hexadecimal fields,
the name and the data, each of them padded to a multiple of four bytes counted from the start of
the archive.  The writers pad in different places: all of them pad in front of a header, only some
behind the name or the data.  Reading the archive by the rules of the format gives back what was
written.
-/

namespace Mkfli4l
namespace Archive

open Lib

/-! ### The writer -/

structure CpioData extends Output where
  ino : UInt32

def cpioIfChr : UInt32 := 0o020000
def cpioIfDir : UInt32 := 0o040000
def cpioIfBlk : UInt32 := 0o060000
def cpioIfReg : UInt32 := 0o100000
def cpioIfLnk : UInt32 := 0o120000

/-- `CPIO_MAGIC`, the text `070701`. -/
def cpioMagic : Bytes := [48, 55, 48, 55, 48, 49]

/-- The name of the entry that ends an archive, `TRAILER!!!`. -/
def trailerName : Bytes := [84, 82, 65, 73, 76, 69, 82, 33, 33, 33]

/-- The fields of a header in their order. -/
structure CpioHeader where
  ino : Nat
  mode : Nat
  uid : Nat
  gid : Nat
  nlink : Nat
  mtime : Nat
  filesize : Nat
  devmajor : Nat
  devminor : Nat
  rdevmajor : Nat
  rdevminor : Nat
  namesize : Nat
  check : Nat
deriving DecidableEq, Repr

def CpioHeader.fields (h : CpioHeader) : List Nat :=
  [h.ino, h.mode, h.uid, h.gid, h.nlink, h.mtime, h.filesize, h.devmajor, h.devminor,
    h.rdevmajor, h.rdevminor, h.namesize, h.check]

/-- `snprintf` with `CPIO_HDR_FORMAT`, of which 110 bytes are written. -/
def CpioHeader.raw (h : CpioHeader) : Bytes :=
  (cpioMagic ++ h.fields.flatMap (printPadded 16 8)).take 110

def pushString (d : CpioData) (name : Bytes) : CpioData :=
  { d with toOutput := d.write (name ++ [0]) }

/-- `push_pad`; three rounds are enough. -/
def pushPad (d : CpioData) : CpioData := { d with toOutput := d.padLoop 3 3 }

def pushPaddedString (d : CpioData) (name : Bytes) : CpioData := pushPad (pushString d name)

def pushHdr (d : CpioData) (hdr : CpioHeader) : CpioData :=
  let d := pushPad d
  { d with toOutput := d.write hdr.raw }

/-- The header of an item; the fields in which the four writers differ are arguments. -/
def itemHeader (d : CpioData) (mtime : Nat) (e : Item) (type : UInt32)
    (nlink filesize rdevmajor rdevminor : Nat) : CpioHeader :=
  { ino := d.ino.toNat
    mode := (type ||| UInt32.ofNat e.mode).toNat
    uid := e.uid % 4294967296
    gid := e.gid % 4294967296
    nlink
    mtime
    filesize := filesize % 4294967296
    devmajor := 3
    devminor := 1
    rdevmajor := rdevmajor % 4294967296
    rdevminor := rdevminor % 4294967296
    namesize := (e.name.length + 1) % 4294967296
    check := 0 }

/-- The next inode number. -/
def nextIno (d : CpioData) : CpioData := { d with ino := d.ino + 1 }

def cpioMkslink (d : CpioData) (mtime : Nat) (e : Item) (target : Bytes) : CpioData :=
  let hdr := itemHeader d mtime e cpioIfLnk 1 (target.length + 1) 0 0
  pushString (pushPaddedString (pushHdr (nextIno d) hdr) e.name) target

def cpioMkdir (d : CpioData) (mtime : Nat) (e : Item) : CpioData :=
  let hdr := itemHeader d mtime e cpioIfDir 2 0 0 0
  pushString (pushHdr (nextIno d) hdr) e.name

def cpioMknod (d : CpioData) (mtime : Nat) (e : Item) (devtype : DevType) (major minor : Nat) :
    CpioData :=
  let type := if devtype = .block then cpioIfBlk else cpioIfChr
  let hdr := itemHeader d mtime e type 1 0 major minor
  pushString (pushHdr (nextIno d) hdr) e.name

def cpioMkfile (d : CpioData) (mtime : Nat) (e : Item) (data : Bytes) : CpioData :=
  let hdr := itemHeader d mtime e cpioIfReg 1 data.length 0 0
  let d := pushPaddedString (pushHdr (nextIno d) hdr) e.name
  pushPad { d with toOutput := d.write data }

def cpioTrailer (d : CpioData) : CpioData :=
  let hdr : CpioHeader :=
    { ino := 0, mode := 0, uid := 0, gid := 0, nlink := 1, mtime := 0, filesize := 0, devmajor := 0
      devminor := 0, rdevmajor := 0, rdevminor := 0, namesize := 11, check := 0 }
  pushPaddedString (pushHdr d hdr) trailerName

def createCpioArchive : CpioData := { out := [], offset := 0, ino := 721 }

/-- `add_file_to_cpio_archive` and `add_non_file_to_cpio_archive`; `mtime` is the time of the
call. -/
def addToCpioArchive (d : CpioData) (mtime : Nat) (e : Item) : CpioData :=
  match e.content with
  | .file data => cpioMkfile d mtime e data
  | .dir => cpioMkdir d mtime e
  | .node devtype major minor => cpioMknod d mtime e devtype major minor
  | .symlink linktarget => cpioMkslink d mtime e linktarget

/-- The archive with the given items, each with the time at which it is added. -/
def writeCpio (items : List (Nat × Item)) : Bytes :=
  (cpioTrailer (items.foldl (fun d e => addToCpioArchive d e.1 e.2) createCpioArchive)).out

/-! ### The reader -/

/-- Fields of eight hexadecimal digits. -/
def readFields : Nat → Bytes → Option (List Nat)
  | 0, _ => some []
  | n + 1, bytes => do
      let v ← if (bytes.take 8).length = 8 then readDigits 16 (bytes.take 8) else none
      let vs ← readFields n (bytes.drop 8)
      return v :: vs

/-- The bits of the mode that hold the file type. -/
def typeMask : UInt32 := 0o170000

/-- The item that a header, a name and data stand for.  The data of a symbolic link is its target,
as a C string. -/
def decodeItem (name : Bytes) (mode : UInt32) (uid gid rdevmajor rdevminor : Nat) (data : Bytes) :
    Option Item :=
  let item (content : Content) : Item :=
    { name, mode := (mode &&& ~~~typeMask).toNat, uid, gid, content }
  let type := mode &&& typeMask
  if type = cpioIfReg then some (item (.file data))
  else if type = cpioIfDir then some (item .dir)
  else if type = cpioIfBlk then some (item (.node .block rdevmajor rdevminor))
  else if type = cpioIfChr then some (item (.node .char rdevmajor rdevminor))
  else if type = cpioIfLnk then some (item (.symlink (cString data)))
  else none

/-- A member of an archive in the `newc` format. -/
inductive CpioMember
  | trailer
  | item (e : Item) (next : Nat)

/-- The member at a position, and the position of the next one. -/
def readMember (stream : Bytes) (pos : Nat) : Option CpioMember :=
  if slice stream pos 6 ≠ cpioMagic then none
  else
    match readFields 13 (slice stream (pos + 6) 104) with
    | some [_, mode, uid, gid, _, _, filesize, _, _, rdevmajor, rdevminor, namesize, _] =>
        let name := slice stream (pos + 110) namesize
        let dataPos := align 4 (pos + 110 + namesize)
        let data := slice stream dataPos filesize
        if name.length ≠ namesize ∨ name.getLast? ≠ some 0 ∨ data.length ≠ filesize then none
        else if name.dropLast = trailerName then some .trailer
        else
          (decodeItem name.dropLast (UInt32.ofNat mode) uid gid rdevmajor rdevminor data).map
            fun e => .item e (align 4 (dataPos + filesize))
    | _ => none

/-- All items from a position on, up to the trailer. -/
def readMembers (stream : Bytes) : Nat → Nat → Option (List Item)
  | 0, _ => none
  | fuel + 1, pos =>
      match readMember stream pos with
      | none => none
      | some .trailer => some []
      | some (.item e next) => (readMembers stream fuel next).map (e :: ·)

/-- The items of an archive.  Every member takes more than a byte. -/
def readCpio (stream : Bytes) : Option (List Item) := readMembers stream stream.length 0

/-! ### What is written -/

variable {d : CpioData} {hdr : CpioHeader} {e : Item}

theorem pushPad_spec (h : d.Tracks) : (pushPad d).out = padded 4 d.out ∧ (pushPad d).Tracks :=
  Output.padLoop_spec (b := 2) h rfl (by decide) (by omega)

/-- The fields of a header fit their places. -/
def CpioHeader.Fits (h : CpioHeader) : Prop := ∀ v ∈ h.fields, v < 16 ^ 8

theorem length_flatMap_printPadded {vs : List Nat} (h : ∀ v ∈ vs, v < 16 ^ 8) :
    (vs.flatMap (printPadded 16 8)).length = 8 * vs.length := by
  induction vs with
  | nil => rfl
  | cons v vs ih =>
      rw [List.flatMap_cons, List.length_append,
        length_printPadded (by decide) (h v List.mem_cons_self),
        ih fun v hv => h v (List.mem_cons_of_mem _ hv), List.length_cons]
      omega

theorem CpioHeader.raw_eq {h : CpioHeader} (hfits : h.Fits) :
    h.raw = cpioMagic ++ h.fields.flatMap (printPadded 16 8) := by
  apply List.take_of_length_le
  rw [List.length_append, length_flatMap_printPadded hfits]
  exact le_of_eq rfl

theorem CpioHeader.length_raw {h : CpioHeader} (hfits : h.Fits) : h.raw.length = 110 := by
  rw [h.raw_eq hfits, List.length_append, length_flatMap_printPadded hfits]
  rfl

theorem pushHdr_spec (h : d.Tracks) (hdr : CpioHeader) :
    (pushHdr d hdr).out = padded 4 d.out ++ hdr.raw ∧ (pushHdr d hdr).Tracks := by
  obtain ⟨hout, htracks⟩ := pushPad_spec h
  exact ⟨congrArg (· ++ hdr.raw) hout, htracks.write hdr.raw⟩

/-- A member of an archive: header, name and data, each of the last two padded. -/
def memberBytes (hdr : CpioHeader) (name data : Bytes) : Bytes :=
  padded 4 (padded 4 (hdr.raw ++ (name ++ [0])) ++ data)

/-- The data of an item in the archive. -/
def Item.data (e : Item) : Bytes :=
  match e.content with
  | .file data => data
  | .symlink linktarget => linktarget ++ [0]
  | _ => []

theorem memberBytes_nil (hdr : CpioHeader) (name : Bytes) :
    memberBytes hdr name [] = padded 4 (hdr.raw ++ (name ++ [0])) := by
  unfold memberBytes
  rw [List.append_nil, padded_of_mod (length_padded_mod (by decide) _)]

/-- The header of an item. -/
def Item.cpioHeader (e : Item) (d : CpioData) (mtime : Nat) : CpioHeader :=
  match e.content with
  | .file data => itemHeader d mtime e cpioIfReg 1 data.length 0 0
  | .dir => itemHeader d mtime e cpioIfDir 2 0 0 0
  | .node .block major minor => itemHeader d mtime e cpioIfBlk 1 0 major minor
  | .node .char major minor => itemHeader d mtime e cpioIfChr 1 0 major minor
  | .symlink linktarget => itemHeader d mtime e cpioIfLnk 1 (linktarget.length + 1) 0 0

theorem itemHeader_fits (d : CpioData) {mtime : Nat} (e : Item) (type : UInt32)
    {nlink : Nat} (filesize rdevmajor rdevminor : Nat) (hmtime : mtime < 16 ^ 8)
    (hnlink : nlink < 16 ^ 8) :
    (itemHeader d mtime e type nlink filesize rdevmajor rdevminor).Fits := by
  have hword (x : UInt32) : x.toNat < 16 ^ 8 := x.toNat_lt
  have hmod (n : Nat) : n % 4294967296 < 16 ^ 8 := Nat.mod_lt n (by decide)
  intro v hv
  simp only [CpioHeader.fields, itemHeader, List.mem_cons, List.not_mem_nil, or_false] at hv
  rcases hv with rfl | rfl | rfl | rfl | rfl | rfl | rfl | rfl | rfl | rfl | rfl | rfl | rfl
  all_goals first | exact hword _ | exact hmod _ | assumption | decide

theorem Item.cpioHeader_fits (e : Item) (d : CpioData) {mtime : Nat} (hmtime : mtime < 16 ^ 8) :
    (e.cpioHeader d mtime).Fits := by
  unfold Item.cpioHeader
  split <;> exact itemHeader_fits d e _ _ _ _ hmtime (by decide)

theorem pushHdr_pushString (h : d.Tracks) (hdr : CpioHeader) (name : Bytes) :
    padded 4 (pushString (pushHdr d hdr) name).out = padded 4 d.out ++ memberBytes hdr name [] ∧
      (pushString (pushHdr d hdr) name).Tracks := by
  obtain ⟨hhdr, htracks⟩ := pushHdr_spec h hdr
  refine ⟨?_, htracks.write (name ++ [0])⟩
  have hname : (pushString (pushHdr d hdr) name).out = (pushHdr d hdr).out ++ (name ++ [0]) := rfl
  rw [hname, hhdr, List.append_assoc, padded_append (length_padded_mod (by decide) _),
    memberBytes_nil]

theorem pushHdr_pushPaddedString (h : d.Tracks) (hdr : CpioHeader) (name : Bytes) :
    (pushPaddedString (pushHdr d hdr) name).out =
        padded 4 d.out ++ padded 4 (hdr.raw ++ (name ++ [0])) ∧
      (pushPaddedString (pushHdr d hdr) name).Tracks := by
  obtain ⟨hhdr, htracks⟩ := pushHdr_spec h hdr
  have htracks' : (pushString (pushHdr d hdr) name).Tracks := htracks.write (name ++ [0])
  obtain ⟨hpad, htracks''⟩ := pushPad_spec htracks'
  have hname : (pushString (pushHdr d hdr) name).out = (pushHdr d hdr).out ++ (name ++ [0]) := rfl
  refine ⟨?_, htracks''⟩
  rw [pushPaddedString, hpad, hname, hhdr, List.append_assoc,
    padded_append (length_padded_mod (by decide) _)]

theorem padded_member (w : Bytes) (hdr : CpioHeader) (name data : Bytes) :
    padded 4 (padded 4 w ++ padded 4 (hdr.raw ++ (name ++ [0])) ++ data) =
      padded 4 w ++ memberBytes hdr name data := by
  rw [List.append_assoc, padded_append (length_padded_mod (by decide) _), memberBytes]

theorem addToCpioArchive_spec (h : d.Tracks) (mtime : Nat) (e : Item) :
    padded 4 (addToCpioArchive d mtime e).out =
        padded 4 d.out ++ memberBytes (e.cpioHeader d mtime) e.name e.data ∧
      (addToCpioArchive d mtime e).Tracks := by
  have hnext : (nextIno d).Tracks := h
  unfold addToCpioArchive Item.data Item.cpioHeader
  cases hcontent : e.content with
  | dir => exact pushHdr_pushString hnext _ e.name
  | node devtype major minor =>
      cases devtype with
      | block => exact pushHdr_pushString hnext _ e.name
      | char => exact pushHdr_pushString hnext _ e.name
  | file data =>
      obtain ⟨hout, htracks⟩ := pushHdr_pushPaddedString hnext
        (itemHeader d mtime e cpioIfReg 1 data.length 0 0) e.name
      obtain ⟨hpad, htracks'⟩ := pushPad_spec
        (d := { pushPaddedString (pushHdr (nextIno d) _) e.name with
          toOutput := Output.write _ data }) (htracks.write data)
      refine ⟨?_, htracks'⟩
      dsimp only [cpioMkfile]
      rw [hpad, padded_of_mod (length_padded_mod (by decide) _)]
      dsimp only [Output.write]
      rw [hout]
      exact padded_member _ _ _ _
  | symlink linktarget =>
      obtain ⟨hout, htracks⟩ := pushHdr_pushPaddedString hnext
        (itemHeader d mtime e cpioIfLnk 1 (linktarget.length + 1) 0 0) e.name
      refine ⟨?_, htracks.write (linktarget ++ [0])⟩
      dsimp only [cpioMkslink, pushString, Output.write]
      rw [hout]
      exact padded_member _ _ _ _

/-! ### What is read -/

theorem readFields_flatMap {vs : List Nat} (h : ∀ v ∈ vs, v < 16 ^ 8) :
    readFields vs.length (vs.flatMap (printPadded 16 8)) = some vs := by
  induction vs with
  | nil => rfl
  | cons v vs ih =>
      have hlen := length_printPadded (by decide) (h v List.mem_cons_self)
      have htake : (printPadded 16 8 v ++ vs.flatMap (printPadded 16 8)).take 8 =
          printPadded 16 8 v := List.take_left' hlen
      have hdrop : (printPadded 16 8 v ++ vs.flatMap (printPadded 16 8)).drop 8 =
          vs.flatMap (printPadded 16 8) := List.drop_left' hlen
      rw [List.flatMap_cons, List.length_cons, readFields, htake, hdrop, if_pos hlen,
        readDigits_printPadded (by decide) (by decide),
        ih fun v hv => h v (List.mem_cons_of_mem _ hv)]
      rfl

/-- What is read behind a header. -/
def readBody (stream : Bytes) (pos : Nat) (hdr : CpioHeader) : Option CpioMember :=
  let name := slice stream (pos + 110) hdr.namesize
  let dataPos := align 4 (pos + 110 + hdr.namesize)
  let data := slice stream dataPos hdr.filesize
  if name.length ≠ hdr.namesize ∨ name.getLast? ≠ some 0 ∨ data.length ≠ hdr.filesize then none
  else if name.dropLast = trailerName then some .trailer
  else
    (decodeItem name.dropLast (UInt32.ofNat hdr.mode) hdr.uid hdr.gid hdr.rdevmajor hdr.rdevminor
      data).map fun e => .item e (align 4 (dataPos + hdr.filesize))

theorem readMember_raw {pre rest : Bytes} (hfits : hdr.Fits) :
    readMember (pre ++ (hdr.raw ++ rest)) pre.length =
      readBody (pre ++ (hdr.raw ++ rest)) pre.length hdr := by
  have hraw := CpioHeader.raw_eq hfits
  have hfieldsLen : (hdr.fields.flatMap (printPadded 16 8)).length = 104 :=
    length_flatMap_printPadded hfits
  have hmagic : slice (pre ++ (hdr.raw ++ rest)) pre.length 6 = cpioMagic := by
    rw [hraw, List.append_assoc]
    exact slice_append rfl rfl
  have hfields : readFields 13 (slice (pre ++ (hdr.raw ++ rest)) (pre.length + 6) 104) =
      some hdr.fields := by
    rw [hraw, List.append_assoc, ← List.append_assoc,
      slice_append (by simp [cpioMagic]) hfieldsLen.symm]
    exact readFields_flatMap hfits
  unfold readMember
  rw [if_neg (not_not_intro hmagic), hfields]
  rfl

theorem readMember_memberBytes {pre name data : Bytes} (post : Bytes)
    (hpre : pre.length % 4 = 0) (hfits : hdr.Fits) (hname : hdr.namesize = name.length + 1)
    (hdata : hdr.filesize = data.length) :
    readMember (pre ++ (memberBytes hdr name data ++ post)) pre.length =
      if name = trailerName then some .trailer
      else (decodeItem name (UInt32.ofNat hdr.mode) hdr.uid hdr.gid hdr.rdevmajor hdr.rdevminor
        data).map fun e => .item e (pre.length + (memberBytes hdr name data).length) := by
  have hrawLen := CpioHeader.length_raw hfits
  generalize hstream : pre ++ (memberBytes hdr name data ++ post) = stream
  -- the pieces of the stream, each behind everything in front of it
  obtain ⟨rest, hrest⟩ : ∃ rest, stream = pre ++ (hdr.raw ++ ((name ++ [0]) ++ rest)) := by
    rw [← hstream, memberBytes, padded, padded]
    simp only [List.append_assoc]
    exact ⟨_, rfl⟩
  have hnamePos : stream = (pre ++ hdr.raw) ++ ((name ++ [0]) ++ rest) := by
    rw [hrest]
    simp only [List.append_assoc]
  have hdataPos : stream =
      (pre ++ padded 4 (hdr.raw ++ (name ++ [0]))) ++
        (data ++ (zeros 4 (padded 4 (hdr.raw ++ (name ++ [0])) ++ data).length ++ post)) := by
    rw [← hstream, memberBytes]
    conv_lhs => rw [padded]
    simp only [List.append_assoc]
  have hdataStart : align 4 (pre.length + 110 + hdr.namesize) =
      (pre ++ padded 4 (hdr.raw ++ (name ++ [0]))).length := by
    rw [Nat.add_assoc, align_add hpre, List.length_append, length_padded, hname]
    simp [hrawLen]
  have hend : align 4 ((pre ++ padded 4 (hdr.raw ++ (name ++ [0]))).length + hdr.filesize) =
      pre.length + (memberBytes hdr name data).length := by
    rw [List.length_append, Nat.add_assoc, align_add hpre, hdata, memberBytes]
    simp only [length_padded, List.length_append]
  have hsliceName : slice stream (pre.length + 110) hdr.namesize = name ++ [0] := by
    rw [hnamePos]
    exact slice_append (by simp [hrawLen]) (by simp [hname])
  have hsliceData : slice stream (align 4 (pre.length + 110 + hdr.namesize)) hdr.filesize =
      data := by
    rw [hdataStart, hdataPos]
    exact slice_append rfl hdata
  have hread : readMember stream pre.length = readBody stream pre.length hdr := by
    rw [hrest]
    exact readMember_raw hfits
  rw [hread]
  unfold readBody
  dsimp only
  rw [hsliceName, hsliceData, hdataStart, hend, if_neg (by simp [hname, hdata]),
    List.dropLast_concat]

/-! ### The round trip -/

theorem or_and_mask {T x M : UInt32} (hT : T &&& M = T) (hx : x &&& M = 0) :
    (T ||| x) &&& M = T := by
  have hdistrib : (T ||| x) &&& M = (T &&& M) ||| (x &&& M) := by
    apply UInt32.eq_of_toBitVec_eq
    simp only [UInt32.toBitVec_and, UInt32.toBitVec_or]
    exact BitVec.and_or_distrib_right
  rw [hdistrib, hT, hx, UInt32.or_zero]

theorem or_and_not_mask {T x M : UInt32} (hT : T &&& ~~~M = 0) (hx : x &&& M = 0) :
    (T ||| x) &&& ~~~M = x := by
  have hdistrib : (T ||| x) &&& ~~~M = (T &&& ~~~M) ||| (x &&& ~~~M) := by
    apply UInt32.eq_of_toBitVec_eq
    simp only [UInt32.toBitVec_and, UInt32.toBitVec_or]
    exact BitVec.and_or_distrib_right
  have hsplit : (x &&& M) ||| (x &&& ~~~M) = x := by
    apply UInt32.eq_of_toBitVec_eq
    simp only [UInt32.toBitVec_and, UInt32.toBitVec_or, UInt32.toBitVec_not]
    ext i hi
    simp only [BitVec.getElem_or, BitVec.getElem_and, BitVec.getElem_not]
    cases x.toBitVec[i] <;> simp
  rw [hdistrib, hT, UInt32.zero_or]
  rwa [hx, UInt32.zero_or] at hsplit

/-- What the format can hold of the part of an item that depends on its type. -/
def Content.FitsCpio : Content → Prop
  | .file data => data.length < 4294967296
  | .dir => True
  | .node _ major minor => major < 4294967296 ∧ minor < 4294967296
  | .symlink linktarget => 0 ∉ linktarget ∧ linktarget.length + 1 < 4294967296

/-- An item that the format can hold: the mode leaves the bits of the file type free, and the
lengths of the strings with their zero byte fit into the fields for them. -/
structure Item.FitsCpio (e : Item) : Prop where
  name : 0 ∉ e.name
  not_trailer : e.name ≠ trailerName
  namesize : e.name.length + 1 < 4294967296
  mode : e.mode < 4294967296
  mode_type : UInt32.ofNat e.mode &&& typeMask = 0
  uid : e.uid < 4294967296
  gid : e.gid < 4294967296
  content : e.content.FitsCpio

theorem decodeItem_or {type : UInt32} (h : e.FitsCpio) (htype : type &&& typeMask = type)
    (hrest : type &&& ~~~typeMask = 0) (rdevmajor rdevminor : Nat) (data : Bytes) :
    decodeItem e.name (UInt32.ofNat (type ||| UInt32.ofNat e.mode).toNat) (e.uid % 4294967296)
        (e.gid % 4294967296) rdevmajor rdevminor data =
      if type = cpioIfReg then some { e with content := .file data }
      else if type = cpioIfDir then some { e with content := .dir }
      else if type = cpioIfBlk then some { e with content := .node .block rdevmajor rdevminor }
      else if type = cpioIfChr then some { e with content := .node .char rdevmajor rdevminor }
      else if type = cpioIfLnk then some { e with content := .symlink (cString data) }
      else none := by
  have hmode : (UInt32.ofNat e.mode).toNat = e.mode := by
    rw [UInt32.toNat_ofNat', Nat.mod_eq_of_lt h.mode]
  unfold decodeItem
  rw [UInt32.ofNat_toNat, or_and_mask htype h.mode_type, or_and_not_mask hrest h.mode_type, hmode,
    Nat.mod_eq_of_lt h.uid, Nat.mod_eq_of_lt h.gid]

theorem decodeItem_cpioHeader (h : e.FitsCpio) (d : CpioData) (mtime : Nat) :
    decodeItem e.name (UInt32.ofNat (e.cpioHeader d mtime).mode) (e.cpioHeader d mtime).uid
        (e.cpioHeader d mtime).gid (e.cpioHeader d mtime).rdevmajor
        (e.cpioHeader d mtime).rdevminor e.data = some e := by
  have hcontent := h.content
  unfold Item.cpioHeader Item.data
  cases hkind : e.content with
  | file data =>
      exact (decodeItem_or h (by decide) (by decide) _ _ _).trans (by rw [← hkind]; rfl)
  | dir =>
      exact (decodeItem_or h (by decide) (by decide) _ _ _).trans (by rw [← hkind]; rfl)
  | node devtype major minor =>
      rw [hkind] at hcontent
      cases devtype with
      | block =>
          refine (decodeItem_or h (by decide) (by decide) (major % 4294967296)
            (minor % 4294967296) []).trans ?_
          rw [Nat.mod_eq_of_lt hcontent.1, Nat.mod_eq_of_lt hcontent.2, ← hkind]
          rfl
      | char =>
          refine (decodeItem_or h (by decide) (by decide) (major % 4294967296)
            (minor % 4294967296) []).trans ?_
          rw [Nat.mod_eq_of_lt hcontent.1, Nat.mod_eq_of_lt hcontent.2, ← hkind]
          rfl
  | symlink linktarget =>
      rw [hkind] at hcontent
      refine (decodeItem_or h (by decide) (by decide) 0 0 (linktarget ++ [0])).trans ?_
      rw [cString_append_zero hcontent.1, ← hkind]
      rfl

theorem Item.cpioHeader_namesize (h : e.FitsCpio) (d : CpioData) (mtime : Nat) :
    (e.cpioHeader d mtime).namesize = e.name.length + 1 := by
  unfold Item.cpioHeader
  split <;> exact Nat.mod_eq_of_lt h.namesize

theorem Item.cpioHeader_filesize (h : e.FitsCpio) (d : CpioData) (mtime : Nat) :
    (e.cpioHeader d mtime).filesize = e.data.length := by
  have hcontent := h.content
  unfold Item.cpioHeader Item.data
  cases hkind : e.content with
  | file data =>
      rw [hkind] at hcontent
      exact Nat.mod_eq_of_lt hcontent
  | dir => rfl
  | node devtype major minor => cases devtype <;> rfl
  | symlink linktarget =>
      rw [hkind] at hcontent
      rw [List.length_append]
      exact Nat.mod_eq_of_lt hcontent.2

/-- The header of the trailer. -/
def trailerHeader : CpioHeader :=
  { ino := 0, mode := 0, uid := 0, gid := 0, nlink := 1, mtime := 0, filesize := 0, devmajor := 0
    devminor := 0, rdevmajor := 0, rdevminor := 0, namesize := 11, check := 0 }

theorem trailerHeader_fits : trailerHeader.Fits := by
  unfold CpioHeader.Fits
  decide

theorem cpioTrailer_out (h : d.Tracks) :
    (cpioTrailer d).out = padded 4 d.out ++ memberBytes trailerHeader trailerName [] := by
  rw [memberBytes_nil]
  exact (pushHdr_pushPaddedString h trailerHeader trailerName).1

theorem memberBytes_length_pos (hfits : hdr.Fits) (name data : Bytes) :
    0 < (memberBytes hdr name data).length := by
  have hraw := CpioHeader.length_raw hfits
  unfold memberBytes padded
  simp only [List.length_append, hraw]
  omega

theorem readMembers_written {items : List (Nat × Item)} (h : d.Tracks)
    (hitems : ∀ e ∈ items, e.1 < 4294967296 ∧ e.2.FitsCpio) :
    ∃ tail, (cpioTrailer (items.foldl (fun d e => addToCpioArchive d e.1 e.2) d)).out =
        padded 4 d.out ++ tail ∧ items.length < tail.length ∧
      ∀ fuel > items.length, readMembers (padded 4 d.out ++ tail) fuel (padded 4 d.out).length =
        some (items.map Prod.snd) := by
  have hpre := length_padded_mod (k := 4) (by decide) d.out
  induction items generalizing d with
  | nil =>
      refine ⟨_, cpioTrailer_out h, ?_, ?_⟩
      · exact memberBytes_length_pos trailerHeader_fits trailerName []
      · intro fuel hfuel
        obtain ⟨fuel, rfl⟩ := Nat.exists_eq_succ_of_ne_zero (Nat.ne_of_gt hfuel)
        have hread := readMember_memberBytes [] hpre trailerHeader_fits
          (rfl : _ = trailerName.length + 1) (rfl : _ = ([] : Bytes).length)
        rw [List.append_nil, if_pos rfl] at hread
        rw [readMembers, hread]
        rfl
  | cons e items ih =>
      obtain ⟨hmtime, hfit⟩ := hitems e List.mem_cons_self
      obtain ⟨hout, htracks⟩ := addToCpioArchive_spec h e.1 e.2
      obtain ⟨tail, hwritten, hlen, hread⟩ := ih htracks
        (fun e he => hitems e (List.mem_cons_of_mem _ he)) (length_padded_mod (by decide) _)
      rw [hout, List.append_assoc] at hwritten hread
      have hfits := e.2.cpioHeader_fits d hmtime
      refine ⟨_, hwritten, ?_, ?_⟩
      · have hbound := memberBytes_length_pos hfits e.2.name e.2.data
        rw [List.length_append, List.length_cons]
        omega
      · intro fuel hfuel
        obtain ⟨fuel, rfl⟩ :=
          Nat.exists_eq_succ_of_ne_zero (Nat.ne_of_gt (Nat.zero_lt_of_lt hfuel))
        rw [readMembers, readMember_memberBytes tail hpre hfits (Item.cpioHeader_namesize hfit d e.1)
          (Item.cpioHeader_filesize hfit d e.1), if_neg hfit.not_trailer,
          decodeItem_cpioHeader hfit d e.1]
        have hnext := hread fuel (by simpa using hfuel)
        rw [List.length_append] at hnext
        simp only [Option.map_some]
        rw [hnext]
        rfl

/-- Reading an archive gives back the items that were written. -/
theorem readCpio_writeCpio (items : List (Nat × Item))
    (h : ∀ e ∈ items, e.1 < 4294967296 ∧ e.2.FitsCpio) :
    readCpio (writeCpio items) = some (items.map Prod.snd) := by
  have htracks : createCpioArchive.Tracks := rfl
  obtain ⟨tail, hwritten, hlen, hread⟩ := readMembers_written htracks h
  have hempty : padded 4 createCpioArchive.out = [] := rfl
  rw [hempty, List.nil_append] at hwritten hread
  unfold readCpio writeCpio
  rw [hwritten]
  exact hread tail.length hlen

/-- A directory, a file, a device node and a symbolic link. -/
def sampleItems : List (Nat × Item) :=
  [(1, { name := [100], mode := 0o755, uid := 0, gid := 0, content := .dir }),
   (2, { name := [100, 47, 102], mode := 0o644, uid := 1, gid := 2, content := .file [7, 0, 7] }),
   (3, { name := [110], mode := 0o600, uid := 0, gid := 0, content := .node .block 8 1 }),
   (4, { name := [108], mode := 0o777, uid := 0, gid := 0, content := .symlink [100] })]

theorem readCpio_writeCpio_sample :
    readCpio (writeCpio sampleItems) = some (sampleItems.map Prod.snd) := by
  refine readCpio_writeCpio sampleItems fun e he => ?_
  simp only [sampleItems, List.mem_cons, List.not_mem_nil, or_false] at he
  rcases he with rfl | rfl | rfl | rfl
  · exact ⟨by decide, ⟨by decide, by decide, by decide, by decide, by decide, by decide, by decide,
      trivial⟩⟩
  · exact ⟨by decide, ⟨by decide, by decide, by decide, by decide, by decide, by decide, by decide,
      show [7, 0, 7].length < 4294967296 by decide⟩⟩
  · exact ⟨by decide, ⟨by decide, by decide, by decide, by decide, by decide, by decide, by decide,
      show 8 < 4294967296 ∧ 1 < 4294967296 by decide⟩⟩
  · exact ⟨by decide, ⟨by decide, by decide, by decide, by decide, by decide, by decide, by decide,
      show 0 ∉ [(100 : UInt8)] ∧ [(100 : UInt8)].length + 1 < 4294967296 by decide⟩⟩

/-! ### Where the fields are too small -/

theorem writeCpio_singleton (mtime : Nat) (e : Item) :
    ∃ rest, writeCpio [(mtime, e)] = (e.cpioHeader createCpioArchive mtime).raw ++ rest := by
  have htracks : createCpioArchive.Tracks := rfl
  obtain ⟨hout, htracks'⟩ := addToCpioArchive_spec htracks mtime e
  unfold writeCpio
  rw [List.foldl_cons, List.foldl_nil, cpioTrailer_out htracks', hout]
  have hempty : padded 4 createCpioArchive.out = [] := rfl
  rw [hempty, List.nil_append, memberBytes, padded, padded]
  simp only [List.append_assoc]
  exact ⟨_, rfl⟩

theorem readCpio_ne {stream : Bytes}
    (h : ∀ next, readMember stream 0 ≠ some (.item e next)) : readCpio stream ≠ some [e] := by
  unfold readCpio
  cases stream.length with
  | zero => exact fun hnone => nomatch hnone
  | succ fuel =>
      rw [readMembers]
      split
      · exact fun hnone => nomatch hnone
      · exact fun hnil => nomatch hnil
      · next e' next hread =>
          intro hsome
          obtain ⟨es, -, hcons⟩ := Option.map_eq_some_iff.mp hsome
          have he : e' = e := (List.cons.inj hcons).1
          exact h next (he ▸ hread)

theorem readBody_of_namesize_zero {stream : Bytes} {pos : Nat}
    (h : hdr.namesize = 0) : readBody stream pos hdr = none := by
  unfold readBody
  rw [h]
  dsimp only
  rw [if_pos (.inr (.inl (by simp [slice])))]

theorem readCpio_of_long_name (h : e.name.length + 1 = 4294967296) :
    readCpio (writeCpio [(0, e)]) ≠ some [e] := by
  obtain ⟨rest, hwritten⟩ := writeCpio_singleton 0 e
  have hfits := e.cpioHeader_fits createCpioArchive (by decide : 0 < 16 ^ 8)
  have hzero : (e.cpioHeader createCpioArchive 0).namesize = 0 := by
    unfold Item.cpioHeader
    split <;> simp [itemHeader, h]
  rw [hwritten]
  refine readCpio_ne fun next hread => ?_
  have hraw : readMember ([] ++ ((e.cpioHeader createCpioArchive 0).raw ++ rest)) 0 = _ :=
    readMember_raw hfits
  rw [readBody_of_namesize_zero hzero] at hraw
  exact nomatch hraw.symm.trans hread

/-- A symbolic link whose target takes 2^32 bytes with its zero byte is read back with an empty
target. -/
theorem readCpio_of_long_target {linktarget : Bytes}
    (hkind : e.content = .symlink linktarget) (h : linktarget.length + 1 = 4294967296)
    (hmode : UInt32.ofNat e.mode &&& typeMask = 0) :
    readCpio (writeCpio [(0, e)]) ≠ some [e] := by
  obtain ⟨rest, hwritten⟩ := writeCpio_singleton 0 e
  have hfits := e.cpioHeader_fits createCpioArchive (by decide : 0 < 16 ^ 8)
  have hheader : e.cpioHeader createCpioArchive 0 =
      itemHeader createCpioArchive 0 e cpioIfLnk 1 (linktarget.length + 1) 0 0 := by
    unfold Item.cpioHeader
    rw [hkind]
  have hzero : (e.cpioHeader createCpioArchive 0).filesize = 0 := by
    rw [hheader]
    simp [itemHeader, h]
  rw [hwritten]
  refine readCpio_ne fun next hread => ?_
  have hraw : readMember ([] ++ ((e.cpioHeader createCpioArchive 0).raw ++ rest)) 0 = _ :=
    readMember_raw hfits
  have hbody := hraw.symm.trans hread
  unfold readBody at hbody
  dsimp only at hbody
  split at hbody
  · exact nomatch hbody
  · split at hbody
    · exact nomatch hbody
    · obtain ⟨e', hdecode, heq⟩ := Option.map_eq_some_iff.mp hbody
      obtain rfl : e' = e := (CpioMember.item.inj heq).1
      rw [hzero, hheader] at hdecode
      unfold decodeItem at hdecode
      dsimp only [itemHeader] at hdecode
      rw [UInt32.ofNat_toNat, or_and_mask (by decide) hmode] at hdecode
      have hcontent : e'.content = .symlink (cString []) := by
        have hsome := Option.some.inj hdecode
        rw [← hsome]
        rfl
      rw [hkind] at hcontent
      have hempty : linktarget = [] := (Content.symlink.inj hcontent)
      rw [hempty] at h
      exact absurd h (by decide)

/-- Three items that are not read back: a directory whose mode has the bit of a regular file, and
items with a name and a link target of 2^32 - 1 bytes. -/
theorem readCpio_writeCpio_limits :
    (readCpio (writeCpio
        [(0, { name := [97], mode := 0o100000, uid := 0, gid := 0, content := .dir })]) ≠
      some [{ name := [97], mode := 0o100000, uid := 0, gid := 0, content := .dir }]) ∧
    (readCpio (writeCpio
        [(0, { name := List.replicate 4294967295 97, mode := 0, uid := 0, gid := 0
               content := .dir })]) ≠
      some [{ name := List.replicate 4294967295 97, mode := 0, uid := 0, gid := 0
              content := .dir }]) ∧
    readCpio (writeCpio
        [(0, { name := [97], mode := 0, uid := 0, gid := 0
               content := .symlink (List.replicate 4294967295 97) })]) ≠
      some [{ name := [97], mode := 0, uid := 0, gid := 0
              content := .symlink (List.replicate 4294967295 97) }] := by
  refine ⟨by decide +kernel, ?_, ?_⟩
  · refine readCpio_of_long_name ?_
    simp only [List.length_replicate]
  · refine readCpio_of_long_target rfl ?_ (by decide)
    simp only [List.length_replicate]

end Archive
end Mkfli4l
