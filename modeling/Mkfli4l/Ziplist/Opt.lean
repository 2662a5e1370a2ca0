import Mkfli4l.Lib.CNumber
import Mkfli4l.Lib.Listing
import Mathlib.Order.Bounds.Basic
import Mathlib.Order.Lattice
import Mathlib.Tactic

/-!
# The list of archive entries

The packages, the kernel module resolution and the library resolution all put files into the two
archives by way of `add_zip_list_entry`.  The list `files_array` holds one entry for each name on
the target system.  The first request for a name creates the entry and reads its options; a later
one is compared with the entry in its type and its source, and otherwise only moves the entry to
an archive that is extracted earlier.
-/

namespace Mkfli4l
namespace Ziplist

open Lib Function

/-- `ZIP_SRC_*`: where a file comes from. -/
inductive ZipSrc
  | unknown
  | opt
  | conf
  | other
deriving DecidableEq, Repr

/-- `ZIP_TGT_*`: the archive a file goes to. -/
inductive ZipTgt
  | unknown
  | rootfs
  | opt
deriving DecidableEq, Repr

namespace ZipTgt

/-- The numbers behind the names, in the order of extraction. -/
def number : ZipTgt → Nat
  | unknown => 0
  | rootfs => 1
  | opt => 2

theorem number_injective : Function.Injective number := by
  intro a b h
  cases a <;> cases b <;> first | rfl | exact nomatch h

instance : LinearOrder ZipTgt := LinearOrder.lift' number number_injective

end ZipTgt

/-- `ENTRY_*`: the file system type of an entry. -/
inductive EntryType
  | unknown
  | file
  | dir
  | node
  | symlink
  | local
deriving DecidableEq, Repr

/-- `CONV_*`, without the value for an unreadable conversion. -/
inductive ConvType
  | none
  | utxt
  | dtxt
  | sh
  | luac
deriving DecidableEq, Repr

/-- The part of an entry that depends on its type. -/
inductive EntryData
  | file (convType : ConvType)
  | dir
  | node (devtype : Char) (major minor : Int)
  | symlink (linktarget : CString)
deriving DecidableEq, Repr

/-- What the options of a request say about an entry. -/
structure Attributes where
  mode : Int
  uid : Int
  gid : Int
  u : EntryData
deriving DecidableEq, Repr

structure Entry where
  entryType : EntryType
  filename : CString
  target : CString
  zipsrc : ZipSrc
  ziptgt : ZipTgt
  attributes : Attributes
deriving DecidableEq, Repr

/-- The arguments of `add_zip_list_entry`, with the options in the order of their array. -/
structure Request where
  file : CString
  zipsrc : ZipSrc
  ziptgt : ZipTgt
  entryType : EntryType
  opts : List (CString × CString)
deriving DecidableEq, Repr

/-- What the functions below read of the program's surroundings: the configuration directory and
the names of users and groups. -/
structure Settings where
  configDirWithSlashes : CString
  uidArray : List (CString × Int)
  gidArray : List (CString × Int)

def removeOnePrefix (name pre : CString) : CString :=
  (if pre.isPrefixOf name then name.drop pre.length else name).dropWhile (· == '/')

def removePrefix (cfg : Settings) (name : CString) : CString :=
  removeOnePrefix (removeOnePrefix name cfg.configDirWithSlashes) ['o', 'p', 't']

/-- `lookup_id`, with `none` for `-1`. -/
def lookupId (name : CString) (ids : List (CString × Int)) : Option Int :=
  (ids.find? fun entry => entry.1 == name).map Prod.snd

def lookupEntryOption (opts : List (CString × CString)) (name : String) : Option CString :=
  (opts.find? fun opt => opt.1 == name.toList).map Prod.snd

/-- `read_entry_conv_type`, with `none` for `CONV_UNKNOWN`. -/
def readEntryConvType (opts : List (CString × CString)) : Option ConvType :=
  match lookupEntryOption opts "flags" with
  | none => some .none
  | some value =>
      if value = "utxt".toList then some .utxt
      else if value = "dtxt".toList then some .dtxt
      else if value = "sh".toList then some .sh
      else if value = "luac".toList then some .luac
      else none

/-- `read_entry_mode`, with `none` for `-1`. -/
def readEntryMode (opts : List (CString × CString)) (entryType : EntryType) : Option Int :=
  match lookupEntryOption opts "mode" with
  | some value => (scanOctal value).filter fun mode => !decide (mode < 0)
  | none =>
      match entryType with
      | .symlink => some 0o777
      | .dir => some 0o755
      | _ => some 0o644

/-- `read_entry_uid` and `read_entry_gid`, with `none` for `-1`: a number, or else a name. -/
def readEntryId (ids : List (CString × Int)) (opts : List (CString × CString)) (name : String) :
    Option Int :=
  match lookupEntryOption opts name with
  | some value =>
      ((scanInt value).or (lookupId value ids)).filter fun id => !decide (id < 0)
  | none => some 0

def readEntryUid (cfg : Settings) (opts : List (CString × CString)) : Option Int :=
  readEntryId cfg.uidArray opts "uid"

def readEntryGid (cfg : Settings) (opts : List (CString × CString)) : Option Int :=
  readEntryId cfg.gidArray opts "gid"

/-- `read_entry_devtype`, with `none` for `-1`. -/
def readEntryDevtype (opts : List (CString × CString)) : Option Char :=
  match lookupEntryOption opts "devtype" with
  | some (devtype :: _) => if devtype = 'c' ∨ devtype = 'b' then some devtype else none
  | _ => none

/-- `read_entry_devnum`, with `none` for `-1`. -/
def readEntryDevnum (opts : List (CString × CString)) (name : String) : Option Int :=
  match lookupEntryOption opts name with
  | some value => (scanInt value).filter fun number => !decide (number < 0)
  | none => none

def readEntryLinktarget (opts : List (CString × CString)) : CString :=
  (lookupEntryOption opts "linktarget").getD []

/-- The options that only entries of one type have. -/
def readEntryData (opts : List (CString × CString)) : EntryType → Option EntryData
  | .file => do
      let convType ← readEntryConvType opts
      return .file convType
  | .node => do
      let devtype ← readEntryDevtype opts
      let major ← readEntryDevnum opts "major"
      let minor ← readEntryDevnum opts "minor"
      return .node devtype major minor
  | .symlink => some (.symlink (readEntryLinktarget opts))
  | _ => some .dir

/-- The options of a new entry, or `none` if one of them is refused. -/
def readAttributes (cfg : Settings) (r : Request) : Option Attributes := do
  let mode ← readEntryMode r.opts r.entryType
  let uid ← readEntryUid cfg r.opts
  let gid ← readEntryGid cfg r.opts
  let u ← readEntryData r.opts r.entryType
  return { mode, uid, gid, u }

/-- The name of the entry on the target system. -/
def Request.target (cfg : Settings) (r : Request) : CString :=
  (lookupEntryOption r.opts "name").getD (removePrefix cfg r.file)

/-- `get_zip_list_target_entry`, as a position in the list. -/
def getZipListTargetEntry (files : List Entry) (target : CString) : Option Nat :=
  files.findIdx? fun p => p.target ≠ [] && p.target == target

/-- The two ways in which a request fails: the program ends, or the caller gets `NULL`. -/
inductive AddFailure
  | fatalExit
  | null
deriving DecidableEq, Repr

/-- The entry that the first request for a name creates. -/
def Request.entry (cfg : Settings) (r : Request) (attributes : Attributes) : Entry :=
  { entryType := r.entryType
    filename := r.file
    target := r.target cfg
    zipsrc := r.zipsrc
    ziptgt := r.ziptgt
    attributes }

/-- `add_zip_list_entry`: the new list and the position of the entry in it. -/
def addZipListEntry (cfg : Settings) (files : List Entry) (r : Request) :
    Except AddFailure (List Entry × Nat) :=
  if r.entryType = .unknown ∨ r.entryType = .local then .error .fatalExit
  else if ' ' ∈ r.target cfg then .error .null
  else
    match getZipListTargetEntry files (r.target cfg) with
    | none =>
        match readAttributes cfg r with
        | none => .error .null
        | some attributes => .ok (files ++ [r.entry cfg attributes], files.length)
    | some i =>
        match files[i]? with
        | none => .error .null
        | some p =>
            if r.entryType ≠ p.entryType then .error .null
            else if r.file ≠ p.filename ∧ r.entryType ≠ .dir then .error .null
            else if r.ziptgt < p.ziptgt then .ok (files.set i { p with ziptgt := r.ziptgt }, i)
            else .ok (files, i)

/-- Several requests one after the other: the list they leave, and whether none of them failed.
The callers report a failure and go on. -/
def addAll (cfg : Settings) : List Entry → List Request → List Entry × Bool
  | files, [] => (files, true)
  | files, r :: rs =>
      match addZipListEntry cfg files r with
      | .ok (files', _) => addAll cfg files' rs
      | .error .null => ((addAll cfg files rs).1, false)
      | .error .fatalExit => (files, false)

/-! ### What the list stands for -/

/-- A request that is not turned away because of its type or its name. -/
def Request.Allowed (cfg : Settings) (r : Request) : Prop :=
  r.entryType ≠ .unknown ∧ r.entryType ≠ .local ∧ ' ' ∉ r.target cfg

/-- Does the entry of a name take another request for that name? -/
def Entry.Takes (p : Entry) (r : Request) : Prop :=
  r.entryType = p.entryType ∧ (r.file = p.filename ∨ r.entryType = .dir)

instance (p : Entry) (r : Request) : Decidable (p.Takes r) := inferInstanceAs (Decidable (_ ∧ _))

/-- The entry of a name after another request for that name. -/
def Entry.absorb (p : Entry) (r : Request) : Entry :=
  if p.Takes r then { p with ziptgt := min p.ziptgt r.ziptgt } else p

/-- The entry of a name, if there is one, after another request for it. -/
def entryAfter (cfg : Settings) : Option Entry → Request → Option Entry
  | none, r => (readAttributes cfg r).map (r.entry cfg)
  | some p, r => some (p.absorb r)

/-- Does a request for a name fail, given the entry of that name? -/
def Refuses (cfg : Settings) : Option Entry → Request → Prop
  | none, r => readAttributes cfg r = none
  | some p, r => ¬ p.Takes r

/-- The entries of all names after a request. -/
def addNamed (cfg : Settings) (m : CString → Option Entry) (r : Request) :
    CString → Option Entry :=
  if r.target cfg = [] then m
  else update m (r.target cfg) (entryAfter cfg (m (r.target cfg)) r)

/-- The entries with an empty name that a list of requests creates: they are never looked up, so
each request creates its own. -/
def unnamedEntries (cfg : Settings) (R : List Request) : List Entry :=
  R.filterMap fun r =>
    if r.target cfg = [] then (readAttributes cfg r).map (r.entry cfg) else none

/-- The list holds the entries of `m`, each once, and those of `u`. -/
structure Represents (files : List Entry) (m : CString → Option Entry) (u : List Entry) :
    Prop where
  named : Lists Entry.target (files.filter fun p => p.target ≠ []) m
  unnamed : files.filter (fun p => p.target = []) = u

/-- Does no request of the list fail, given the entries of all names? -/
def Accepted (cfg : Settings) : (CString → Option Entry) → List Request → Prop
  | _, [] => True
  | m, r :: rs => ¬ Refuses cfg (m (r.target cfg)) r ∧ Accepted cfg (addNamed cfg m r) rs

section Represents

variable {cfg : Settings} {files files' : List Entry} {m : CString → Option Entry}
  {u : List Entry} {r : Request} {t : CString} {p : Entry}

@[simp] theorem Request.entry_target (a : Attributes) : (r.entry cfg a).target = r.target cfg := rfl

@[simp] theorem Entry.absorb_target : (p.absorb r).target = p.target := by
  unfold Entry.absorb
  split <;> rfl

theorem Represents.nil : Represents [] (fun _ => none) [] := ⟨Lists.empty _, rfl⟩

theorem Represents.mem (h : Represents files m u) (hm : m t = some p) : p ∈ files :=
  (List.mem_filter.mp ((h.named.mem_iff p t).mp hm).1).1

theorem Represents.target_eq (h : Represents files m u) (hm : m t = some p) : p.target = t :=
  ((h.named.mem_iff p t).mp hm).2

theorem Represents.target_ne_nil (h : Represents files m u) (hm : m t = some p) : t ≠ [] := by
  obtain ⟨hmem, rfl⟩ := (h.named.mem_iff p t).mp hm
  simpa using (List.mem_filter.mp hmem).2

theorem Represents.eq_some (h : Represents files m u) (hp : p ∈ files) (hne : p.target ≠ []) :
    m p.target = some p :=
  (h.named.mem_iff p p.target).mpr ⟨List.mem_filter.mpr ⟨hp, by simpa using hne⟩, rfl⟩

theorem Represents.empty_name (h : Represents files m u) : m [] = none := by
  cases hm : m [] with
  | none => rfl
  | some p => exact absurd rfl (h.target_ne_nil hm)

theorem getZipListTargetEntry_of_none (h : Represents files m u) (hm : m t = none) :
    getZipListTargetEntry files t = none := by
  unfold getZipListTargetEntry
  rw [List.findIdx?_eq_none_iff]
  intro p hp
  by_contra hfound
  obtain ⟨hne, rfl⟩ : p.target ≠ [] ∧ p.target = t := by simpa using hfound
  rw [h.eq_some hp hne] at hm
  exact nomatch hm

theorem getZipListTargetEntry_of_some (h : Represents files m u) (hm : m t = some p) :
    ∃ i, getZipListTargetEntry files t = some i ∧ files[i]? = some p := by
  have hp := h.mem hm
  have htarget := h.target_eq hm
  have hne := h.target_ne_nil hm
  cases hfind : getZipListTargetEntry files t with
  | none =>
      have hnot := List.findIdx?_eq_none_iff.mp hfind p hp
      simp [htarget, hne] at hnot
  | some i =>
      obtain ⟨hi, hpi, -⟩ := List.findIdx?_eq_some_iff_getElem.mp hfind
      refine ⟨i, rfl, ?_⟩
      obtain ⟨hne', htarget'⟩ : files[i].target ≠ [] ∧ files[i].target = t := by simpa using hpi
      have hsome := h.eq_some (List.getElem_mem hi) hne'
      rw [htarget', hm] at hsome
      rw [List.getElem?_eq_getElem hi, Option.some.inj hsome]

theorem Represents.append_named (h : Represents files m u) (hm : m p.target = none)
    (hne : p.target ≠ []) :
    Represents (files ++ [p]) (update m p.target (some p)) u := by
  constructor
  · have hinsert := h.named.insert hm
    refine hinsert.perm ?_
    rw [List.filter_append]
    simpa [hne] using (List.perm_append_singleton p _).symm
  · simp [List.filter_append, hne, h.unnamed]

theorem Represents.append_unnamed (h : Represents files m u) (hnil : p.target = []) :
    Represents (files ++ [p]) m (u ++ [p]) := by
  constructor
  · simpa [List.filter_append, hnil] using h.named
  · simp [List.filter_append, hnil, h.unnamed]

variable {i : Nat} {f : Entry} {R : List Request}

theorem Represents.set {q : Entry} (h : Represents files m u) (hi : files[i]? = some p)
    (htarget : q.target = p.target) (hne : p.target ≠ []) :
    Represents (files.set i q) (update m p.target (some q)) u := by
  obtain ⟨hlt, rfl⟩ := List.getElem?_eq_some_iff.mp hi
  have hfiles := List.getElem_cons_eraseIdx_perm hlt
  have hset : (q :: files.eraseIdx i).Perm (files.set i q) := by
    have hlt' : i < (files.set i q).length := by simpa using hlt
    have hperm := List.getElem_cons_eraseIdx_perm hlt'
    simpa [List.eraseIdx_set_eq] using hperm
  constructor
  · have hold := h.named.perm (hfiles.filter fun p => decide (p.target ≠ [])).symm
    rw [List.filter_cons_of_pos (by simpa using hne)] at hold
    have hnew := hold.replace htarget.symm
    rw [htarget] at hnew
    refine hnew.perm ?_
    have hfilter := hset.filter fun p => decide (p.target ≠ [])
    rwa [List.filter_cons_of_pos (by simpa [htarget] using hne)] at hfilter
  · rw [← h.unnamed]
    rw [List.set_eq_take_append_cons_drop, if_pos hlt]
    conv_rhs => rw [← List.take_append_drop i files, List.drop_eq_getElem_cons hlt]
    rw [List.filter_append, List.filter_append, List.filter_cons_of_neg (by simpa [htarget] using hne),
      List.filter_cons_of_neg (by simpa using hne)]

/-! ### One request -/

theorem addZipListEntry_unnamed (hallowed : r.Allowed cfg) (hnil : r.target cfg = []) :
    addZipListEntry cfg files r =
      match readAttributes cfg r with
      | none => .error .null
      | some a => .ok (files ++ [r.entry cfg a], files.length) := by
  obtain ⟨hunknown, hlocal, hspace⟩ := hallowed
  have hnone : getZipListTargetEntry files [] = none := by
    unfold getZipListTargetEntry
    rw [List.findIdx?_eq_none_iff]
    intro p _
    simp
  unfold addZipListEntry
  rw [if_neg (by simp [hunknown, hlocal]), if_neg hspace, hnil, hnone]

theorem addZipListEntry_first (h : Represents files m u) (hallowed : r.Allowed cfg)
    (hm : m (r.target cfg) = none) :
    addZipListEntry cfg files r =
      match readAttributes cfg r with
      | none => .error .null
      | some a => .ok (files ++ [r.entry cfg a], files.length) := by
  obtain ⟨hunknown, hlocal, hspace⟩ := hallowed
  unfold addZipListEntry
  rw [if_neg (by simp [hunknown, hlocal]), if_neg hspace, getZipListTargetEntry_of_none h hm]

theorem addZipListEntry_later (h : Represents files m u) (hallowed : r.Allowed cfg)
    (hm : m (r.target cfg) = some p) :
    (¬ p.Takes r → addZipListEntry cfg files r = .error .null) ∧
      (p.Takes r → ∃ files' i, addZipListEntry cfg files r = .ok (files', i) ∧
        files'[i]? = some (p.absorb r) ∧
        Represents files' (update m (r.target cfg) (some (p.absorb r))) u) := by
  obtain ⟨hunknown, hlocal, hspace⟩ := hallowed
  obtain ⟨i, hfind, hi⟩ := getZipListTargetEntry_of_some h hm
  have htarget := h.target_eq hm
  have hne : p.target ≠ [] := by
    rw [htarget]
    exact h.target_ne_nil hm
  have hadd : addZipListEntry cfg files r =
      if r.entryType ≠ p.entryType then .error .null
      else if r.file ≠ p.filename ∧ r.entryType ≠ .dir then .error .null
      else if r.ziptgt < p.ziptgt then .ok (files.set i { p with ziptgt := r.ziptgt }, i)
      else .ok (files, i) := by
    unfold addZipListEntry
    rw [if_neg (by simp [hunknown, hlocal]), if_neg hspace, hfind]
    simp only [hi]
  rw [hadd]
  constructor
  · intro hnot
    by_cases htype : r.entryType = p.entryType
    · have hfile : r.file ≠ p.filename ∧ r.entryType ≠ .dir := by
        constructor
        · exact fun hfile => hnot ⟨htype, .inl hfile⟩
        · exact fun hdir => hnot ⟨htype, .inr hdir⟩
      rw [if_neg (by simpa using htype), if_pos hfile]
    · rw [if_pos htype]
  · intro htakes
    have hfile : ¬ (r.file ≠ p.filename ∧ r.entryType ≠ .dir) := by
      rintro ⟨hfile, hdir⟩
      exact htakes.2.elim hfile hdir
    rw [if_neg (by simpa using htakes.1), if_neg hfile]
    by_cases hlt : r.ziptgt < p.ziptgt
    · have habsorb : p.absorb r = { p with ziptgt := r.ziptgt } := by
        unfold Entry.absorb
        rw [if_pos htakes, min_eq_right hlt.le]
      refine ⟨files.set i { p with ziptgt := r.ziptgt }, i, by rw [if_pos hlt], ?_, ?_⟩
      · obtain ⟨hbound, -⟩ := List.getElem?_eq_some_iff.mp hi
        rw [habsorb, List.getElem?_set_self hbound]
      · rw [habsorb, ← htarget]
        exact h.set hi rfl hne
    · have habsorb : p.absorb r = p := by
        unfold Entry.absorb
        rw [if_pos htakes, min_eq_left (not_lt.mp hlt)]
      refine ⟨files, i, by rw [if_neg hlt], by rw [habsorb, hi], ?_⟩
      rw [habsorb, ← hm, update_eq_self]
      exact h

theorem addNamed_of_refuses (hrefuses : Refuses cfg (m (r.target cfg)) r) :
    addNamed cfg m r = m := by
  unfold addNamed
  by_cases hnil : r.target cfg = []
  · rw [if_pos hnil]
  · rw [if_neg hnil]
    cases hm : m (r.target cfg) with
    | none =>
        rw [hm] at hrefuses
        have hattributes : readAttributes cfg r = none := hrefuses
        simp only [entryAfter, hattributes, Option.map_none, ← hm, update_eq_self]
    | some p =>
        rw [hm] at hrefuses
        have htakes : ¬ p.Takes r := hrefuses
        simp only [entryAfter, Entry.absorb, if_neg htakes, ← hm, update_eq_self]

theorem addZipListEntry_spec (h : Represents files m u) (hallowed : r.Allowed cfg) :
    (Refuses cfg (m (r.target cfg)) r ∧ addZipListEntry cfg files r = .error .null ∧
        addNamed cfg m r = m ∧ unnamedEntries cfg [r] = []) ∨
      (¬ Refuses cfg (m (r.target cfg)) r ∧ ∃ files' i,
        addZipListEntry cfg files r = .ok (files', i) ∧
        Represents files' (addNamed cfg m r) (u ++ unnamedEntries cfg [r])) := by
  by_cases hnil : r.target cfg = []
  · have hm : m (r.target cfg) = none := by rw [hnil, h.empty_name]
    have hnamed : addNamed cfg m r = m := if_pos hnil
    rw [addZipListEntry_unnamed hallowed hnil, hm, hnamed]
    cases hattributes : readAttributes cfg r with
    | none => exact .inl ⟨hattributes, rfl, rfl, by simp [unnamedEntries, hnil, hattributes]⟩
    | some a =>
        refine .inr ⟨by simp [Refuses, hattributes], _, _, rfl, ?_⟩
        have hentries : unnamedEntries cfg [r] = [r.entry cfg a] := by
          simp [unnamedEntries, hnil, hattributes]
        rw [hentries]
        exact h.append_unnamed hnil
  · have hentries : unnamedEntries cfg [r] = [] := by simp [unnamedEntries, hnil]
    have hnamed : addNamed cfg m r =
        update m (r.target cfg) (entryAfter cfg (m (r.target cfg)) r) := if_neg hnil
    rw [hentries, List.append_nil]
    cases hm : m (r.target cfg) with
    | none =>
        rw [addZipListEntry_first h hallowed hm]
        cases hattributes : readAttributes cfg r with
        | none =>
            have hrefuses : Refuses cfg (m (r.target cfg)) r := by
              rw [hm]
              exact hattributes
            exact .inl ⟨hattributes, rfl, addNamed_of_refuses hrefuses, rfl⟩
        | some a =>
            refine .inr ⟨by simp [Refuses, hattributes], _, _, rfl, ?_⟩
            rw [hnamed, hm]
            simp only [entryAfter, hattributes, Option.map_some]
            have hnew : m (r.entry cfg a).target = none := hm
            exact h.append_named hnew hnil
    | some p =>
        obtain ⟨hrefused, htaken⟩ := addZipListEntry_later h hallowed hm
        by_cases htakes : p.Takes r
        · obtain ⟨files', i, hadd, -, hfiles'⟩ := htaken htakes
          refine .inr ⟨not_not_intro htakes, files', i, hadd, ?_⟩
          rw [hnamed, hm]
          exact hfiles'
        · have hrefuses : Refuses cfg (m (r.target cfg)) r := by
            rw [hm]
            exact htakes
          exact .inl ⟨htakes, hrefused htakes, addNamed_of_refuses hrefuses, rfl⟩

/-- Everything that an accepted request can have done: it appends a new entry, or it finds the
entry of its name and moves it to another archive at most. -/
theorem addZipListEntry_cases (h : addZipListEntry cfg files r = .ok (files', i)) :
    r.Allowed cfg ∧
      ((∃ a, readAttributes cfg r = some a ∧ getZipListTargetEntry files (r.target cfg) = none ∧
          files' = files ++ [r.entry cfg a] ∧ i = files.length) ∨
        ∃ p, files[i]? = some p ∧ p.target = r.target cfg ∧ p.target ≠ [] ∧ p.Takes r ∧
          files' = files.set i (p.absorb r)) := by
  unfold addZipListEntry at h
  split at h
  · exact nomatch h
  · next htype =>
      push Not at htype
      split at h
      · exact nomatch h
      · next hspace =>
          refine ⟨⟨htype.1, htype.2, hspace⟩, ?_⟩
          split at h
          · next hfind =>
              split at h
              · exact nomatch h
              · next a ha =>
                  cases h
                  exact .inl ⟨a, ha, hfind, rfl, rfl⟩
          · next k hfind =>
              obtain ⟨hk, hfound, -⟩ := List.findIdx?_eq_some_iff_getElem.mp hfind
              obtain ⟨hne, htarget⟩ : files[k].target ≠ [] ∧ files[k].target = r.target cfg := by
                simpa using hfound
              rw [List.getElem?_eq_getElem hk] at h
              dsimp only at h
              split at h
              · exact nomatch h
              · next hsame =>
                  split at h
                  · exact nomatch h
                  · next hsource =>
                      have htakes : (files[k]).Takes r := by
                        refine ⟨not_not.mp hsame, ?_⟩
                        by_contra hnot
                        push Not at hnot
                        exact hsource hnot
                      refine .inr ?_
                      split at h
                      · next hlt =>
                          cases h
                          refine ⟨files[i], List.getElem?_eq_getElem hk, htarget, hne, htakes, ?_⟩
                          unfold Entry.absorb
                          rw [if_pos htakes, min_eq_right hlt.le]
                      · next hnot =>
                          cases h
                          refine ⟨files[i], List.getElem?_eq_getElem hk, htarget, hne, htakes, ?_⟩
                          unfold Entry.absorb
                          rw [if_pos htakes, min_eq_left (not_lt.mp hnot), List.set_getElem_self]

/-- What becomes of an entry: it may move to an archive that is extracted earlier. -/
structure Entry.MovesTo (f f' : Entry) : Prop where
  entryType : f'.entryType = f.entryType
  filename : f'.filename = f.filename
  target : f'.target = f.target
  le : f'.ziptgt ≤ f.ziptgt

theorem Entry.MovesTo.refl (f : Entry) : f.MovesTo f := ⟨rfl, rfl, rfl, le_rfl⟩

theorem Entry.MovesTo.trans {f' f'' : Entry} (h : f.MovesTo f') (h' : f'.MovesTo f'') :
    f.MovesTo f'' :=
  ⟨h'.entryType.trans h.entryType, h'.filename.trans h.filename, h'.target.trans h.target,
    h'.le.trans h.le⟩

theorem Entry.MovesTo.takes {f' : Entry} (h : f.MovesTo f') (htakes : f.Takes r) : f'.Takes r := by
  unfold Entry.Takes
  rw [h.entryType, h.filename]
  exact htakes

theorem Entry.absorb_of_takes (h : p.Takes r) :
    p.absorb r = { p with ziptgt := min p.ziptgt r.ziptgt } := if_pos h

theorem Entry.moves_absorb (p : Entry) (r : Request) : p.MovesTo (p.absorb r) := by
  by_cases htakes : p.Takes r
  · rw [Entry.absorb_of_takes htakes]
    exact ⟨rfl, rfl, rfl, min_le_left _ _⟩
  · have hsame : p.absorb r = p := if_neg htakes
    rw [hsame]
    exact .refl p

theorem addZipListEntry_moves {j : Nat}
    (h : addZipListEntry cfg files r = .ok (files', i)) (hf : files[j]? = some f) :
    ∃ f', files'[j]? = some f' ∧ f.MovesTo f' := by
  rcases (addZipListEntry_cases h).2 with ⟨a, -, -, rfl, -⟩ | ⟨p, hp, -, -, -, rfl⟩
  · refine ⟨f, ?_, .refl f⟩
    rw [List.getElem?_append_left (List.getElem?_eq_some_iff.mp hf).1, hf]
  · by_cases hj : i = j
    · subst hj
      obtain rfl : p = f := Option.some.inj (hp.symm.trans hf)
      exact ⟨_, List.getElem?_set_self (List.getElem?_eq_some_iff.mp hp).1, p.moves_absorb r⟩
    · exact ⟨f, by rw [List.getElem?_set_ne hj, hf], .refl f⟩

theorem addZipListEntry_entry (h : addZipListEntry cfg files r = .ok (files', i)) :
    ∃ e, files'[i]? = some e ∧ e.target = r.target cfg ∧ e.Takes r ∧ e.ziptgt ≤ r.ziptgt := by
  rcases (addZipListEntry_cases h).2 with ⟨a, -, -, rfl, rfl⟩ | ⟨p, hp, htarget, -, htakes, rfl⟩
  · exact ⟨r.entry cfg a, by simp, rfl, ⟨rfl, .inl rfl⟩, le_rfl⟩
  · have hmoves := p.moves_absorb r
    refine ⟨p.absorb r, List.getElem?_set_self (List.getElem?_eq_some_iff.mp hp).1,
      hmoves.target.trans htarget, hmoves.takes htakes, ?_⟩
    rw [Entry.absorb_of_takes htakes]
    exact min_le_right _ _

/-! ### Many requests -/

theorem unnamedEntries_cons (r : Request) (R : List Request) :
    unnamedEntries cfg (r :: R) = unnamedEntries cfg [r] ++ unnamedEntries cfg R := by
  unfold unnamedEntries
  rw [← List.filterMap_append, List.singleton_append]

theorem addAll_spec (h : Represents files m u) (hallowed : ∀ r ∈ R, r.Allowed cfg) :
    Represents (addAll cfg files R).1 (R.foldl (addNamed cfg) m) (u ++ unnamedEntries cfg R) ∧
      ((addAll cfg files R).2 = true ↔ Accepted cfg m R) := by
  induction R generalizing files m u with
  | nil => exact ⟨by simpa [addAll, unnamedEntries] using h, by simp [addAll, Accepted]⟩
  | cons r R ih =>
      have hrest : ∀ r ∈ R, r.Allowed cfg := fun r hr => hallowed r (List.mem_cons_of_mem _ hr)
      rw [List.foldl_cons, unnamedEntries_cons, ← List.append_assoc]
      rcases addZipListEntry_spec h (hallowed r List.mem_cons_self) with
        ⟨hrefuses, hadd, hsame, hnone⟩ | ⟨haccepts, files', i, hadd, hfiles'⟩
      · have htail := ih h hrest
        refine ⟨?_, ?_⟩
        · simpa [addAll, hadd, hsame, hnone] using htail.1
        · simp [addAll, hadd, Accepted, hrefuses]
      · have htail := ih hfiles' hrest
        refine ⟨?_, ?_⟩
        · simpa [addAll, hadd] using htail.1
        · simpa [addAll, hadd, Accepted, haccepts] using htail.2

theorem addAll_not_allowed (hr : r ∈ R) (hnot : ¬ r.Allowed cfg) :
    (addAll cfg files R).2 = false := by
  induction R generalizing files with
  | nil => exact nomatch hr
  | cons r' R ih =>
      unfold addAll
      rcases List.mem_cons.mp hr with rfl | hr
      · by_cases htype : r.entryType = .unknown ∨ r.entryType = .local
        · have hadd : addZipListEntry cfg files r = .error .fatalExit := by
            unfold addZipListEntry
            rw [if_pos htype]
          rw [hadd]
        · have hspace : ' ' ∈ r.target cfg := by
            by_contra hspace
            exact hnot ⟨fun h => htype (.inl h), fun h => htype (.inr h), hspace⟩
          have hadd : addZipListEntry cfg files r = .error .null := by
            unfold addZipListEntry
            rw [if_neg htype, if_pos hspace]
          rw [hadd]
      · split
        · exact ih hr
        · rfl
        · rfl

end Represents

end Ziplist
end Mkfli4l
