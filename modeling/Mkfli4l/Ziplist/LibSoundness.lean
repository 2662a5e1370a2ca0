import Mkfli4l.Ziplist.LibTermination

/-!
# Libraries as the loader finds them

A program finds its libraries, and the libraries these need, in the directory of its own RPATH, in
`/lib` and in `/usr/lib`.  The resolution remembers for every entry which entries its needed
libraries have been resolved to, and takes them over for other programs.  This is right as long as
these would look up the same entries; with another RPATH they may not.

What a look-up finds stays the same in the course of the resolution: a library is only added to the
list if it is neither in `/lib` nor in `/usr/lib` (`lookupDependency_append`).
-/

namespace Mkfli4l
namespace Ziplist

open Lib

section Lookup

variable {env : Surroundings} {files files' : List Entry} {rpath rpath' : Option CString}
  {soname soname' : CString} {f : Nat} {q : Entry}

/-- The part of an entry that a look-up depends on. -/
def Entry.key (p : Entry) : CString × CString × EntryType := (p.filename, p.target, p.entryType)

theorem findIdx?_congr_key {test : Entry → Bool}
    (htest : ∀ p p' : Entry, p.key = p'.key → test p = test p')
    (h : files.map Entry.key = files'.map Entry.key) :
    files.findIdx? test = files'.findIdx? test := by
  induction files generalizing files' with
  | nil =>
      obtain rfl : files' = [] := List.map_eq_nil_iff.mp h.symm
      rfl
  | cons p files ih =>
      cases files' with
      | nil => exact nomatch h
      | cons p' files' =>
          obtain ⟨hp, hrest⟩ := List.cons.inj h
          rw [List.findIdx?_cons, List.findIdx?_cons, htest p p' hp, ih hrest]

theorem getZipListEntryBySoname_congr (h : files.map Entry.key = files'.map Entry.key)
    (libdir : CString) :
    getZipListEntryBySoname env files soname libdir =
      getZipListEntryBySoname env files' soname libdir := by
  refine findIdx?_congr_key ?_ h
  intro p p' hkey
  obtain ⟨hfile, htarget, -⟩ : p.filename = p'.filename ∧ p.target = p'.target ∧
      p.entryType = p'.entryType := by simpa [Entry.key] using hkey
  rw [Entry.soname, Entry.soname, hfile, htarget]

theorem getSymlinkEntry_congr (h : files.map Entry.key = files'.map Entry.key)
    (target : CString) : getSymlinkEntry files target = getSymlinkEntry files' target := by
  have hget : getZipListTargetEntry files target = getZipListTargetEntry files' target := by
    refine findIdx?_congr_key ?_ h
    intro p p' hkey
    obtain ⟨-, htarget, -⟩ : p.filename = p'.filename ∧ p.target = p'.target ∧
        p.entryType = p'.entryType := by simpa [Entry.key] using hkey
    rw [htarget]
  have htype (i : Nat) : (files[i]?.any fun p => p.entryType = .symlink) =
      (files'[i]?.any fun p => p.entryType = .symlink) := by
    have hi := congrArg (fun l => l[i]?) h
    simp only [List.getElem?_map] at hi
    cases hp : files[i]? with
    | none =>
        rw [hp, Option.map_none] at hi
        rw [Option.map_eq_none_iff.mp hi.symm]
    | some p =>
        rw [hp, Option.map_some] at hi
        obtain ⟨p', hp', hkey⟩ := Option.map_eq_some_iff.mp hi.symm
        obtain ⟨-, -, htype⟩ : p'.filename = p.filename ∧ p'.target = p.target ∧
            p'.entryType = p.entryType := by simpa [Entry.key] using hkey
        rw [hp', Option.any_some, Option.any_some, htype]
  unfold getSymlinkEntry
  rw [hget]
  exact congrArg (fun test => Option.filter test _) (funext htype)

theorem lookupDependency_congr (h : files.map Entry.key = files'.map Entry.key) :
    lookupDependency env files rpath soname = lookupDependency env files' rpath soname := by
  unfold lookupDependency
  rw [getZipListEntryBySoname_congr h, getZipListEntryBySoname_congr h, getSymlinkEntry_congr h,
    getSymlinkEntry_congr h]
  cases rpath with
  | none => rfl
  | some path => rw [Option.bind_some, Option.bind_some, getZipListEntryBySoname_congr h]

theorem findIdx?_concat (test : Entry → Bool) :
    (files ++ [q]).findIdx? test =
      (files.findIdx? test).or (if test q then some files.length else none) := by
  rw [List.findIdx?_append, List.findIdx?_singleton]
  cases test q
  · rfl
  · simp

theorem getZipListEntryBySoname_append (libdir : CString) :
    getZipListEntryBySoname env (files ++ [q]) soname libdir =
      (getZipListEntryBySoname env files soname libdir).or
        (if q.soname env = some soname && inLibdir q.target libdir then some files.length
         else none) :=
  findIdx?_concat _

theorem getSymlinkEntry_append (htype : q.entryType ≠ .symlink) (target : CString) :
    getSymlinkEntry (files ++ [q]) target = getSymlinkEntry files target := by
  unfold getSymlinkEntry getZipListTargetEntry
  rw [findIdx?_concat]
  cases hget : files.findIdx? fun p => p.target ≠ [] && p.target == target with
  | none =>
      rw [Option.none_or]
      split
      · simp [htype]
      · rfl
  | some i =>
      have hi : i < files.length := (List.findIdx?_eq_some_iff_getElem.mp hget).1
      rw [Option.some_or, Option.filter_some, Option.filter_some, List.getElem?_append_left hi]

theorem lookupDependency_append
    (hq : ∀ libdir, inLibdir q.target libdir = true → q.soname env = some soname')
    (htype : q.entryType ≠ .symlink) (hnone : lookupDependency env files rpath' soname' = none)
    (h : lookupDependency env files rpath soname = some f) :
    lookupDependency env (files ++ [q]) rpath soname = some f := by
  simp only [lookupDependency, Option.or_eq_none_iff] at hnone
  obtain ⟨-, hlib, husr, husrlink, hlink⟩ := hnone
  unfold lookupDependency at h ⊢
  rw [getSymlinkEntry_append htype, getSymlinkEntry_append htype,
    getZipListEntryBySoname_append, getZipListEntryBySoname_append]
  by_cases hsame : soname = soname'
  · -- only the RPATH can have led to the entry
    subst hsame
    rw [hlib, husr, husrlink, hlink] at h
    simp only [Option.or_none] at h
    obtain ⟨path, rfl, hpath⟩ := Option.bind_eq_some_iff.mp h
    rw [Option.bind_some, getZipListEntryBySoname_append, hpath, Option.some_or, Option.some_or]
  · have hother (libdir : CString) :
        ¬ (q.soname env = some soname && inLibdir q.target libdir) = true := by
      intro hfound
      obtain ⟨hsoname, hdir⟩ : q.soname env = some soname ∧ inLibdir q.target libdir = true := by
        simpa using hfound
      exact hsame (Option.some.inj (hsoname.symm.trans (hq libdir hdir)))
    rw [if_neg (hother _), if_neg (hother _), Option.or_none, Option.or_none]
    cases rpath with
    | none => exact h
    | some path =>
        rw [Option.bind_some, getZipListEntryBySoname_append, if_neg (hother _), Option.or_none]
        exact h

/-! ### The name of a new library -/

theorem removePrefix_suffix (cfg : Settings) (name : CString) : removePrefix cfg name <:+ name := by
  have hone (name pre : CString) : removeOnePrefix name pre <:+ name := by
    unfold removeOnePrefix
    refine (List.dropWhile_suffix _).trans ?_
    split
    · exact List.drop_suffix _ _
    · exact List.suffix_refl _
  exact (hone _ _).trans (hone _ _)

theorem slash_mem_of_inLibdir {target libdir : CString} (h : inLibdir target libdir = true) :
    '/' ∈ target := by
  have hget : target[libdir.length - 1]? = some '/' := by
    simp only [inLibdir, Bool.and_eq_true, decide_eq_true_eq] at h
    exact h.1.2
  exact List.mem_of_getElem? hget

theorem basename_append_slash {name : CString} (hne : name ≠ []) (hslash : '/' ∉ name)
    (pre : CString) : basename (pre ++ '/' :: name) = name := by
  have hreverse : (pre ++ '/' :: name).reverse = name.reverse ++ '/' :: pre.reverse := by simp
  have hnone : ∀ c ∈ name.reverse, (c != '/') = true := by
    intro c hc
    have hmem := List.mem_reverse.mp hc
    simpa using fun heq : c = '/' => hslash (heq ▸ hmem)
  obtain ⟨c, rest, hcons⟩ := List.exists_cons_of_ne_nil (List.reverse_ne_nil_iff.mpr hne)
  have hc : (c == '/') = false := by
    have hc := hnone c (hcons ▸ List.mem_cons_self)
    simpa using hc
  have htrimmed : (pre ++ '/' :: name).reverse.dropWhile (· == '/') =
      name.reverse ++ '/' :: pre.reverse := by
    rw [hreverse, hcons, List.cons_append, List.dropWhile_cons_of_neg (by simp [hc])]
  unfold basename
  rw [htrimmed, if_neg (by simp), if_neg (by simp),
    List.takeWhile_append_of_pos hnone, List.takeWhile_cons_of_neg (by simp), List.append_nil,
    List.reverse_reverse]

theorem soname_of_lib {dir : LibDir} {lib : LibFile} {a : Attributes} {ziptgt : ZipTgt}
    (hdir : dir.libraries = readLibraries env dir.dirname) (hlib : lib ∈ dir.libraries)
    {libdir : CString}
    (hin : inLibdir ((libRequest dir lib ziptgt).entry env.cfg a).target libdir = true) :
    ((libRequest dir lib ziptgt).entry env.cfg a).soname env = some lib.soname := by
  rw [hdir] at hlib
  obtain ⟨name, hname, hlib⟩ := List.mem_filterMap.mp hlib
  obtain ⟨desc, hdesc, rfl⟩ := Option.map_eq_some_iff.mp hlib
  obtain ⟨hne, hslash⟩ := env.readdir_name _ name hname
  have htarget : '/' ∈ libTarget env dir ⟨name, desc.soname.getD name⟩ := slash_mem_of_inLibdir hin
  -- the target is the end of the file name, and there is a slash in it
  have hsuffix : libTarget env dir ⟨name, desc.soname.getD name⟩ <:+ dir.dirname ++ '/' :: name :=
    removePrefix_suffix env.cfg _
  have hlong : '/' :: name <:+ libTarget env dir ⟨name, desc.soname.getD name⟩ := by
    refine List.suffix_of_suffix_length_le (List.suffix_append _ _) hsuffix ?_
    by_contra hshort
    have hinner := List.suffix_of_suffix_length_le hsuffix
      ((List.suffix_cons '/' name).trans (List.suffix_append dir.dirname _))
      (by rw [List.length_cons] at hshort; omega)
    exact hslash (hinner.subset htarget)
  obtain ⟨pre, hpre⟩ := hlong
  have hbase : basename (libTarget env dir ⟨name, desc.soname.getD name⟩) = name := by
    rw [← hpre, basename_append_slash hne hslash]
  unfold Entry.soname
  rw [Request.entry_target, libRequest_target, hbase]
  have hread : env.readelf ((libRequest dir ⟨name, desc.soname.getD name⟩ ziptgt).entry env.cfg a).filename =
      some desc := hdesc
  rw [hread, Option.map_some]

end Lookup

/-! ### The look-ups in the course of the resolution -/

section Grows

variable {env : Surroundings} {root e i f n : Nat} {rpath : Option CString}
  {targets : List CString} {st st' st'' : LibState} {soname : CString}

/-- The libraries of all directories are those that were read from them. -/
def DirsRead (env : Surroundings) (st : LibState) : Prop :=
  ∀ dir ∈ st.libdirs, dir.libraries = readLibraries env dir.dirname

/-- A later state in which everything is found that was found before. -/
structure LibState.Grows (env : Surroundings) (st st' : LibState) : Prop where
  le : st.Le st'
  lookup : ∀ {rpath : Option CString} {soname : CString} {f : Nat},
    lookupDependency env st.files rpath soname = some f →
      lookupDependency env st'.files rpath soname = some f

theorem LibState.Grows.refl (env : Surroundings) (st : LibState) : st.Grows env st :=
  ⟨.refl st, fun h => h⟩

theorem LibState.Grows.trans (h : st.Grows env st') (h' : st'.Grows env st'') :
    st.Grows env st'' :=
  ⟨h.le.trans h'.le, fun hf => h'.lookup (h.lookup hf)⟩

theorem map_key_set {files : List Entry} {k : Nat} {p q : Entry} (hp : files[k]? = some p)
    (hmoves : p.MovesTo q) : (files.set k q).map Entry.key = files.map Entry.key := by
  have hkey : q.key = p.key := by
    rw [Entry.key, Entry.key, hmoves.filename, hmoves.target, hmoves.entryType]
  refine List.ext_getElem? fun j => ?_
  rw [List.getElem?_map, List.getElem?_map]
  by_cases hj : k = j
  · subst hj
    rw [List.getElem?_set_self (List.getElem?_eq_some_iff.mp hp).1, hp, Option.map_some,
      Option.map_some, hkey]
  · rw [List.getElem?_set_ne hj]

theorem map_key_lower : (st.lower root f).files.map Entry.key = st.files.map Entry.key := by
  unfold LibState.lower
  split
  · refine List.ext_getElem? fun j => ?_
    rw [List.getElem?_map, List.getElem?_map, List.getElem?_modify]
    cases st.files[j]? with
    | none => rfl
    | some p =>
        by_cases hj : f = j
        · simp [hj, Entry.key]
        · simp [hj]
  · rfl

theorem Searched.files_cases {dirs : List LibDir} {found : Bool}
    (hdirs : ∀ dir ∈ dirs, dir.libraries = readLibraries env dir.dirname)
    (h : Searched env root soname st dirs st' found) :
    st'.files.map Entry.key = st.files.map Entry.key ∨
      ∃ q, st'.files = st.files ++ [q] ∧
        st'.secondary = Function.update st.secondary st.files.length true ∧
        (∀ libdir, inLibdir q.target libdir = true → q.soname env = some soname) ∧
        q.entryType = .file ∧ q.ziptgt = st.ziptgt root := by
  rcases h with ⟨-, rfl⟩ | ⟨-, dir, hdir, lib, hlib, rfl, files, k, hadd, rfl⟩
  · exact .inl rfl
  · rcases (addZipListEntry_cases hadd).2 with ⟨a, -, -, rfl, rfl⟩ | ⟨p, hp, -, -, -, rfl⟩
    · refine .inr ⟨_, rfl, rfl, ?_, rfl, rfl⟩
      exact fun libdir hin => soname_of_lib (hdirs dir hdir) hlib hin
    · exact .inl (map_key_set hp (p.moves_absorb _))

theorem DirsRead.addDependency (h : DirsRead env st) {found : Bool}
    (hadd : addDependency env st root soname = (st', found)) :
    DirsRead env st' ∧ (st'.files.map Entry.key = st.files.map Entry.key ∨
      ∃ q, st'.files = st.files ++ [q] ∧
        st'.secondary = Function.update st.secondary st.files.length true ∧
        (∀ libdir, inLibdir q.target libdir = true → q.soname env = some soname) ∧
        q.entryType = .file ∧ q.ziptgt = st.ziptgt root) := by
  obtain ⟨dirs, hdirs, hsearched⟩ := addDependency_cases hadd
  have hall : ∀ dir ∈ dirs, dir.libraries = readLibraries env dir.dirname := by
    rcases hdirs with rfl | ⟨path, -, rfl⟩
    · exact h
    · intro dir hdir
      rcases List.mem_append.mp hdir with hdir | hdir
      · exact h dir hdir
      · rw [List.mem_singleton.mp hdir]
        rfl
  have hfiles := hsearched.files_cases hall
  refine ⟨?_, hfiles⟩
  rcases hsearched with ⟨-, rfl⟩ | ⟨-, _, -, _, -, -, _, _, -, rfl⟩
  · exact hall
  · exact hall

theorem DirsRead.grows_of_addDependency (h : DirsRead env st) {found : Bool}
    (hnone : lookupDependency env st.files rpath soname = none)
    (hadd : Ziplist.addDependency env st root soname = (st', found)) : st.Grows env st' := by
  refine ⟨addDependency_le hadd, ?_⟩
  intro rpath' soname' f hf
  rcases (h.addDependency hadd).2 with hsame | ⟨q, hfiles, -, hq, htype, -⟩
  · rw [lookupDependency_congr hsame]
    exact hf
  · rw [hfiles]
    exact lookupDependency_append hq (by rw [htype]; exact nofun) hnone hf

theorem Resolved.grows {r : Option Nat} (hdirs : DirsRead env st)
    (h : Resolved env root st e i soname st' r) : DirsRead env st' ∧ st.Grows env st' := by
  cases h with
  | cached hdep => exact ⟨hdirs, .refl env st⟩
  | found hdep hlookup => exact ⟨hdirs, LibState.le_setDepFile hdep, fun h => h⟩
  | added hdep hlookup hadd hdep' hlookup' =>
      refine ⟨(hdirs.addDependency hadd).1, (hdirs.grows_of_addDependency hlookup hadd).trans ?_⟩
      exact ⟨LibState.le_setDepFile hdep', fun h => h⟩
  | missing hdep hlookup hadd =>
      exact ⟨(hdirs.addDependency hadd).1, hdirs.grows_of_addDependency hlookup hadd⟩

theorem LibState.grows_lower : st.Grows env (st.lower root f) := by
  refine ⟨LibState.le_lower, ?_⟩
  intro rpath soname f' hf'
  rw [lookupDependency_congr map_key_lower]
  exact hf'

theorem LibState.lower_libdirs : (st.lower root f).libdirs = st.libdirs := by
  unfold LibState.lower
  split <;> rfl

theorem libWalker_keeps (env : Surroundings) (root : Nat) (rpath : Option CString) (n : Nat)
    {targets : List CString}
    (hrpath : ∀ path ∈ rpath, ∀ lib ∈ (ldconfig env path false).libraries,
      libTarget env (ldconfig env path false) lib ∈ targets) :
    (libWalker env root).Keeps (fun st => LibInv env root rpath n targets st ∧ DirsRead env st)
      (LibKnown n) (LibState.Grows env) where
  refl := LibState.Grows.refl env
  trans := LibState.Grows.trans
  known hgrows he := (libWalker_remembers env root rpath n hrpath).known hgrows.le he
  follow := by
    rintro st e dep ok st' c ⟨hinv, hdirs⟩ he hdep hfollow
    obtain ⟨hinv', -, hknown⟩ :=
      (libWalker_remembers env root rpath n hrpath).follow hinv he hdep hfollow
    obtain ⟨st₁, hresolved, ⟨rfl, -⟩ | ⟨f, -, -, rfl⟩⟩ := follow_cases hfollow
    · obtain ⟨hdirs', hgrows⟩ := hresolved.grows hdirs
      exact ⟨⟨hinv', hdirs'⟩, hgrows, hknown⟩
    · obtain ⟨hdirs', hgrows⟩ := hresolved.grows hdirs
      refine ⟨⟨hinv', ?_⟩, hgrows.trans LibState.grows_lower, hknown⟩
      rw [DirsRead, LibState.lower_libdirs]
      exact hdirs'
  keys hgrows he := (libWalker_remembers env root rpath n hrpath).keys hgrows.le he

end Grows

/-! ### Entries that are served -/

section Served

variable {env : Surroundings} {st st' : LibState} {P P' Q : CString → Nat → Prop} {e : Nat}

/-- All libraries that an entry needs, directly or by way of others, are resolved to entries with a
given property. -/
def Served (env : Surroundings) (st : LibState) (P : CString → Nat → Prop) (e : Nat) : Prop :=
  ∃ S : Set Nat, e ∈ S ∧ ∀ x ∈ S, x < st.files.length ∧ ∀ dep ∈ (st.needed env x).zipIdx,
    ∃ f ∈ S, st.depFile x dep.2 = some f ∧ P dep.1 f

theorem Served.next (h : Served env st P e) : e < st.files.length ∧
    ∀ dep ∈ (st.needed env e).zipIdx, ∃ f, st.depFile e dep.2 = some f ∧ P dep.1 f ∧
      Served env st P f := by
  obtain ⟨S, he, hS⟩ := h
  refine ⟨(hS e he).1, ?_⟩
  intro dep hdep
  obtain ⟨f, hf, hfile, hP⟩ := (hS e he).2 dep hdep
  exact ⟨f, hfile, hP, S, hf, hS⟩

theorem Served.node (he : e < st.files.length)
    (h : ∀ dep ∈ (st.needed env e).zipIdx, ∃ f, st.depFile e dep.2 = some f ∧ P dep.1 f ∧
      Served env st P f) : Served env st P e := by
  refine ⟨{x | x = e ∨ Served env st P x}, .inl rfl, ?_⟩
  rintro x (rfl | hx)
  · refine ⟨he, ?_⟩
    intro dep hdep
    obtain ⟨f, hfile, hP, hserved⟩ := h dep hdep
    exact ⟨f, .inr hserved, hfile, hP⟩
  · refine ⟨hx.next.1, ?_⟩
    intro dep hdep
    obtain ⟨f, hfile, hP, hserved⟩ := hx.next.2 dep hdep
    exact ⟨f, .inr hserved, hfile, hP⟩

theorem Served.mono (h : Served env st P e) (hle : st.Le st')
    (hP : ∀ {s f}, f < st.files.length → P s f → P' s f) : Served env st' P' e := by
  obtain ⟨S, he, hS⟩ := h
  refine ⟨S, he, ?_⟩
  intro x hx
  obtain ⟨hlt, hdeps⟩ := hS x hx
  refine ⟨hlt.trans_le hle.length_le, ?_⟩
  rw [hle.needed_eq hlt]
  intro dep hdep
  obtain ⟨f, hf, hfile, hPf⟩ := hdeps dep hdep
  exact ⟨f, hf, hle.depFile hfile, hP (hS f hf).1 hPf⟩

theorem Served.and (h : Served env st P e) (h' : Served env st Q e) :
    Served env st (fun s f => P s f ∧ Q s f) e := by
  obtain ⟨S, he, hS⟩ := h
  obtain ⟨S', he', hS'⟩ := h'
  refine ⟨S ∩ S', ⟨he, he'⟩, ?_⟩
  rintro x ⟨hx, hx'⟩
  refine ⟨(hS x hx).1, ?_⟩
  intro dep hdep
  obtain ⟨f, hf, hfile, hP⟩ := (hS x hx).2 dep hdep
  obtain ⟨f', hf', hfile', hQ⟩ := (hS' x hx').2 dep hdep
  obtain rfl := Option.some.inj (hfile.symm.trans hfile')
  exact ⟨f, ⟨hf, hf'⟩, hfile, hP, hQ⟩

/-- The libraries of an entry are extracted no later than the given archive. -/
def InTime (env : Surroundings) (st : LibState) (ziptgt : ZipTgt) (e : Nat) : Prop :=
  Served env st (fun _ f => st.ziptgt f ≤ ziptgt) e

/-- The libraries of an entry are those that a program with the given RPATH finds. -/
def Found (env : Surroundings) (st : LibState) (rpath : Option CString) (e : Nat) : Prop :=
  Served env st (fun soname f => lookupDependency env st.files rpath soname = some f) e

theorem InTime.le {ziptgt : ZipTgt} (h : InTime env st ziptgt e) (hle : st.Le st') :
    InTime env st' ziptgt e :=
  Served.mono h hle fun hf hziptgt => (hle.ziptgt_le hf).trans hziptgt

theorem Found.grows {rpath : Option CString} (h : Found env st rpath e)
    (hgrows : st.Grows env st') : Found env st' rpath e :=
  Served.mono h hgrows.le fun _ hlookup => hgrows.lookup hlookup

end Served

/-! ### One step for a root -/

section Step

variable {env : Surroundings} {root e f n : Nat} {st st' : LibState} {dep : CString × Nat}

theorem LibState.lower_ziptgt (hf : f < st.files.length) (x : Nat) :
    (st.lower root f).ziptgt x =
      if x = f then min (st.ziptgt f) (st.ziptgt root) else st.ziptgt x := by
  unfold LibState.lower
  split
  · next hlt =>
      by_cases hx : x = f
      · subst hx
        rw [if_pos rfl, min_eq_right hlt.le]
        simp [LibState.ziptgt, List.getElem?_eq_getElem hf]
      · rw [if_neg hx]
        simp [LibState.ziptgt, Ne.symm hx]
  · next hnot =>
      split
      · next hx => rw [hx, min_eq_left (not_lt.mp hnot)]
      · rfl

theorem LibState.lower_secondary : (st.lower root f).secondary = st.secondary := by
  unfold LibState.lower
  split <;> rfl

theorem Resolved.unchanged {i : Nat} {soname : CString} (hdirs : DirsRead env st)
    (hroot : root < st.files.length) (h : Resolved env root st e i soname st' (some f)) :
    ∀ x < st.files.length, st'.ziptgt x = st.ziptgt x ∧ st'.secondary x = st.secondary x := by
  intro x hx
  cases h with
  | cached hdep => exact ⟨rfl, rfl⟩
  | found hdep hlookup => exact ⟨rfl, rfl⟩
  | @added st₁ _ hdep hlookup hadd hdep' hlookup' =>
      rcases (hdirs.addDependency hadd).2 with hsame | ⟨q, hfiles, hsecondary, -⟩
      · rw [lookupDependency_congr hsame, (addDependency_le hadd).rpath_eq hroot, hlookup] at hlookup'
        exact nomatch hlookup'
      · have hne : x ≠ st.files.length := Nat.ne_of_lt hx
        refine ⟨?_, ?_⟩
        · simp [LibState.ziptgt, LibState.setDepFile, hfiles, List.getElem?_append_left hx]
        · simp [LibState.setDepFile, hsecondary, hne]

/-- What one root has found is what another one would look up. -/
def Agrees (env : Surroundings) (root : Nat) (v : Visit LibState Nat (CString × Nat)) : Prop :=
  ∀ dep ∈ v.keys.head?, ∀ f ∈ v.state.depFile v.node dep.2,
    lookupDependency env v.state.files (v.state.rpath env root) dep.1 = some f

theorem Resolved.lookup {i : Nat} {soname : CString} (hroot : root < st.files.length)
    (hagrees : ∀ f ∈ st.depFile e i,
      lookupDependency env st.files (st.rpath env root) soname = some f)
    (h : Resolved env root st e i soname st' (some f)) :
    lookupDependency env st'.files (st.rpath env root) soname = some f := by
  cases h with
  | cached hdep => exact hagrees f hdep
  | found hdep hlookup => exact hlookup
  | added hdep hlookup hadd hdep' hlookup' =>
      rwa [(addDependency_le hadd).rpath_eq hroot] at hlookup'

/-- What a step of the walker does if the library is resolved and nothing has gone wrong before. -/
structure StepTaken (env : Surroundings) (root : Nat) (ziptgt : ZipTgt) (st : LibState)
    (soname : CString) (f : Nat) (st' : LibState) : Prop where
  lookup : lookupDependency env st'.files (st.rpath env root) soname = some f
  inTime : st'.ziptgt f ≤ ziptgt
  ziptgt : ∀ x < st.files.length,
    st'.ziptgt x = st.ziptgt x ∨ x = f ∧ st'.ziptgt x = ziptgt
  secondary : ∀ x < st.files.length, st'.secondary x = st.secondary x

theorem follow_taken (hdirs : DirsRead env st) (hroot : root < st.files.length)
    (hagrees : ∀ f ∈ st.depFile e dep.2,
      lookupDependency env st.files (st.rpath env root) dep.1 = some f)
    (hknown : f < st'.files.length)
    (h : (libWalker env root).follow st e dep true = (st', some f)) :
    StepTaken env root (st.ziptgt root) st dep.1 f st' := by
  obtain ⟨st₁, hresolved, ⟨-, hnone | hfalse⟩ | ⟨f', hf', -, rfl⟩⟩ := follow_cases h
  · exact nomatch hnone
  · exact nomatch hfalse
  · obtain rfl := Option.some.inj hf'
    have hlength : (st₁.lower root f).files.length = st₁.files.length := by
      rw [← List.length_map (f := Entry.key), map_key_lower, List.length_map]
    have hf : f < st₁.files.length := hlength ▸ hknown
    have hsame := hresolved.unchanged hdirs hroot
    refine ⟨?_, ?_, ?_, ?_⟩
    · rw [lookupDependency_congr map_key_lower]
      exact hresolved.lookup hroot hagrees
    · rw [LibState.lower_ziptgt hf, if_pos rfl, (hsame root hroot).1]
      exact min_le_right _ _
    · intro x hx
      rw [LibState.lower_ziptgt hf]
      split
      · next hxf =>
          subst hxf
          rw [(hsame root hroot).1, (hsame x hx).1]
          rcases le_total (st.ziptgt x) (st.ziptgt root) with hle | hle
          · exact .inl (min_eq_left hle)
          · exact .inr ⟨rfl, min_eq_right hle⟩
      · exact .inl (hsame x hx).1
    · intro x hx
      rw [LibState.lower_secondary]
      exact (hsame x hx).2

/-! ### The whole resolution for a root -/

/-- What the resolution for a root does to the entries that were there before: some are moved to the
archive of the root, together with all their libraries. -/
structure Moved (env : Surroundings) (ziptgt : ZipTgt) (st st' : LibState) : Prop where
  grows : st.Grows env st'
  ziptgt : ∀ x < st.files.length,
    st'.ziptgt x = st.ziptgt x ∨ st'.ziptgt x = ziptgt ∧ InTime env st' ziptgt x
  secondary : ∀ x < st.files.length, st'.secondary x = st.secondary x

theorem Moved.refl (env : Surroundings) (ziptgt : ZipTgt) (st : LibState) :
    Moved env ziptgt st st :=
  ⟨.refl env st, fun _ _ => .inl rfl, fun _ _ => rfl⟩

theorem Moved.trans {ziptgt : ZipTgt} {st'' : LibState} (h : Moved env ziptgt st st')
    (h' : Moved env ziptgt st' st'') : Moved env ziptgt st st'' where
  grows := h.grows.trans h'.grows
  ziptgt := by
    intro x hx
    have hx' := hx.trans_le h.grows.le.length_le
    rcases h'.ziptgt x hx' with hsame' | hmoved'
    · rw [hsame']
      rcases h.ziptgt x hx with hsame | ⟨hziptgt, hinTime⟩
      · exact .inl hsame
      · exact .inr ⟨hziptgt, hinTime.le h'.grows.le⟩
    · exact .inr hmoved'
  secondary := by
    intro x hx
    rw [h'.secondary x (hx.trans_le h.grows.le.length_le), h.secondary x hx]

theorem Moved.root_ziptgt (h : Moved env (st.ziptgt root) st st') (hroot : root < st.files.length) :
    st'.ziptgt root = st.ziptgt root := by
  rcases h.ziptgt root hroot with hsame | ⟨hziptgt, -⟩
  · exact hsame
  · exact hziptgt

/-- If the resolution for a root succeeds and never takes over a library that the root would not find
itself, then all its libraries are found by it and are extracted in time. -/
theorem resolveDependencies_success {fuel : Nat} (hvalid : st.Valid) (hdirs : DirsRead env st)
    (hroot : root < st.files.length)
    (hagrees : ∀ v, (libWalker env root).Visits st root v → Agrees env root v)
    (hresult : resolveDependencies env root fuel st [] root = some (st', true)) :
    Moved env (st.ziptgt root) st st' ∧ Found env st' (st.rpath env root) root ∧
      InTime env st' (st.ziptgt root) root ∧ DirsRead env st' := by
  have hkeeps := libWalker_keeps env root (st.rpath env root) st.files.length mem_rootTargets_rpath
  have hinv₀ := (⟨hvalid.libInv hroot, hdirs⟩ :
    LibInv env root (st.rpath env root) st.files.length (rootTargets env root st) st ∧ _)
  obtain ⟨⟨-, hdirs'⟩, -⟩ := hkeeps.traverse hinv₀ (libKnown_root hroot) hresult
  suffices hmain : st.ziptgt root = st.ziptgt root → Moved env (st.ziptgt root) st st' ∧
      Found env st' (st.rpath env root) root ∧ InTime env st' (st.ziptgt root) root by
    obtain ⟨hmoved, hfound, hinTime⟩ := hmain rfl
    exact ⟨hmoved, hfound, hinTime, hdirs'⟩
  refine hkeeps.success
    (M := fun s x t => s.ziptgt root = st.ziptgt root → Moved env (st.ziptgt root) s t ∧
      Found env t (st.rpath env root) x ∧ InTime env t (st.ziptgt root) x)
    (K := fun s x deps t => s.ziptgt root = st.ziptgt root → Moved env (st.ziptgt root) s t ∧
      ∀ dep ∈ deps, ∃ f, t.depFile x dep.2 = some f ∧
        (lookupDependency env t.files (st.rpath env root) dep.1 = some f ∧
          Found env t (st.rpath env root) f) ∧
        t.ziptgt f ≤ st.ziptgt root ∧ InTime env t (st.ziptgt root) f)
    ?_ ?_ ?_ hinv₀ (libKnown_root hroot) .refl hresult
  · intro s x _
    exact ⟨.refl env _ s, fun dep hdep => nomatch hdep⟩
  · intro s s' s'' t chain x c dep deps hvisits hgood hfollow hinv' hM hK hs
    obtain ⟨⟨hinv, hread⟩, hknown, hkeys⟩ := hgood
    have hlt := hinv.root_lt
    obtain ⟨-, hgrows, hc⟩ := hkeeps.follow ⟨hinv, hread⟩ (hknown x List.mem_cons_self)
      (hkeys dep List.mem_cons_self) hfollow
    have hstep := follow_taken hread hlt (hagrees _ hvisits dep rfl) (hc c rfl).lt hfollow
    rw [hs] at hstep
    have hlookup : lookupDependency env s'.files (st.rpath env root) dep.1 = some c := by
      rw [← hinv.rpath_eq]
      exact hstep.lookup
    have hs' : s'.ziptgt root = st.ziptgt root := by
      rcases hstep.ziptgt root hlt with hsame | ⟨-, hmoved⟩
      · rw [hsame, hs]
      · exact hmoved
    obtain ⟨hmoved₁, hfound₁, hinTime₁⟩ := hM hs'
    have hs'' : s''.ziptgt root = st.ziptgt root := by
      rw [← hs'] at hmoved₁
      rw [hmoved₁.root_ziptgt (hlt.trans_le hgrows.le.length_le), hs']
    obtain ⟨hmoved₂, hdeps⟩ := hK hs''
    have hmoved := hmoved₁.trans hmoved₂
    refine ⟨⟨hgrows.trans hmoved.grows, ?_, ?_⟩, ?_⟩
    · intro y hy
      rcases hstep.ziptgt y hy with hsame | ⟨rfl, hlowered⟩
      · rw [← hsame]
        exact hmoved.ziptgt y (hy.trans_le hgrows.le.length_le)
      · -- the library that has just been moved, and all that it needs
        rcases hmoved.ziptgt y (hy.trans_le hgrows.le.length_le) with hsame' | hmoved'
        · exact .inr ⟨hsame'.trans hlowered, hinTime₁.le hmoved₂.grows.le⟩
        · exact .inr hmoved'
    · intro y hy
      rw [hmoved.secondary y (hy.trans_le hgrows.le.length_le), hstep.secondary y hy]
    · intro dep' hdep'
      rcases List.mem_cons.mp hdep' with rfl | hdep'
      · refine ⟨c, hmoved.grows.le.depFile (follow_depFile hfollow), ⟨?_, ?_⟩, ?_, ?_⟩
        · exact hmoved.grows.lookup hlookup
        · exact hfound₁.grows hmoved₂.grows
        · exact (hmoved.grows.le.ziptgt_le (hc c rfl).lt).trans hstep.inTime
        · exact hinTime₁.le hmoved₂.grows.le
      · exact hdeps dep' hdep'
  · intro s x t hinv hx hK hs
    obtain ⟨hmoved, hdeps⟩ := hK hs
    have hlt : x < t.files.length := hx.lt.trans_le hmoved.grows.le.length_le
    have hneeded : t.needed env x = s.needed env x := hmoved.grows.le.needed_eq hx.lt
    refine ⟨hmoved, Served.node hlt ?_, Served.node hlt ?_⟩
    · rw [hneeded]
      intro dep hdep
      obtain ⟨f, hfile, hfound, -⟩ := hdeps dep hdep
      exact ⟨f, hfile, hfound.1, hfound.2⟩
    · rw [hneeded]
      intro dep hdep
      obtain ⟨f, hfile, -, hinTime⟩ := hdeps dep hdep
      exact ⟨f, hfile, hinTime.1, hinTime.2⟩

end Step

/-! ### All roots -/

section Loop

variable {env : Surroundings} {files : List Entry} {st₀ st st' : LibState} {e fuel steps n : Nat}
  {ok ok' : Bool}

/-- The libraries that the loader looks for when it starts a program. -/
inductive LoaderNeeds (env : Surroundings) (st : LibState) (r : Nat) : CString → Prop
  | direct {soname : CString} (hneeded : soname ∈ st.needed env r) : LoaderNeeds env st r soname
  | byLibrary {soname soname' : CString} {f : Nat} (h : LoaderNeeds env st r soname)
      (hlookup : lookupDependency env st.files (st.rpath env r) soname = some f)
      (hneeded : soname' ∈ st.needed env f) : LoaderNeeds env st r soname'

/-- Every library that the loader looks for is in the archive of the program or in an earlier one,
where the loader finds it. -/
def LoaderSound (env : Surroundings) (st : LibState) (r : Nat) : Prop :=
  ∀ soname, LoaderNeeds env st r soname →
    ∃ p ∈ st.files, p.Provides env (st.rpath env r) soname ∧ p.ziptgt ≤ st.ziptgt r

theorem loaderSound_of_served {r : Nat} (hfound : Found env st (st.rpath env r) r)
    (hinTime : InTime env st (st.ziptgt r) r) : LoaderSound env st r := by
  have hserved := Served.and hfound hinTime
  intro soname hneeds
  suffices hlookup : ∃ f, lookupDependency env st.files (st.rpath env r) soname = some f ∧
      st.ziptgt f ≤ st.ziptgt r ∧ Served env st (fun soname f =>
        lookupDependency env st.files (st.rpath env r) soname = some f ∧
          st.ziptgt f ≤ st.ziptgt r) f by
    obtain ⟨f, hlookup, hziptgt, -⟩ := hlookup
    obtain ⟨p, hp, hprovides⟩ := lookupDependency_provides hlookup
    refine ⟨p, List.mem_of_getElem? hp, hprovides, ?_⟩
    rwa [LibState.ziptgt, hp] at hziptgt
  -- one of the needed libraries of an entry that is served
  have hnext {x : Nat} {soname : CString} (hx : Served env st (fun soname f =>
        lookupDependency env st.files (st.rpath env r) soname = some f ∧
          st.ziptgt f ≤ st.ziptgt r) x) (hneeded : soname ∈ st.needed env x) :
      ∃ f, lookupDependency env st.files (st.rpath env r) soname = some f ∧
        st.ziptgt f ≤ st.ziptgt r ∧ Served env st (fun soname f =>
          lookupDependency env st.files (st.rpath env r) soname = some f ∧
            st.ziptgt f ≤ st.ziptgt r) f := by
    obtain ⟨i, hi⟩ := List.mem_iff_getElem?.mp hneeded
    have hdep : (soname, i) ∈ (st.needed env x).zipIdx := List.mem_zipIdx_iff_getElem?.mpr hi
    obtain ⟨f, -, ⟨hlookup, hziptgt⟩, hf⟩ := hx.next.2 _ hdep
    exact ⟨f, hlookup, hziptgt, hf⟩
  induction hneeds with
  | direct hneeded => exact hnext hserved hneeded
  | byLibrary _ hlookup hneeded ih =>
      obtain ⟨f, hlookup', -, hf⟩ := ih
      obtain rfl := Option.some.inj (hlookup.symm.trans hlookup')
      exact hnext hf hneeded

/-- Whenever a root comes to a library that has been resolved before, it would find the same entry
by itself. -/
def AllAgree (env : Surroundings) (st₀ : LibState) : Prop :=
  ∀ e st ok v, LoopAt env st₀ e st ok → e < st.files.length → st.primary env e = true →
    (libWalker env e).Visits st e v → Agrees env e v

/-- What holds at a point of a loop in which nothing has gone wrong: the ELF files before that point
are served. -/
structure SoundLoop (env : Surroundings) (n e : Nat) (st : LibState) : Prop where
  inv : LoopInv n st
  dirs : DirsRead env st
  secondary : ∀ j < n, st.secondary j = false
  served : ∀ r < e, r < n → (st.files[r]?.bind (Entry.soname env)).isSome →
    Found env st (st.rpath env r) r ∧ InTime env st (st.ziptgt r) r

theorem SoundLoop.root (h : SoundLoop env n e st) (he : e < st.files.length)
    (hagrees : ∀ v, (libWalker env e).Visits st e v → Agrees env e v)
    (hresult : resolveDependencies env e fuel st [] e = some (st', true)) :
    SoundLoop env n (e + 1) st' := by
  obtain ⟨hmoved, hfound, hinTime, hdirs'⟩ :=
    resolveDependencies_success h.inv.valid h.dirs he hagrees hresult
  refine ⟨h.inv.root he hresult, hdirs', ?_, ?_⟩
  · intro j hj
    rw [hmoved.secondary j (hj.trans_le h.inv.length), h.secondary j hj]
  · intro r hr hn helf
    have hlt := hn.trans_le h.inv.length
    rw [hmoved.grows.le.rpath_eq hlt]
    by_cases hre : r = e
    · subst hre
      rw [hmoved.root_ziptgt he]
      exact ⟨hfound, hinTime⟩
    · have helf' : (st.files[r]?.bind (Entry.soname env)).isSome := by
        obtain ⟨q, hq, hmoves⟩ := hmoved.grows.le.files (List.getElem?_eq_getElem hlt)
        rw [hq, Option.bind_some, hmoves.soname_eq] at helf
        rw [List.getElem?_eq_getElem hlt, Option.bind_some]
        exact helf
      obtain ⟨hfound', hinTime'⟩ := h.served r (by omega) hn helf'
      refine ⟨hfound'.grows hmoved.grows, ?_⟩
      rcases hmoved.ziptgt r hlt with hsame | ⟨hziptgt, hlowered⟩
      · rw [hsame]
        exact hinTime'.le hmoved.grows.le
      · rw [hziptgt]
        exact hlowered

theorem SoundLoop.skip (h : SoundLoop env n e st) (he : e < st.files.length)
    (hprimary : st.primary env e = false) : SoundLoop env n (e + 1) st := by
  refine ⟨h.inv, h.dirs, h.secondary, ?_⟩
  intro r hr hn helf
  refine h.served r ?_ hn helf
  by_contra hnot
  obtain rfl : r = e := by omega
  rw [LibState.primary, helf, h.secondary r hn] at hprimary
  simp at hprimary

theorem SoundLoop.loopAt (hagree : AllAgree env st₀) (h : SoundLoop env n 0 st₀)
    (hat : LoopAt env st₀ e st ok) (hok : ok = true) : SoundLoop env n e st := by
  induction hat with
  | start => exact h
  | skip _ he hprimary ih => exact (ih hok).skip he hprimary
  | root hat he hprimary hresult ih =>
      obtain ⟨hok₁, rfl⟩ := Bool.and_eq_true_iff.mp hok
      exact (ih hok₁).root he (fun v => hagree _ _ _ v hat he hprimary) hresult

theorem LoopAt.of_resolveLoop (hat : LoopAt env st₀ e st ok)
    (h : resolveLoop env fuel steps e st ok = some (st', ok')) :
    ∃ e', LoopAt env st₀ e' st' ok' ∧ st'.files.length ≤ e' := by
  induction steps generalizing e st ok with
  | zero => exact nomatch h
  | succ steps ih =>
      by_cases he : e < st.files.length
      · cases hprimary : st.primary env e with
        | false =>
            rw [resolveLoop_skip he hprimary] at h
            exact ih (hat.skip he hprimary) h
        | true =>
            rw [resolveLoop_root he hprimary] at h
            obtain ⟨r, hr, hrest⟩ := Option.bind_eq_some_iff.mp h
            exact ih (hat.root he hprimary hr) hrest
      · rw [resolveLoop_end he] at h
        obtain ⟨rfl, rfl⟩ := Prod.mk.inj (Option.some.inj h)
        exact ⟨e, hat, not_lt.mp he⟩

theorem SoundLoop.init (env : Surroundings) (files : List Entry) :
    SoundLoop env files.length 0 (initLibState env files) where
  inv := .init env files
  dirs := by
    intro dir hdir
    simp only [initLibState, List.mem_cons, List.not_mem_nil, or_false] at hdir
    rcases hdir with rfl | rfl
    · rfl
    · rfl
  secondary _ _ := rfl
  served r hr := absurd hr (Nat.not_lt_zero r)

/-- If the resolution succeeds, and no root takes over a library that it would not find itself, then
every ELF file finds all its libraries in time. -/
theorem resolveLibraryDependencies_sound
    (hresult : resolveLibraryDependencies env fuel files = some (st, true))
    (hagree : AllAgree env (initLibState env files)) {r : Nat} {p : Entry}
    (hr : files[r]? = some p) (helf : (p.soname env).isSome) : LoaderSound env st r := by
  obtain ⟨e, hat, he⟩ := LoopAt.of_resolveLoop .start hresult
  have hsound := (SoundLoop.init env files).loopAt hagree hat rfl
  have hn : r < files.length := (List.getElem?_eq_some_iff.mp hr).1
  obtain ⟨q, hq, hmoves⟩ := ((LoopInv.init env files).le_loopAt hat).files hr
  have helf' : (st.files[r]?.bind (Entry.soname env)).isSome := by
    rw [hq, Option.bind_some, hmoves.soname_eq]
    exact helf
  have hlt : r < e := hn.trans_le (hsound.inv.length.trans he)
  obtain ⟨hfound, hinTime⟩ := hsound.served r hlt hn helf'
  exact loaderSound_of_served hfound hinTime

end Loop

/-! ### Programs with the same RPATH -/

section SameRpath

variable {env : Surroundings} {files : List Entry} {st₀ st st' : LibState} {root e i f : Nat}
  {rpath : Option CString} {ok : Bool}

/-- Everything that has been resolved is what a program with the given RPATH finds. -/
structure CacheInv (env : Surroundings) (rpath : Option CString) (st : LibState) : Prop where
  lt : ∀ {x i f : Nat}, st.depFile x i = some f → x < st.files.length
  lookup : ∀ {x i f : Nat} {soname : CString}, st.depFile x i = some f →
    (st.needed env x)[i]? = some soname → lookupDependency env st.files rpath soname = some f

theorem CacheInv.grows (h : CacheInv env rpath st) (hgrows : st.Grows env st')
    (hdep : st'.depFile = st.depFile) : CacheInv env rpath st' where
  lt := by
    intro x i f hf
    rw [hdep] at hf
    exact (h.lt hf).trans_le hgrows.le.length_le
  lookup := by
    intro x i f soname hf hneeded
    rw [hdep] at hf
    rw [hgrows.le.needed_eq (h.lt hf)] at hneeded
    exact hgrows.lookup (h.lookup hf hneeded)

theorem CacheInv.setDepFile (h : CacheInv env rpath st) (he : e < st.files.length)
    {soname : CString} (hneeded : (st.needed env e)[i]? = some soname)
    (hlookup : lookupDependency env st.files rpath soname = some f) :
    CacheInv env rpath (st.setDepFile e i f) := by
  have hcases {x j g : Nat} (hg : (st.setDepFile e i f).depFile x j = some g) :
      x = e ∧ j = i ∧ g = f ∨ st.depFile x j = some g := by
    by_cases hx : x = e
    · subst hx
      by_cases hj : j = i
      · subst hj
        rw [LibState.setDepFile_self] at hg
        exact .inl ⟨rfl, rfl, (Option.some.inj hg).symm⟩
      · exact .inr (by simpa [LibState.setDepFile, hj] using hg)
    · exact .inr (by simpa [LibState.setDepFile, hx] using hg)
  refine ⟨?_, ?_⟩
  · intro x j g hg
    rcases hcases hg with ⟨rfl, -, -⟩ | hold
    · exact he
    · exact h.lt hold
  · intro x j g soname' hg hneeded'
    rcases hcases hg with ⟨rfl, rfl, rfl⟩ | hold
    · obtain rfl := Option.some.inj (hneeded.symm.trans hneeded')
      exact hlookup
    · exact h.lookup hold hneeded'

theorem CacheInv.resolved (h : CacheInv env rpath st) (hdirs : DirsRead env st)
    (hroot : root < st.files.length) (hrpath : st.rpath env root = rpath)
    (he : e < st.files.length) {soname : CString} (hneeded : (st.needed env e)[i]? = some soname)
    {r : Option Nat} (hresolved : Resolved env root st e i soname st' r) :
    CacheInv env rpath st' := by
  cases hresolved with
  | cached hdep => exact h
  | found hdep hlookup => exact h.setDepFile he hneeded (hrpath ▸ hlookup)
  | added hdep hlookup hadd hdep' hlookup' =>
      have hgrows := hdirs.grows_of_addDependency hlookup hadd
      rw [hgrows.le.rpath_eq hroot, hrpath] at hlookup'
      rw [← hgrows.le.needed_eq he] at hneeded
      exact (h.grows hgrows (addDependency_depFile hadd)).setDepFile
        (he.trans_le hgrows.le.length_le) hneeded hlookup'
  | missing hdep hlookup hadd =>
      exact h.grows (hdirs.grows_of_addDependency hlookup hadd) (addDependency_depFile hadd)

theorem LibState.lower_depFile : (st.lower root f).depFile = st.depFile := by
  unfold LibState.lower
  split <;> rfl

theorem libWalker_keeps_cache (env : Surroundings) (root : Nat) (rpath : Option CString) (n : Nat)
    {targets : List CString}
    (hrpath : ∀ path ∈ rpath, ∀ lib ∈ (ldconfig env path false).libraries,
      libTarget env (ldconfig env path false) lib ∈ targets) :
    (libWalker env root).Keeps
      (fun st => (LibInv env root rpath n targets st ∧ DirsRead env st) ∧ CacheInv env rpath st)
      (LibKnown n) (LibState.Grows env) where
  refl := LibState.Grows.refl env
  trans := LibState.Grows.trans
  known := (libWalker_keeps env root rpath n hrpath).known
  follow := by
    rintro st e dep ok st' c ⟨⟨hinv, hdirs⟩, hcache⟩ he hdep hfollow
    obtain ⟨hinv', hgrows, hknown⟩ :=
      (libWalker_keeps env root rpath n hrpath).follow ⟨hinv, hdirs⟩ he hdep hfollow
    refine ⟨⟨hinv', ?_⟩, hgrows, hknown⟩
    obtain ⟨st₁, hresolved, hst'⟩ := follow_cases hfollow
    have hcache₁ := hcache.resolved hdirs hinv.root_lt hinv.rpath_eq he.lt
      (List.mem_zipIdx_iff_getElem?.mp hdep) hresolved
    rcases hst' with ⟨rfl, -⟩ | ⟨f, -, -, rfl⟩
    · exact hcache₁
    · exact hcache₁.grows LibState.grows_lower LibState.lower_depFile
  keys := (libWalker_keeps env root rpath n hrpath).keys

theorem CacheInv.agrees (hdirs : DirsRead env st) (hvalid : st.Valid)
    (hroot : root < st.files.length) (h : CacheInv env (st.rpath env root) st)
    {v : Visit LibState Nat (CString × Nat)} (hvisits : (libWalker env root).Visits st root v) :
    Agrees env root v := by
  have hkeeps := libWalker_keeps_cache env root (st.rpath env root) st.files.length
    mem_rootTargets_rpath
  obtain ⟨⟨⟨⟨hinv, -⟩, hcache⟩, -, hkeys⟩, -⟩ :=
    hkeeps.visits ⟨⟨hvalid.libInv hroot, hdirs⟩, h⟩ (libKnown_root hroot) hvisits
  intro dep hdep f hf
  rw [hinv.rpath_eq]
  refine hcache.lookup hf (List.mem_zipIdx_iff_getElem?.mp ?_)
  exact hkeys dep (List.mem_of_mem_head? hdep)

/-- If all ELF files of the list have the same RPATH, no root takes over a library that it would not
find itself. -/
theorem allAgree_of_rpath
    (h : ∀ p ∈ files, (p.soname env).isSome → p.rpath env = rpath) :
    AllAgree env (initLibState env files) := by
  have hinit := LoopInv.init env files
  have hdirs₀ := (SoundLoop.init env files).dirs
  have hcache₀ : CacheInv env rpath (initLibState env files) := by
    refine ⟨?_, ?_⟩
    · intro x i f hf
      exact nomatch hf
    · intro x i f soname hf
      exact nomatch hf
  -- the roots are entries of the list
  have hroot {e : Nat} {st : LibState} {ok : Bool} (hat : LoopAt env (initLibState env files) e st ok)
      (he : e < st.files.length) (hprimary : st.primary env e = true) :
      st.rpath env e = rpath := by
    have hinv := hinit.loopAt hat
    have hprimary' : (st.files[e]?.bind (Entry.soname env)).isSome ∧ st.secondary e = false := by
      simpa [LibState.primary] using hprimary
    have hn : e < files.length := by
      by_contra hnot
      rw [hinv.late (not_lt.mp hnot) he] at hprimary'
      exact Bool.noConfusion hprimary'.2
    have hle := hinit.le_loopAt hat
    have hfile : (initLibState env files).files[e]? = some files[e] := List.getElem?_eq_getElem hn
    obtain ⟨q, hq, hmoves⟩ := hle.files hfile
    rw [hq, Option.bind_some, hmoves.soname_eq] at hprimary'
    have hrpath := h files[e] (List.getElem_mem hn) hprimary'.1
    rw [hle.rpath_eq hn, LibState.rpath, hfile, Option.bind_some]
    exact hrpath
  have hloop {e : Nat} {st : LibState} {ok : Bool} (hat : LoopAt env (initLibState env files) e st ok) :
      DirsRead env st ∧ CacheInv env rpath st := by
    induction hat with
    | start => exact ⟨hdirs₀, hcache₀⟩
    | skip _ _ _ ih => exact ih
    | @root e _ st st' _ _ hat he hprimary hresult ih =>
        have hkeeps := libWalker_keeps_cache env e (st.rpath env e) st.files.length
          mem_rootTargets_rpath
        have hrpath := hroot hat he hprimary
        obtain ⟨⟨⟨-, hdirs'⟩, hcache'⟩, -⟩ := hkeeps.traverse
          ⟨⟨LibState.Valid.libInv (hinit.loopAt hat).valid he, ih.1⟩, hrpath ▸ ih.2⟩
          (libKnown_root he) hresult
        exact ⟨hdirs', hrpath ▸ hcache'⟩
  intro e st ok v hat he hprimary hvisits
  obtain ⟨hdirs, hcache⟩ := hloop hat
  rw [← hroot hat he hprimary] at hcache
  exact hcache.agrees hdirs (hinit.loopAt hat).valid he hvisits

/-- The programs `bin/p` and `bin/q` need `x.so`, which needs `y.so`; both are in `/lib`. -/
def sampleSurroundings : Surroundings where
  cfg := { configDirWithSlashes := "config/".toList, uidArray := [], gidArray := [] }
  readelf file :=
    if file = "opt/bin/p".toList ∨ file = "opt/bin/q".toList then some ⟨none, none, ["x.so".toList]⟩
    else if file = "opt/lib/x.so".toList then some ⟨some "x.so".toList, none, ["y.so".toList]⟩
    else if file = "opt/lib/y.so".toList then some ⟨some "y.so".toList, none, []⟩
    else none
  readdir dir := if dir = "opt/lib".toList then ["x.so".toList, "y.so".toList] else []
  readdir_name dir name h := by
    have hnames : ∀ name ∈ ["x.so".toList, "y.so".toList], name ≠ [] ∧ '/' ∉ name := by decide
    split at h
    · exact hnames name h
    · exact nomatch h

/-- The second program takes over both libraries from the first one. -/
theorem resolveLibraryDependencies_sound_sample :
    ∃ st, resolveLibraryDependencies sampleSurroundings 6
        [sampleEntry "bin/p" .rootfs, sampleEntry "bin/q" .rootfs] = some (st, true) ∧
      LoaderSound sampleSurroundings st 1 := by
  have hrun : (resolveLibraryDependencies sampleSurroundings 6
      [sampleEntry "bin/p" .rootfs, sampleEntry "bin/q" .rootfs]).map Prod.snd = some true := by decide
  obtain ⟨⟨st, ok⟩, hresult, rfl⟩ := Option.map_eq_some_iff.mp hrun
  have hrpath : ∀ p ∈ [sampleEntry "bin/p" .rootfs, sampleEntry "bin/q" .rootfs],
      (p.soname sampleSurroundings).isSome → p.rpath sampleSurroundings = none := by decide
  exact ⟨st, hresult,
    resolveLibraryDependencies_sound hresult (allAgree_of_rpath hrpath) rfl (by decide)⟩

/-- Two programs need `x.so`, which needs `y.so`.  The first one has an RPATH, and `y.so` is there
only. -/
def rpathSurroundings : Surroundings where
  cfg := { configDirWithSlashes := "config/".toList, uidArray := [], gidArray := [] }
  readelf file :=
    if file = "opt/bin/p".toList then some ⟨none, some "/usr/p".toList, ["x.so".toList]⟩
    else if file = "opt/bin/q".toList then some ⟨none, none, ["x.so".toList]⟩
    else if file = "opt/lib/x.so".toList then some ⟨some "x.so".toList, none, ["y.so".toList]⟩
    else if file = "opt/usr/p/y.so".toList then some ⟨some "y.so".toList, none, []⟩
    else none
  readdir dir :=
    if dir = "opt/lib".toList then ["x.so".toList]
    else if dir = "opt/usr/p".toList then ["y.so".toList]
    else []
  readdir_name dir name h := by
    have hnames : ∀ name ∈ ["x.so".toList, "y.so".toList], name ≠ [] ∧ '/' ∉ name := by decide
    split at h
    · exact hnames name (List.mem_cons.mpr (.inl (List.mem_singleton.mp h)))
    · split at h
      · exact hnames name (List.mem_cons_of_mem _ h)
      · exact nomatch h

/-- The second program takes over the library `y.so` from the RPATH of the first one, where its loader
does not look. -/
theorem resolveLibraryDependencies_rpath :
    ∃ st, resolveLibraryDependencies rpathSurroundings 9
        [sampleEntry "bin/p" .opt, sampleEntry "bin/q" .opt] = some (st, true) ∧
      ¬ LoaderSound rpathSurroundings st 1 := by
  have hrun : (resolveLibraryDependencies rpathSurroundings 9
      [sampleEntry "bin/p" .opt, sampleEntry "bin/q" .opt]).map (fun r => (r.1.files, r.2)) =
        some ([sampleEntry "bin/p" .opt, sampleEntry "bin/q" .opt, sampleEntry "lib/x.so" .opt,
          sampleEntry "usr/p/y.so" .opt], true) := by decide
  obtain ⟨⟨st, ok⟩, hresult, hstate⟩ := Option.map_eq_some_iff.mp hrun
  obtain ⟨hfiles, rfl⟩ := Prod.mk.inj hstate
  refine ⟨st, hresult, ?_⟩
  intro hsound
  have hx : LoaderNeeds rpathSurroundings st 1 "x.so".toList := by
    refine .direct ?_
    rw [LibState.needed, hfiles]
    decide
  have hy : LoaderNeeds rpathSurroundings st 1 "y.so".toList := by
    refine .byLibrary (f := 2) hx ?_ ?_
    · rw [LibState.rpath, hfiles]
      decide
    · rw [LibState.needed, hfiles]
      decide
  obtain ⟨p, hp, hprovides, -⟩ := hsound _ hy
  have hrpath : st.rpath rpathSurroundings 1 = none := by
    rw [LibState.rpath, hfiles]
    decide
  rw [hfiles] at hp
  -- the only entry with that SONAME is in neither of the two directories
  have hnowhere : ∀ p ∈ [sampleEntry "bin/p" .opt, sampleEntry "bin/q" .opt,
      sampleEntry "lib/x.so" .opt, sampleEntry "usr/p/y.so" .opt], p.entryType ≠ .symlink ∧
      (p.soname rpathSurroundings = some "y.so".toList →
        inLibdir p.target libPath = false ∧ inLibdir p.target usrLibPath = false) := by decide
  obtain ⟨htype, hdirs⟩ := hnowhere p hp
  rcases hprovides with ⟨hsoname, ⟨path, hpath, -⟩ | hlib | husr⟩ | ⟨hlink, -⟩
  · rw [hrpath] at hpath
    exact absurd hpath (Option.not_mem_none path)
  · rw [(hdirs hsoname).1] at hlib
    exact Bool.noConfusion hlib
  · rw [(hdirs hsoname).2] at husr
    exact Bool.noConfusion husr
  · exact htype hlink

end SameRpath

end Ziplist
end Mkfli4l
