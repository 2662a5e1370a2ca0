import Mkfli4l.Lib.Traversal
import Mkfli4l.Ziplist.Opt

/-!
# The libraries that programs need

After all packages have been read, `resolve_library_dependencies` goes through the list of archive
entries.  For every ELF file that was asked for it looks up the libraries the file needs, the
libraries these need, and so on.  A library that is not in the list is searched for in the
directory that the RPATH of the program names, in `/lib` and in `/usr/lib`, and put into the list.
Every entry remembers the entries that its needed libraries have been resolved to.

The recursion keeps the chain of entries that led to a library, but only for its messages.
-/

namespace Mkfli4l
namespace Ziplist

open Lib

/-- `struct readelf_descriptor`: what an ELF file says about itself. -/
structure ElfInfo where
  soname : Option CString
  rpath : Option CString
  needed : List CString

/-- The file system: the descriptor of a file if it is an ELF file, and the names in a directory. -/
structure Surroundings where
  cfg : Settings
  readelf : CString → Option ElfInfo
  readdir : CString → List CString
  readdir_name : ∀ dir, ∀ name ∈ readdir dir, name ≠ [] ∧ '/' ∉ name

/-- The last component of a path, as the library function `basename` has it. -/
def basename (path : CString) : CString :=
  let trimmed := path.reverse.dropWhile (· == '/')
  if path = [] then ['.']
  else if trimmed = [] then ['/']
  else (trimmed.takeWhile (· != '/')).reverse

/-! ### The fields that `load_elf_info` sets -/

def Entry.soname (env : Surroundings) (p : Entry) : Option CString :=
  (env.readelf p.filename).map fun desc => desc.soname.getD (basename p.target)

def Entry.rpath (env : Surroundings) (p : Entry) : Option CString :=
  (env.readelf p.filename).bind ElfInfo.rpath

def Entry.needed (env : Surroundings) (p : Entry) : List CString :=
  ((env.readelf p.filename).map ElfInfo.needed).getD []

/-! ### Library directories -/

/-- `struct lib_t`. -/
structure LibFile where
  name : CString
  soname : CString

structure LibDir where
  path : CString
  dirname : CString
  isGlobal : Bool
  libraries : List LibFile

/-- The libraries in a directory. -/
def readLibraries (env : Surroundings) (dirname : CString) : List LibFile :=
  (env.readdir dirname).filterMap fun name =>
    (env.readelf (dirname ++ '/' :: name)).map fun desc => ⟨name, desc.soname.getD name⟩

/-- The directory that `ldconfig` adds. -/
def ldconfig (env : Surroundings) (path : CString) (isGlobal : Bool) : LibDir :=
  let dirname := ['o', 'p', 't'] ++ path
  { path, dirname, isGlobal, libraries := readLibraries env dirname }

/-- `/lib` and `/usr/lib`. -/
def libPath : CString := ['/', 'l', 'i', 'b']
@[inherit_doc libPath] def usrLibPath : CString := ['/', 'u', 's', 'r', '/', 'l', 'i', 'b']

/-- What the resolution works on: the list of entries, their fields `secondary` and
`needed[i].file`, and `libdir_array`.  An entry is known by its position in the list. -/
structure LibState where
  files : List Entry
  secondary : Nat → Bool
  depFile : Nat → Nat → Option Nat
  libdirs : List LibDir

namespace LibState

variable (env : Surroundings) (st : LibState)

def rpath (e : Nat) : Option CString := st.files[e]?.bind (Entry.rpath env)

def needed (e : Nat) : List CString := (st.files[e]?.map (Entry.needed env)).getD []

def ziptgt (e : Nat) : ZipTgt := (st.files[e]?.map Entry.ziptgt).getD .unknown

/-- Is an entry a primary ELF module? -/
def primary (e : Nat) : Bool :=
  (st.files[e]?.bind (Entry.soname env)).isSome && !st.secondary e

/-- The entry that a needed library has been resolved to. -/
def setDepFile (e i f : Nat) : LibState :=
  { st with depFile := Function.update st.depFile e (Function.update (st.depFile e) i (some f)) }

/-- An entry is moved to the archive of the program that needs it, if that one is extracted
earlier. -/
def lower (root f : Nat) : LibState :=
  if st.ziptgt root < st.ziptgt f then
    { st with files := st.files.modify f fun p => { p with ziptgt := st.ziptgt root } }
  else st

end LibState

/-! ### Looking up a library -/

/-- Is the target directly in the library directory? -/
def inLibdir (target libdir : CString) : Bool :=
  let len := libdir.length - 1
  target.take len = libdir.drop 1 && target[len]? = some '/' && '/' ∉ target.drop (len + 1)

def getZipListEntryBySoname (env : Surroundings) (files : List Entry) (soname libdir : CString) :
    Option Nat :=
  files.findIdx? fun p => p.soname env = some soname && inLibdir p.target libdir

/-- The symbolic link with the given name on the target system. -/
def getSymlinkEntry (files : List Entry) (target : CString) : Option Nat :=
  (getZipListTargetEntry files target).filter fun i =>
    files[i]?.any fun p => p.entryType = .symlink

/-- The entry that provides a library: in the RPATH, in `/lib`, in `/usr/lib`, or as a symbolic link
in one of the latter. -/
def lookupDependency (env : Surroundings) (files : List Entry) (rpath : Option CString)
    (soname : CString) : Option Nat :=
  (rpath.bind (getZipListEntryBySoname env files soname)).or <|
    (getZipListEntryBySoname env files soname libPath).or <|
      (getZipListEntryBySoname env files soname usrLibPath).or <|
        (getSymlinkEntry files ("usr/lib/".toList ++ soname)).or <|
          getSymlinkEntry files ("lib/".toList ++ soname)

/-- `try_to_resolve_dependency` for the needed library with number `i` of entry `e`. -/
def tryToResolveDependency (env : Surroundings) (st : LibState) (rpath : Option CString)
    (e i : Nat) (soname : CString) : LibState × Bool :=
  match st.depFile e i with
  | some _ => (st, true)
  | none =>
      match lookupDependency env st.files rpath soname with
      | some f => (st.setDepFile e i f, true)
      | none => (st, false)

/-! ### Adding a library -/

/-- The results `OK`, `1` and `ERR` of `search_and_add_dependency`. -/
inductive SearchResult
  | ok
  | notFound
  | err
deriving DecidableEq

/-- The request for a library, with the options `mode=555`. -/
def libRequest (dir : LibDir) (lib : LibFile) (ziptgt : ZipTgt) : Request :=
  { file := dir.dirname ++ '/' :: lib.name
    zipsrc := .opt
    ziptgt
    entryType := .file
    opts := [("mode".toList, "555".toList)] }

def searchAndAddDependency (env : Surroundings) (st : LibState) (root : Nat) (soname : CString)
    (dir : LibDir) : LibState × SearchResult :=
  match dir.libraries.find? fun lib => soname == lib.soname with
  | none => (st, .notFound)
  | some lib =>
      match addZipListEntry env.cfg st.files (libRequest dir lib (st.ziptgt root)) with
      | .ok (files, i) => ({ st with files, secondary := Function.update st.secondary i true }, .ok)
      | .error _ => (st, .err)

/-- The loop of `add_dependency` over the global search path. -/
def searchGlobal (env : Surroundings) (root : Nat) (soname : CString) :
    List LibDir → LibState → LibState × Bool
  | [], st => (st, false)
  | dir :: dirs, st =>
      if dir.isGlobal then
        match searchAndAddDependency env st root soname dir with
        | (st, .err) => (st, false)
        | (st, .ok) => (st, true)
        | (st, .notFound) => searchGlobal env root soname dirs st
      else searchGlobal env root soname dirs st

/-- The directory of an RPATH, which is read when it is needed for the first time. -/
def rpathDir (env : Surroundings) (st : LibState) (path : CString) : LibState × LibDir :=
  match st.libdirs.find? fun dir => path == dir.path with
  | some dir => (st, dir)
  | none =>
      let dir := ldconfig env path false
      ({ st with libdirs := st.libdirs ++ [dir] }, dir)

def addDependency (env : Surroundings) (st : LibState) (root : Nat) (soname : CString) :
    LibState × Bool :=
  match st.rpath env root with
  | none => searchGlobal env root soname st.libdirs st
  | some path =>
      let (st, dir) := rpathDir env st path
      match searchAndAddDependency env st root soname dir with
      | (st, .err) => (st, false)
      | (st, .ok) => (st, true)
      | (st, .notFound) => searchGlobal env root soname st.libdirs st

/-! ### The recursion -/

/-- The condition in the loop of `resolve_dependencies`, with the entry that the needed library is
resolved to. -/
def resolveDependency (env : Surroundings) (root : Nat) (st : LibState) (e i : Nat)
    (soname : CString) : LibState × Option Nat :=
  match tryToResolveDependency env st (st.rpath env root) e i soname with
  | (st, true) => (st, st.depFile e i)
  | (st, false) =>
      match addDependency env st root soname with
      | (st, false) => (st, none)
      | (st, true) =>
          match tryToResolveDependency env st (st.rpath env root) e i soname with
          | (st, true) => (st, st.depFile e i)
          | (st, false) => (st, none)

/-- The loop of `resolve_dependencies` for a root: the needed libraries of an entry with their
numbers, and what is done for one of them before the recursive call.  The flag is `result`. -/
def libWalker (env : Surroundings) (root : Nat) : Walker LibState Nat (CString × Nat) where
  keys st e := (st.needed env e).zipIdx
  follow st e dep result :=
    match resolveDependency env root st e dep.2 dep.1 with
    | (st, none) => (st, none)
    | (st, some f) => (if result then st.lower root f else st, some f)

/-- `resolve_dependencies`; the depender is an entry together with the chain that led to it. -/
def resolveDependencies (env : Surroundings) (root fuel : Nat) (st : LibState) (chain : List Nat)
    (e : Nat) : Option (LibState × Bool) :=
  (libWalker env root).traverse fuel st chain e

/-- The loop of `resolve_library_dependencies`.  The list may grow while it is gone through. -/
def resolveLoop (env : Surroundings) (fuel : Nat) :
    Nat → Nat → LibState → Bool → Option (LibState × Bool)
  | 0, _, _, _ => none
  | steps + 1, e, st, result =>
      if e < st.files.length then
        if st.primary env e then
          match resolveDependencies env e fuel st [] e with
          | none => none
          | some (st, ok) => resolveLoop env fuel steps (e + 1) st (result && ok)
        else resolveLoop env fuel steps (e + 1) st result
      else some (st, result)

/-- The state in which the resolution begins. -/
def initLibState (env : Surroundings) (files : List Entry) : LibState :=
  { files
    secondary := fun _ => false
    depFile := fun _ _ => none
    libdirs := [ldconfig env libPath true, ldconfig env usrLibPath true] }

/-- `resolve_library_dependencies`, with at most `fuel` nested calls and rounds of the loop: the
state at the end and whether the result is `OK`. -/
def resolveLibraryDependencies (env : Surroundings) (fuel : Nat) (files : List Entry) :
    Option (LibState × Bool) :=
  resolveLoop env fuel fuel 0 (initLibState env files) true

/-! ### What the steps do -/

section Steps

variable {env : Surroundings} {root e i f : Nat} {st st' st'' : LibState} {soname : CString}

theorem searchAndAddDependency_cases {dir : LibDir} {result : SearchResult}
    (h : searchAndAddDependency env st root soname dir = (st', result)) :
    result ≠ .ok ∧ st' = st ∨
      result = .ok ∧ ∃ lib ∈ dir.libraries, lib.soname = soname ∧ ∃ files k,
        addZipListEntry env.cfg st.files (libRequest dir lib (st.ziptgt root)) = .ok (files, k) ∧
          st' = { st with files, secondary := Function.update st.secondary k true } := by
  unfold searchAndAddDependency at h
  split at h
  · obtain ⟨rfl, rfl⟩ := Prod.mk.inj h
    exact .inl ⟨nofun, rfl⟩
  · next lib hlib =>
      split at h
      · next files k hadd =>
          obtain ⟨rfl, rfl⟩ := Prod.mk.inj h
          have hfound := List.find?_some hlib
          have hsoname : lib.soname = soname := (eq_of_beq hfound).symm
          exact .inr ⟨rfl, lib, List.mem_of_find?_eq_some hlib, hsoname, files, k, hadd, rfl⟩
      · obtain ⟨rfl, rfl⟩ := Prod.mk.inj h
        exact .inl ⟨nofun, rfl⟩

/-- The two outcomes of the search for a library: nothing but the directories has changed, or a
library with the wanted name has been put into the list. -/
def Searched (env : Surroundings) (root : Nat) (soname : CString) (st : LibState)
    (dirs : List LibDir) (st' : LibState) (found : Bool) : Prop :=
  found = false ∧ st' = st ∨
    found = true ∧ ∃ dir ∈ dirs, ∃ lib ∈ dir.libraries, lib.soname = soname ∧ ∃ files k,
      addZipListEntry env.cfg st.files (libRequest dir lib (st.ziptgt root)) = .ok (files, k) ∧
        st' = { st with files, secondary := Function.update st.secondary k true }

variable {dirs : List LibDir} {found ok : Bool} {rpath : Option CString} {dep : CString × Nat}
  {files : List Entry}

theorem searchGlobal_cases (h : searchGlobal env root soname dirs st = (st', found)) :
    Searched env root soname st dirs st' found := by
  induction dirs with
  | nil =>
      obtain ⟨rfl, rfl⟩ := Prod.mk.inj h
      exact .inl ⟨rfl, rfl⟩
  | cons dir dirs ih =>
      have hrest (h : searchGlobal env root soname dirs st = (st', found)) :
          Searched env root soname st (dir :: dirs) st' found := by
        rcases ih h with hnone | ⟨hfound, dir', hdir', hlib⟩
        · exact .inl hnone
        · exact .inr ⟨hfound, dir', List.mem_cons_of_mem _ hdir', hlib⟩
      unfold searchGlobal at h
      split at h
      · split at h
        · next hsearch =>
            obtain ⟨rfl, rfl⟩ := Prod.mk.inj h
            rcases searchAndAddDependency_cases hsearch with ⟨-, hsame⟩ | ⟨hok, -⟩
            · exact .inl ⟨rfl, hsame⟩
            · exact nomatch hok
        · next hsearch =>
            obtain ⟨rfl, rfl⟩ := Prod.mk.inj h
            rcases searchAndAddDependency_cases hsearch with ⟨hok, -⟩ | ⟨-, hlib⟩
            · exact absurd rfl hok
            · exact .inr ⟨rfl, dir, List.mem_cons_self, hlib⟩
        · next hsearch =>
            rcases searchAndAddDependency_cases hsearch with ⟨-, hsame⟩ | ⟨hok, -⟩
            · rw [hsame] at h
              exact hrest h
            · exact nomatch hok
      · exact hrest h

/-- The state after the directory of the RPATH has been read. -/
def LibState.withLibdirs (st : LibState) (libdirs : List LibDir) : LibState := { st with libdirs }

theorem addDependency_cases (h : addDependency env st root soname = (st', found)) :
    ∃ dirs, (dirs = st.libdirs ∨
        ∃ path, st.rpath env root = some path ∧ dirs = st.libdirs ++ [ldconfig env path false]) ∧
      Searched env root soname (st.withLibdirs dirs) dirs st' found := by
  unfold addDependency at h
  split at h
  · exact ⟨st.libdirs, .inl rfl, searchGlobal_cases h⟩
  · next path hpath =>
      obtain ⟨dirs, dir, hdirs, hdir, hrpathDir⟩ : ∃ dirs dir,
          (dirs = st.libdirs ∨ dirs = st.libdirs ++ [ldconfig env path false]) ∧ dir ∈ dirs ∧
            rpathDir env st path = (st.withLibdirs dirs, dir) := by
        unfold rpathDir
        split
        · next dir hfind =>
            exact ⟨st.libdirs, dir, .inl rfl, List.mem_of_find?_eq_some hfind, rfl⟩
        · exact ⟨_, _, .inr rfl, List.mem_append_right _ (List.mem_singleton_self _), rfl⟩
      refine ⟨dirs, hdirs.imp_right fun hdirs => ⟨path, hpath, hdirs⟩, ?_⟩
      rw [hrpathDir] at h
      dsimp only at h
      split at h
      · next hsearch =>
          obtain ⟨rfl, rfl⟩ := Prod.mk.inj h
          rcases searchAndAddDependency_cases hsearch with ⟨-, hsame⟩ | ⟨hok, -⟩
          · exact .inl ⟨rfl, hsame⟩
          · exact nomatch hok
      · next hsearch =>
          obtain ⟨rfl, rfl⟩ := Prod.mk.inj h
          rcases searchAndAddDependency_cases hsearch with ⟨hok, -⟩ | ⟨-, hlib⟩
          · exact absurd rfl hok
          · exact .inr ⟨rfl, dir, hdir, hlib⟩
      · next hsearch =>
          rcases searchAndAddDependency_cases hsearch with ⟨-, hsame⟩ | ⟨hok, -⟩
          · rw [hsame] at h
            exact searchGlobal_cases h
          · exact nomatch hok

theorem tryToResolveDependency_of_none (h : st.depFile e i = none) :
    tryToResolveDependency env st rpath e i soname =
      match lookupDependency env st.files rpath soname with
      | some f => (st.setDepFile e i f, true)
      | none => (st, false) := by
  rw [tryToResolveDependency, h]

@[simp] theorem LibState.setDepFile_self (st : LibState) (e i f : Nat) :
    (st.setDepFile e i f).depFile e i = some f := by
  simp [LibState.setDepFile]

/-- The ways in which a needed library is resolved: it has been resolved before, it is in the list,
or it is put there.  Otherwise it is missing. -/
inductive Resolved (env : Surroundings) (root : Nat) (st : LibState) (e i : Nat)
    (soname : CString) : LibState → Option Nat → Prop
  | cached {f : Nat} (hdep : st.depFile e i = some f) : Resolved env root st e i soname st (some f)
  | found {f : Nat} (hdep : st.depFile e i = none)
      (hlookup : lookupDependency env st.files (st.rpath env root) soname = some f) :
      Resolved env root st e i soname (st.setDepFile e i f) (some f)
  | added {st' : LibState} {f : Nat} (hdep : st.depFile e i = none)
      (hlookup : lookupDependency env st.files (st.rpath env root) soname = none)
      (hadd : addDependency env st root soname = (st', true)) (hdep' : st'.depFile e i = none)
      (hlookup' : lookupDependency env st'.files (st'.rpath env root) soname = some f) :
      Resolved env root st e i soname (st'.setDepFile e i f) (some f)
  | missing {st' : LibState} {found : Bool} (hdep : st.depFile e i = none)
      (hlookup : lookupDependency env st.files (st.rpath env root) soname = none)
      (hadd : addDependency env st root soname = (st', found)) :
      Resolved env root st e i soname st' none

theorem Searched.depFile_eq
    (h : Searched env root soname st dirs st' found) : st'.depFile = st.depFile := by
  rcases h with ⟨-, rfl⟩ | ⟨-, dir, -, lib, -, -, files, k, -, rfl⟩
  · rfl
  · rfl

theorem addDependency_depFile
    (h : addDependency env st root soname = (st', found)) : st'.depFile = st.depFile := by
  obtain ⟨dirs, -, hsearched⟩ := addDependency_cases h
  exact hsearched.depFile_eq

theorem resolveDependency_cases {r : Option Nat}
    (h : resolveDependency env root st e i soname = (st', r)) :
    Resolved env root st e i soname st' r := by
  unfold resolveDependency at h
  cases hdep : st.depFile e i with
  | some f =>
      rw [tryToResolveDependency, hdep] at h
      obtain ⟨rfl, rfl⟩ := Prod.mk.inj h
      rw [hdep]
      exact .cached hdep
  | none =>
      rw [tryToResolveDependency_of_none hdep] at h
      cases hlookup : lookupDependency env st.files (st.rpath env root) soname with
      | some f =>
          rw [hlookup] at h
          obtain ⟨rfl, rfl⟩ := Prod.mk.inj h
          rw [LibState.setDepFile_self]
          exact .found hdep hlookup
      | none =>
          rw [hlookup] at h
          dsimp only at h
          obtain ⟨⟨st₁, found⟩, hadd⟩ : ∃ r, addDependency env st root soname = r := ⟨_, rfl⟩
          rw [hadd] at h
          cases found with
          | false =>
              obtain ⟨rfl, rfl⟩ := Prod.mk.inj h
              exact .missing hdep hlookup hadd
          | true =>
              have hdep₁ : st₁.depFile e i = none := by rw [addDependency_depFile hadd, hdep]
              dsimp only at h
              rw [tryToResolveDependency_of_none hdep₁] at h
              cases hlookup₁ : lookupDependency env st₁.files (st₁.rpath env root) soname with
              | some f =>
                  rw [hlookup₁] at h
                  obtain ⟨rfl, rfl⟩ := Prod.mk.inj h
                  rw [LibState.setDepFile_self]
                  exact .added hdep hlookup hadd hdep₁ hlookup₁
              | none =>
                  rw [hlookup₁] at h
                  obtain ⟨rfl, rfl⟩ := Prod.mk.inj h
                  exact .missing hdep hlookup hadd

theorem follow_cases {c : Option Nat} (h : (libWalker env root).follow st e dep ok = (st', c)) :
    ∃ st₁, Resolved env root st e dep.2 dep.1 st₁ c ∧
      (st' = st₁ ∧ (c = none ∨ ok = false) ∨ ∃ f, c = some f ∧ ok = true ∧ st' = st₁.lower root f) := by
  unfold libWalker at h
  obtain ⟨⟨st₁, r⟩, hresolve⟩ : ∃ r, resolveDependency env root st e dep.2 dep.1 = r := ⟨_, rfl⟩
  have hresolved := resolveDependency_cases hresolve
  dsimp only at h
  rw [hresolve] at h
  cases r with
  | none =>
      obtain ⟨rfl, rfl⟩ := Prod.mk.inj h
      exact ⟨_, hresolved, .inl ⟨rfl, .inl rfl⟩⟩
  | some f =>
      obtain ⟨rfl, rfl⟩ := Prod.mk.inj h
      cases ok with
      | false => exact ⟨_, hresolved, .inl ⟨rfl, .inr rfl⟩⟩
      | true => exact ⟨_, hresolved, .inr ⟨f, rfl, rfl, rfl⟩⟩

/-! ### How the state changes -/

/-- A later state: the entries have kept their places, what has been resolved stays so, and so do the
secondary entries. -/
structure LibState.Le (st st' : LibState) : Prop where
  files : ∀ {j : Nat} {p : Entry}, st.files[j]? = some p → ∃ q, st'.files[j]? = some q ∧ p.MovesTo q
  depFile : ∀ {e i f : Nat}, st.depFile e i = some f → st'.depFile e i = some f
  secondary : ∀ {j : Nat}, st.secondary j = true → st'.secondary j = true

theorem LibState.Le.refl (st : LibState) : st.Le st :=
  ⟨fun h => ⟨_, h, .refl _⟩, fun h => h, fun h => h⟩

theorem LibState.Le.trans (h : st.Le st') (h' : st'.Le st'') : st.Le st'' where
  files := by
    intro j p hp
    obtain ⟨q, hq, hmoves⟩ := h.files hp
    obtain ⟨r, hr, hmoves'⟩ := h'.files hq
    exact ⟨r, hr, hmoves.trans hmoves'⟩
  depFile hf := h'.depFile (h.depFile hf)
  secondary hj := h'.secondary (h.secondary hj)

theorem LibState.Le.length_le (h : st.Le st') : st.files.length ≤ st'.files.length := by
  by_contra hlt
  have hlast : st'.files.length < st.files.length := not_le.mp hlt
  obtain ⟨q, hq, -⟩ := h.files (List.getElem?_eq_getElem hlast)
  exact absurd (List.getElem?_eq_some_iff.mp hq).1 (lt_irrefl _)

theorem Entry.MovesTo.soname_eq {p q : Entry} (h : p.MovesTo q) : q.soname env = p.soname env := by
  rw [Entry.soname, Entry.soname, h.filename, h.target]

theorem LibState.Le.needed_eq (h : st.Le st') (he : e < st.files.length) :
    st'.needed env e = st.needed env e := by
  obtain ⟨q, hq, hmoves⟩ := h.files (List.getElem?_eq_getElem he)
  rw [LibState.needed, LibState.needed, hq, List.getElem?_eq_getElem he, Option.map_some,
    Option.map_some, Entry.needed, Entry.needed, hmoves.filename]

theorem LibState.Le.rpath_eq (h : st.Le st') (he : e < st.files.length) :
    st'.rpath env e = st.rpath env e := by
  obtain ⟨q, hq, hmoves⟩ := h.files (List.getElem?_eq_getElem he)
  rw [LibState.rpath, LibState.rpath, hq, List.getElem?_eq_getElem he, Option.bind_some,
    Option.bind_some, Entry.rpath, Entry.rpath, hmoves.filename]

theorem LibState.Le.ziptgt_le (h : st.Le st') (he : e < st.files.length) :
    st'.ziptgt e ≤ st.ziptgt e := by
  obtain ⟨q, hq, hmoves⟩ := h.files (List.getElem?_eq_getElem he)
  rw [LibState.ziptgt, LibState.ziptgt, hq, List.getElem?_eq_getElem he]
  exact hmoves.le

theorem LibState.le_setDepFile (h : st.depFile e i = none) : st.Le (st.setDepFile e i f) where
  files hp := ⟨_, hp, .refl _⟩
  secondary hj := hj
  depFile := by
    intro e' i' f' hf'
    unfold LibState.setDepFile
    by_cases he : e' = e
    · subst he
      by_cases hi : i' = i
      · subst hi
        exact nomatch h.symm.trans hf'
      · simp [hi, hf']
    · simp [he, hf']

theorem LibState.le_lower : st.Le (st.lower root f) := by
  unfold LibState.lower
  split
  · next hlt =>
      refine ⟨?_, fun h => h, fun h => h⟩
      intro j p hp
      rw [List.getElem?_modify, hp]
      by_cases hj : f = j
      · subst hj
        refine ⟨{ p with ziptgt := st.ziptgt root }, by simp, rfl, rfl, rfl, ?_⟩
        have hziptgt : st.ziptgt f = p.ziptgt := by rw [LibState.ziptgt, hp, Option.map_some]; rfl
        rw [hziptgt] at hlt
        exact hlt.le
      · exact ⟨p, by simp [hj], .refl p⟩
  · exact .refl st

theorem LibState.le_withLibdirs (dirs : List LibDir) : st.Le (st.withLibdirs dirs) :=
  ⟨fun hp => ⟨_, hp, .refl _⟩, fun h => h, fun h => h⟩

theorem Searched.le (h : Searched env root soname st dirs st' found) : st.Le st' := by
  rcases h with ⟨-, rfl⟩ | ⟨-, dir, -, lib, -, -, files, k, hadd, rfl⟩
  · exact .refl st'
  · refine ⟨fun hp => addZipListEntry_moves hadd hp, fun h => h, ?_⟩
    intro j hj
    by_cases hk : j = k
    · simp [hk]
    · simp [hk, hj]

theorem addDependency_le (h : addDependency env st root soname = (st', found)) : st.Le st' := by
  obtain ⟨dirs, -, hsearched⟩ := addDependency_cases h
  exact (LibState.le_withLibdirs dirs).trans hsearched.le

theorem Resolved.le {r : Option Nat} (h : Resolved env root st e i soname st' r) : st.Le st' := by
  cases h with
  | cached hdep => exact .refl st
  | found hdep hlookup => exact LibState.le_setDepFile hdep
  | added hdep hlookup hadd hdep' hlookup' =>
      exact (addDependency_le hadd).trans (LibState.le_setDepFile hdep')
  | missing hdep hlookup hadd => exact addDependency_le hadd

theorem follow_le {c : Option Nat}
    (h : (libWalker env root).follow st e dep ok = (st', c)) : st.Le st' := by
  obtain ⟨st₁, hresolved, ⟨rfl, -⟩ | ⟨f, -, -, rfl⟩⟩ := follow_cases h
  · exact hresolved.le
  · exact hresolved.le.trans LibState.le_lower

theorem Resolved.depFile_eq (h : Resolved env root st e i soname st' (some f)) :
    st'.depFile e i = some f := by
  cases h with
  | cached hdep => exact hdep
  | found hdep hlookup => exact st.setDepFile_self e i f
  | added hdep hlookup hadd hdep' hlookup' => exact LibState.setDepFile_self _ e i f

theorem follow_depFile (h : (libWalker env root).follow st e dep ok = (st', some f)) :
    st'.depFile e dep.2 = some f := by
  obtain ⟨st₁, hresolved, ⟨rfl, -⟩ | ⟨f', -, -, rfl⟩⟩ := follow_cases h
  · exact hresolved.depFile_eq
  · exact LibState.le_lower.depFile hresolved.depFile_eq

theorem inLibdir_target_ne_nil {target libdir : CString} (h : inLibdir target libdir = true) :
    target ≠ [] := by
  rintro rfl
  simp [inLibdir] at h

theorem getZipListEntryBySoname_eq_some {libdir : CString}
    (h : getZipListEntryBySoname env files soname libdir = some f) :
    ∃ p, files[f]? = some p ∧ p.soname env = some soname ∧ inLibdir p.target libdir = true := by
  obtain ⟨hf, hfound, -⟩ := List.findIdx?_eq_some_iff_getElem.mp h
  refine ⟨files[f], List.getElem?_eq_getElem hf, ?_⟩
  simpa using hfound

theorem getSymlinkEntry_eq_some {target : CString} (h : getSymlinkEntry files target = some f) :
    ∃ p, files[f]? = some p ∧ p.target = target ∧ p.target ≠ [] ∧ p.entryType = .symlink := by
  obtain ⟨hget, hany⟩ := Option.filter_eq_some_iff.mp h
  obtain ⟨hf, hfound, -⟩ := List.findIdx?_eq_some_iff_getElem.mp hget
  rw [List.getElem?_eq_getElem hf] at hany
  obtain ⟨hne, htarget⟩ : files[f].target ≠ [] ∧ files[f].target = target := by simpa using hfound
  exact ⟨files[f], List.getElem?_eq_getElem hf, htarget, hne, by simpa using hany⟩

/-- An entry provides a library to a program with the given RPATH. -/
def Entry.Provides (env : Surroundings) (p : Entry) (rpath : Option CString) (soname : CString) :
    Prop :=
  (p.soname env = some soname ∧
      ((∃ path ∈ rpath, inLibdir p.target path = true) ∨ inLibdir p.target libPath = true ∨
        inLibdir p.target usrLibPath = true)) ∨
    (p.entryType = .symlink ∧ p.target ≠ [] ∧
      (p.target = "usr/lib/".toList ++ soname ∨ p.target = "lib/".toList ++ soname))

theorem lookupDependency_provides (h : lookupDependency env files rpath soname = some f) :
    ∃ p, files[f]? = some p ∧ p.Provides env rpath soname := by
  unfold lookupDependency at h
  simp only [Option.or_eq_some_iff] at h
  rcases h with h | ⟨-, h | ⟨-, h | ⟨-, h | ⟨-, h⟩⟩⟩⟩
  · obtain ⟨path, hpath, hget⟩ := Option.bind_eq_some_iff.mp h
    obtain ⟨p, hp, hsoname, hdir⟩ := getZipListEntryBySoname_eq_some hget
    exact ⟨p, hp, .inl ⟨hsoname, .inl ⟨path, hpath, hdir⟩⟩⟩
  · obtain ⟨p, hp, hsoname, hdir⟩ := getZipListEntryBySoname_eq_some h
    exact ⟨p, hp, .inl ⟨hsoname, .inr (.inl hdir)⟩⟩
  · obtain ⟨p, hp, hsoname, hdir⟩ := getZipListEntryBySoname_eq_some h
    exact ⟨p, hp, .inl ⟨hsoname, .inr (.inr hdir)⟩⟩
  · obtain ⟨p, hp, htarget, hne, htype⟩ := getSymlinkEntry_eq_some h
    exact ⟨p, hp, .inr ⟨htype, hne, .inl htarget⟩⟩
  · obtain ⟨p, hp, htarget, hne, htype⟩ := getSymlinkEntry_eq_some h
    exact ⟨p, hp, .inr ⟨htype, hne, .inr htarget⟩⟩

theorem Entry.Provides.target_ne_nil {p : Entry} (h : p.Provides env rpath soname) : p.target ≠ [] := by
  rcases h with ⟨-, ⟨path, -, hdir⟩ | hdir | hdir⟩ | ⟨-, hne, -⟩
  · exact inLibdir_target_ne_nil hdir
  · exact inLibdir_target_ne_nil hdir
  · exact inLibdir_target_ne_nil hdir
  · exact hne

end Steps

end Ziplist
end Mkfli4l
