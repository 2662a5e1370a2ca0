import Mkfli4l.Lib.LineReading
import Mkfli4l.Lib.Runs
import Mkfli4l.Ziplist.KernMod

/-!
# Reading `modules.dep`

Each line of `modules.dep` names a module and the modules it depends on.  A module is created where its
name is seen first, in front of a colon or behind one.  The lines are read in pieces of 4094 characters;
a piece without a colon is ignored, so that the dependencies in it are lost.
-/

namespace Mkfli4l
namespace Ziplist
namespace ModulesDep

open Lib

/-! ## The program -/

/-- `strrchr`: the text in front of the last `c`, and the text from there on. -/
def strrchr (c : Char) (s : CString) : Option (CString × CString) :=
  if c ∈ s then
    some ((s.reverse.dropWhile (· ≠ c)).tail.reverse, c :: (s.reverse.takeWhile (· ≠ c)).reverse)
  else none

/-- A path without `MODULE_SUFFIX`. -/
def cutSuffix (path : CString) : CString :=
  match strrchr '.' path with
  | some (front, suffix) => if suffix = ".ko".toList then front else path
  | none => path

/-- The name of a module with this path. -/
def moduleName (path : CString) : CString :=
  match strrchr '/' (cutSuffix path) with
  | some (_, name) => name.tail
  | none => cutSuffix path

/-- The directory of the modules, in an array of 1024 characters. -/
def modulesDir (kernelVersion : CString) : CString :=
  ("/lib/modules/".toList ++ kernelVersion ++ ['/']).take 1023

def extendRelativeModulePath (dir path : CString) : CString :=
  if dir.isPrefixOf path then path else dir ++ path

/-- `struct module_t`; the dependencies are positions in the array.  A new module has no aliases and no
target archive. -/
structure DepModule where
  name : CString
  path : CString
  deps : List ℕ
deriving DecidableEq

/-- `find_or_create_module`: the position of the module, or nothing if the name has another path. -/
def findOrCreateModule (dir path : CString) (mods : List DepModule) : Option (ℕ × List DepModule) :=
  match mods.findIdx? fun m => areModulesEqual (moduleName path) m.name with
  | some i =>
      if (mods[i]?).map DepModule.path = some (extendRelativeModulePath dir path) then some (i, mods)
      else none
  | none => some (mods.length, mods ++ [⟨moduleName path, extendRelativeModulePath dir path, []⟩])

/-- The names behind the colon, as the loop over the characters finds them. -/
def depNames : CString → List CString
  | [] => []
  | c :: s =>
      if isSpaceC c then depNames s
      else (c :: s.takeWhile fun c => !isSpaceC c) :: depNames (s.dropWhile fun c => !isSpaceC c)
termination_by s => s.length
decreasing_by
  · simp
  · have hle := (List.dropWhile_sublist (fun c => !isSpaceC c) (l := s)).length_le
    rw [List.length_cons]
    omega

/-- `append_new_elem (module->deps, dep)` for the module at position `m`. -/
def addDep (mods : List DepModule) (m dep : ℕ) : List DepModule :=
  mods.modify m fun e => { e with deps := e.deps ++ [dep] }

/-- A name behind the colon: a dependency of module `m`.  The flag is `res`. -/
def readDep (dir : CString) (m : ℕ) (st : List DepModule × Bool) (name : CString) :
    List DepModule × Bool :=
  match findOrCreateModule dir name st.1 with
  | none => (st.1, false)
  | some (dep, mods) => (addDep mods m dep, st.2)

/-- A path in front of a colon and the names behind it. -/
def readEntry (dir : CString) (st : List DepModule × Bool) (entry : CString × List CString) :
    List DepModule × Bool :=
  match findOrCreateModule dir entry.1 st.1 with
  | none => (st.1, false)
  | some (m, mods) => entry.2.foldl (readDep dir m) (mods, st.2)

/-- What is done with the string in the buffer. -/
def readPiece (dir : CString) (st : List DepModule × Bool) (buffer : CString) : List DepModule × Bool :=
  if ':' ∈ buffer then
    readEntry dir st (buffer.takeWhile (· ≠ ':'), depNames (buffer.dropWhile (· ≠ ':')).tail)
  else st

/-- `read_modules_dependency_file`: the modules and whether all of them could be created. -/
def readModulesDependencyFile (kernelVersion file : CString) : List DepModule × Bool :=
  ((fgetsAll 4094 file).map bufferText).foldl (readPiece (modulesDir kernelVersion)) ([], true)

/-! ## The file -/

/-- A line: a path, a colon, and the rest. -/
structure DepLine where
  key : CString
  rest : CString
  key_colon : ':' ∉ key
  key_chars : '\n' ∉ key ∧ '\x00' ∉ key
  rest_chars : '\n' ∉ rest ∧ '\x00' ∉ rest

namespace DepLine

def line (l : DepLine) : CString := l.key ++ ':' :: l.rest

/-- The dependencies of the line. -/
def deps (l : DepLine) : List CString := runsOf isSpaceC l.rest

/-- The dependencies in the first 4094 characters of the line. -/
def firstDeps (l : DepLine) : List CString := runsOf isSpaceC (l.rest.take (4093 - l.key.length))

/-- The path ends in the first 4094 characters of the line, and no colon comes later. -/
def Plain (l : DepLine) : Prop := l.key.length ≤ 4093 ∧ ':' ∉ l.line.drop 4094

/-- The dependencies in the first 4094 characters are those of the line. -/
def Fits (dir : CString) (l : DepLine) : Prop :=
  l.firstDeps.map (extendRelativeModulePath dir) = l.deps.map (extendRelativeModulePath dir)

end DepLine

/-- The text of the file.  There may be a line end behind the last line. -/
def fileText (lastEnd : Bool) : List DepLine → CString
  | [] => []
  | [l] => l.line ++ if lastEnd then ['\n'] else []
  | l :: next :: lines => l.line ++ '\n' :: fileText lastEnd (next :: lines)

/-- All paths that the lines name. -/
def namesOf (entries : List (CString × List CString)) : List CString :=
  entries.flatMap fun entry => entry.1 :: entry.2

/-- No name of a module has two different paths. -/
def OnePath (dir : CString) (names : List CString) : Prop :=
  ∀ p ∈ names, ∀ q ∈ names, areModulesEqual (moduleName p) (moduleName q) = true →
    extendRelativeModulePath dir p = extendRelativeModulePath dir q

instance (dir : CString) (names : List CString) : Decidable (OnePath dir names) := by
  unfold OnePath
  infer_instance

/-- The path of the module at a position. -/
def pathAt (mods : List DepModule) (i : ℕ) : Option CString := (mods[i]?).map DepModule.path

/-- The dependencies of a path, from all its lines. -/
def depsOf (dir path : CString) (entries : List (CString × List CString)) : List CString :=
  entries.flatMap fun entry =>
    if extendRelativeModulePath dir entry.1 = path then entry.2.map (extendRelativeModulePath dir) else []

/-- The reader succeeds, it makes one module for each path and no others, and the dependencies of each
module are those of its lines. -/
structure ReadsRight (dir : CString) (entries : List (CString × List CString))
    (result : List DepModule × Bool) : Prop where
  succeeds : result.2 = true
  one : (result.1.map DepModule.path).Nodup
  paths : ∀ path, path ∈ result.1.map DepModule.path ↔
    ∃ p ∈ namesOf entries, extendRelativeModulePath dir p = path
  deps : ∀ m ∈ result.1, m.deps.map (pathAt result.1) = (depsOf dir m.path entries).map some

/-- The lines as they are written. -/
def entriesOf (lines : List DepLine) : List (CString × List CString) := lines.map fun l => (l.key, l.deps)

/-- The lines as they are read. -/
def firstEntries (lines : List DepLine) : List (CString × List CString) :=
  lines.map fun l => (l.key, l.firstDeps)

/-! ## Names and paths -/

theorem strrchr_append {c : Char} {tail : CString} (h : c ∉ tail) (front : CString) :
    strrchr c (front ++ c :: tail) = some (front, c :: tail) := by
  have hreverse : ∀ d ∈ tail.reverse, (decide (d ≠ c)) = true := by
    intro d hd
    simp only [decide_eq_true_eq]
    rintro rfl
    exact h (List.mem_reverse.mp hd)
  unfold strrchr
  rw [if_pos (by simp), List.reverse_append, List.reverse_cons, List.append_assoc, List.singleton_append,
    List.dropWhile_append_of_pos hreverse, List.takeWhile_append_of_pos hreverse,
    List.dropWhile_cons_of_neg (by simp), List.takeWhile_cons_of_neg (by simp)]
  simp

theorem strrchr_none {c : Char} {s : CString} (h : c ∉ s) : strrchr c s = none := if_neg h

theorem exists_last {c : Char} {s : CString} (h : c ∈ s) : ∃ front tail, s = front ++ c :: tail ∧ c ∉ tail := by
  obtain ⟨front, tail, heq, hnot⟩ := List.eq_append_cons_of_mem (List.mem_reverse.mpr h)
  refine ⟨tail.reverse, front.reverse, ?_, by simpa using hnot⟩
  rw [← List.reverse_reverse s, heq]
  simp

theorem cutSuffix_append (front path : CString) :
    cutSuffix (front ++ '/' :: path) = front ++ '/' :: cutSuffix path := by
  by_cases hdot : '.' ∈ path
  · obtain ⟨start, tail, rfl, htail⟩ := exists_last hdot
    have heq : front ++ '/' :: (start ++ '.' :: tail) = (front ++ '/' :: start) ++ '.' :: tail := by simp
    unfold cutSuffix
    rw [heq, strrchr_append htail, strrchr_append htail]
    simp only
    split
    · rfl
    · exact heq.symm
  · have hwhole : cutSuffix path = path := by
      unfold cutSuffix
      rw [strrchr_none hdot]
    rw [hwhole]
    by_cases hfront : '.' ∈ front
    · obtain ⟨start, tail, rfl, htail⟩ := exists_last hfront
      have hnot : '.' ∉ tail ++ '/' :: path := by simp [htail, hdot]
      have heq : start ++ '.' :: tail ++ '/' :: path = start ++ '.' :: (tail ++ '/' :: path) := by simp
      -- the last point belongs to the directory, so that no suffix begins there
      have hsuffix : '.' :: (tail ++ '/' :: path) ≠ ".ko".toList := by
        intro h
        have hmem : '/' ∈ ".ko".toList := by
          rw [← h]
          simp
        exact absurd hmem (by decide)
      unfold cutSuffix
      rw [heq, strrchr_append hnot]
      exact if_neg hsuffix
    · have hnot : '.' ∉ front ++ '/' :: path := by simp [hfront, hdot]
      unfold cutSuffix
      rw [strrchr_none hnot]

theorem moduleName_append (front path : CString) : moduleName (front ++ '/' :: path) = moduleName path := by
  unfold moduleName
  rw [cutSuffix_append]
  by_cases hslash : '/' ∈ cutSuffix path
  · obtain ⟨start, tail, heq, htail⟩ := exists_last hslash
    have heq' : front ++ '/' :: (start ++ '/' :: tail) = (front ++ '/' :: start) ++ '/' :: tail := by simp
    rw [heq, heq', strrchr_append htail, strrchr_append htail]
  · rw [strrchr_append hslash, strrchr_none hslash]
    rfl

theorem modulesDir_eq {kernelVersion : CString} (h : kernelVersion.length ≤ 1009) :
    modulesDir kernelVersion = ("/lib/modules/".toList ++ kernelVersion) ++ ['/'] := by
  have hlength : "/lib/modules/".toList.length = 13 := by decide
  unfold modulesDir
  apply List.take_of_length_le
  rw [List.length_append, List.length_append, hlength, List.length_singleton]
  omega

theorem moduleName_of_path {kernelVersion p q : CString} (hversion : kernelVersion.length ≤ 1009)
    (h : extendRelativeModulePath (modulesDir kernelVersion) p =
      extendRelativeModulePath (modulesDir kernelVersion) q) : moduleName p = moduleName q := by
  have hname : ∀ p, moduleName (modulesDir kernelVersion ++ p) = moduleName p := by
    intro p
    rw [modulesDir_eq hversion, List.append_assoc, List.singleton_append]
    exact moduleName_append _ p
  have hfull : ∀ p, moduleName (extendRelativeModulePath (modulesDir kernelVersion) p) = moduleName p := by
    intro p
    unfold extendRelativeModulePath
    split
    · rfl
    · exact hname p
  rw [← hfull p, h, hfull q]

/-- `-` and `_` are the same. -/
def hyphen (c : Char) : Char := if c = '-' then '_' else c

theorem areModulesEqual_iff (m₁ m₂ : CString) :
    areModulesEqual m₁ m₂ = true ↔ m₁.map hyphen = m₂.map hyphen := by
  induction m₁ generalizing m₂ with
  | nil =>
      cases m₂ with
      | nil => simp [areModulesEqual]
      | cons c₂ m₂ => simp [areModulesEqual]
  | cons c₁ m₁ ih =>
      cases m₂ with
      | nil => simp [areModulesEqual]
      | cons c₂ m₂ => simp [areModulesEqual, ih, hyphen]

theorem areModulesEqual_self (m : CString) : areModulesEqual m m = true := (areModulesEqual_iff m m).mpr rfl

theorem depNames_eq (s : CString) : depNames s = runsOf isSpaceC s := by
  induction hn : s.length using Nat.strong_induction_on generalizing s with
  | _ n ih =>
    cases s with
    | nil => rw [depNames, runsOf_nil]
    | cons c s =>
        rw [List.length_cons] at hn
        rw [depNames]
        split
        · next hc => rw [runsOf_cons_of_sep hc, ih s.length (by omega) s rfl]
        · next hc =>
            have hc : isSpaceC c = false := by simpa using hc
            have hle := (List.dropWhile_sublist (fun c => !isSpaceC c) (l := s)).length_le
            rw [runsOf_cons_of_not hc, List.takeWhile_cons_of_pos (by simp [hc]),
              List.dropWhile_cons_of_pos (by simp [hc]), ih _ (by omega) _ rfl]

/-! ## The modules that are made -/

section collect

variable {kernelVersion : CString} {dir : CString} {names : List CString} {dep : CString → List CString}
  {mods mods' : List DepModule} {i m : ℕ} {p key : CString}

/-- The modules are those with these names, and each path has the dependencies that `dep` gives. -/
structure Collected (dir : CString) (names : List CString) (dep : CString → List CString)
    (mods : List DepModule) : Prop where
  named : ∀ m ∈ mods, ∃ p ∈ names, extendRelativeModulePath dir p = m.path ∧ moduleName p = m.name
  found : ∀ p ∈ names, extendRelativeModulePath dir p ∈ mods.map DepModule.path
  nodup : (mods.map DepModule.path).Nodup
  deps : ∀ m ∈ mods, m.deps.map (pathAt mods) = (dep m.path).map some
  empty : ∀ path, path ∉ mods.map DepModule.path → dep path = []

theorem Collected.init (dir : CString) : Collected dir [] (fun _ => []) [] :=
  ⟨by simp, by simp, by simp, by simp, by simp⟩

theorem pathAt_append {path : CString} (h : pathAt mods i = some path) (more : List DepModule) :
    pathAt (mods ++ more) i = some path := by
  obtain ⟨e, he, hpath⟩ := Option.map_eq_some_iff.mp h
  unfold pathAt
  rw [List.getElem?_append_left (List.getElem?_eq_some_iff.mp he).1, he]
  exact congrArg some hpath

theorem map_pathAt_append {deps : List ℕ} {paths : List CString}
    (h : deps.map (pathAt mods) = paths.map some) (more : List DepModule) :
    deps.map (pathAt (mods ++ more)) = paths.map some := by
  rw [← h]
  apply List.map_congr_left
  intro d hd
  have hmem : pathAt mods d ∈ paths.map some := by
    rw [← h]
    exact List.mem_map_of_mem hd
  obtain ⟨path, -, hpath⟩ := List.mem_map.mp hmem
  rw [← hpath]
  exact pathAt_append hpath.symm more

theorem Collected.again (h : Collected dir names dep mods)
    (hmem : extendRelativeModulePath dir p ∈ mods.map DepModule.path) :
    Collected dir (names ++ [p]) dep mods := by
  refine ⟨?_, ?_, h.nodup, h.deps, h.empty⟩
  · intro m hm
    obtain ⟨q, hq, hnamed⟩ := h.named m hm
    exact ⟨q, List.mem_append_left _ hq, hnamed⟩
  · intro q hq
    rcases List.mem_append.mp hq with hq | hq
    · exact h.found q hq
    · obtain rfl := List.mem_singleton.mp hq
      exact hmem

theorem Collected.create (h : Collected dir names dep mods)
    (hnew : extendRelativeModulePath dir p ∉ mods.map DepModule.path) :
    Collected dir (names ++ [p]) dep (mods ++ [⟨moduleName p, extendRelativeModulePath dir p, []⟩]) := by
  constructor
  · intro m hm
    rcases List.mem_append.mp hm with hm | hm
    · obtain ⟨q, hq, hnamed⟩ := h.named m hm
      exact ⟨q, List.mem_append_left _ hq, hnamed⟩
    · obtain rfl := List.mem_singleton.mp hm
      exact ⟨p, List.mem_append_right _ (List.mem_singleton_self p), rfl, rfl⟩
  · intro q hq
    rw [List.map_append, List.map_singleton]
    rcases List.mem_append.mp hq with hq | hq
    · exact List.mem_append_left _ (h.found q hq)
    · obtain rfl := List.mem_singleton.mp hq
      exact List.mem_append_right _ (List.mem_singleton_self _)
  · rw [List.map_append, List.map_singleton]
    exact h.nodup.append (List.nodup_singleton _) (by simpa using hnew)
  · intro m hm
    rcases List.mem_append.mp hm with hm | hm
    · exact map_pathAt_append (h.deps m hm) _
    · obtain rfl := List.mem_singleton.mp hm
      rw [h.empty _ hnew]
      rfl
  · intro path hpath
    rw [List.map_append, List.mem_append, not_or] at hpath
    exact h.empty path hpath.1

theorem Collected.find (hversion : kernelVersion.length ≤ 1009)
    (h : Collected (modulesDir kernelVersion) names dep mods)
    (hfind : findOrCreateModule (modulesDir kernelVersion) p mods = some (i, mods')) :
    Collected (modulesDir kernelVersion) (names ++ [p]) dep mods' ∧
      (∀ j path, pathAt mods j = some path → pathAt mods' j = some path) ∧
      pathAt mods' i = some (extendRelativeModulePath (modulesDir kernelVersion) p) := by
  unfold findOrCreateModule at hfind
  split at hfind
  · next j hj =>
      split at hfind
      · next hpath =>
          obtain ⟨rfl, rfl⟩ := Prod.mk.inj (Option.some.inj hfind)
          obtain ⟨e, he, heq⟩ := Option.map_eq_some_iff.mp hpath
          have hmem : extendRelativeModulePath (modulesDir kernelVersion) p ∈ mods.map DepModule.path := by
            rw [← heq]
            exact List.mem_map_of_mem (List.mem_of_getElem? he)
          exact ⟨h.again hmem, fun _ _ hold => hold, hpath⟩
      · contradiction
  · next hnone =>
      obtain ⟨rfl, rfl⟩ := Prod.mk.inj (Option.some.inj hfind)
      -- a module with this path would have the same name and would have been found
      have hnew : extendRelativeModulePath (modulesDir kernelVersion) p ∉ mods.map DepModule.path := by
        intro hmem
        obtain ⟨m, hm, hpath⟩ := List.mem_map.mp hmem
        obtain ⟨q, -, hq, hname⟩ := h.named m hm
        have hsame : moduleName p = m.name := by
          rw [← hname]
          exact moduleName_of_path hversion (hpath.symm.trans hq.symm)
        have hdiffer := List.findIdx?_eq_none_iff.mp hnone m hm
        rw [hsame, areModulesEqual_self] at hdiffer
        exact absurd hdiffer (by decide)
      refine ⟨h.create hnew, fun j path hold => pathAt_append hold _, ?_⟩
      unfold pathAt
      rw [List.getElem?_append_right le_rfl, Nat.sub_self]
      rfl

theorem pathAt_addDep (mods : List DepModule) (m d : ℕ) : pathAt (addDep mods m d) = pathAt mods := by
  funext j
  unfold pathAt addDep
  rw [List.getElem?_modify]
  cases mods[j]? with
  | none => rfl
  | some e =>
      show some (if m = j then _ else e).path = some e.path
      split
      · rfl
      · rfl

theorem map_path_addDep (mods : List DepModule) (m d : ℕ) :
    (addDep mods m d).map DepModule.path = mods.map DepModule.path := by
  apply List.ext_getElem?
  intro j
  rw [List.getElem?_map, List.getElem?_map]
  exact congrFun (pathAt_addDep mods m d) j

theorem Collected.addedDep (h : Collected dir names dep mods) {path : CString} {d : ℕ} {target : CString}
    (hm : pathAt mods m = some path) (hd : pathAt mods d = some target) :
    Collected dir names (fun q => dep q ++ if path = q then [target] else []) (addDep mods m d) := by
  obtain ⟨entry, hentry, hpath⟩ := Option.map_eq_some_iff.mp hm
  -- the paths are different, so that only the module that is changed has this one
  have hcases : ∀ e ∈ addDep mods m d, (e = { entry with deps := entry.deps ++ [d] }) ∨
      (e ∈ mods ∧ e.path ≠ path) := by
    intro e he
    obtain ⟨j, hj⟩ := List.mem_iff_getElem?.mp he
    unfold addDep at hj
    rw [List.getElem?_modify] at hj
    by_cases hmj : m = j
    · subst hmj
      rw [hentry] at hj
      left
      simpa using hj.symm
    · right
      have hj' : mods[j]? = some e := by
        cases hold : mods[j]? with
        | none => simp [hold] at hj
        | some old => simpa [hold, hmj] using hj
      refine ⟨List.mem_of_getElem? hj', fun hsame => hmj ?_⟩
      have hfirst : (mods.map DepModule.path)[m]? = some path := by rw [List.getElem?_map, hentry, ← hpath]; rfl
      have hsecond : (mods.map DepModule.path)[j]? = some path := by rw [List.getElem?_map, hj', ← hsame]; rfl
      have hlt := (List.getElem?_eq_some_iff.mp hfirst).1
      exact (List.getElem?_inj hlt h.nodup).mp (hfirst.trans hsecond.symm)
  have hentryMem : entry ∈ mods := List.mem_of_getElem? hentry
  constructor
  · intro e he
    rcases hcases e he with rfl | ⟨he, -⟩
    · exact h.named entry hentryMem
    · exact h.named e he
  · intro p hp
    rw [map_path_addDep]
    exact h.found p hp
  · rw [map_path_addDep]
    exact h.nodup
  · intro e he
    rw [pathAt_addDep]
    rcases hcases e he with rfl | ⟨he, hother⟩
    · show (entry.deps ++ [d]).map (pathAt mods) = _
      rw [List.map_append, h.deps entry hentryMem, if_pos hpath.symm, List.map_append, List.map_singleton, hd]
      rfl
    · rw [if_neg (Ne.symm hother), List.append_nil]
      exact h.deps e he
  · intro q hq
    rw [map_path_addDep] at hq
    have hne : path ≠ q := by
      rintro rfl
      rw [← hpath] at hq
      exact hq (List.mem_map_of_mem hentryMem)
    rw [if_neg hne, List.append_nil]
    exact h.empty q hq

theorem Collected.find_isSome (h : Collected dir names dep mods)
    (hone : ∀ q ∈ names, areModulesEqual (moduleName p) (moduleName q) = true →
      extendRelativeModulePath dir p = extendRelativeModulePath dir q) :
    ∃ i mods', findOrCreateModule dir p mods = some (i, mods') := by
  unfold findOrCreateModule
  cases hfind : mods.findIdx? fun m => areModulesEqual (moduleName p) m.name with
  | none => exact ⟨_, _, rfl⟩
  | some i =>
      obtain ⟨hlt, hequal, -⟩ := List.findIdx?_eq_some_iff_getElem.mp hfind
      obtain ⟨q, hq, hpath, hname⟩ := h.named mods[i] (List.getElem_mem hlt)
      rw [← hname] at hequal
      have hsame : (mods[i]?).map DepModule.path = some (extendRelativeModulePath dir p) := by
        rw [List.getElem?_eq_getElem hlt, hone q hq hequal, hpath]
        rfl
      exact ⟨i, mods, if_pos hsame⟩

end collect

/-! ### The loops -/

section loops

variable {kernelVersion : CString} {names : List CString} {dep : CString → List CString}
  {mods mods' : List DepModule} {m : ℕ} {path : CString}

section steps

variable {dir : CString} {i : ℕ} {d : CString} {entry : CString × List CString}

theorem readDep_none (m : ℕ) (ok : Bool) (h : findOrCreateModule dir d mods = none) :
    readDep dir m (mods, ok) d = (mods, false) := by
  unfold readDep
  rw [h]

theorem readDep_some (m : ℕ) (ok : Bool) (h : findOrCreateModule dir d mods = some (i, mods')) :
    readDep dir m (mods, ok) d = (addDep mods' m i, ok) := by
  unfold readDep
  rw [h]

theorem readEntry_none (ok : Bool) (h : findOrCreateModule dir entry.1 mods = none) :
    readEntry dir (mods, ok) entry = (mods, false) := by
  unfold readEntry
  rw [h]

theorem readEntry_some (ok : Bool) (h : findOrCreateModule dir entry.1 mods = some (m, mods')) :
    readEntry dir (mods, ok) entry = entry.2.foldl (readDep dir m) (mods', ok) := by
  unfold readEntry
  rw [h]

end steps

theorem readDeps_failed (dir : CString) (m : ℕ) (ds : List CString) (mods : List DepModule) :
    (ds.foldl (readDep dir m) (mods, false)).2 = false := by
  induction ds generalizing mods with
  | nil => rfl
  | cons d ds ih =>
      rw [List.foldl_cons]
      cases hfind : findOrCreateModule dir d mods with
      | none =>
          rw [readDep_none m false hfind]
          exact ih mods
      | some found =>
          rw [readDep_some m false hfind]
          exact ih _

theorem readEntries_failed (dir : CString) (entries : List (CString × List CString)) (mods : List DepModule) :
    (entries.foldl (readEntry dir) (mods, false)).2 = false := by
  induction entries generalizing mods with
  | nil => rfl
  | cons entry entries ih =>
      rw [List.foldl_cons]
      cases hfind : findOrCreateModule dir entry.1 mods with
      | none =>
          rw [readEntry_none false hfind]
          exact ih mods
      | some found =>
          have hflag := readDeps_failed dir found.1 entry.2 found.2
          rcases hresult : entry.2.foldl (readDep dir found.1) (found.2, false) with ⟨mods', ok⟩
          rw [hresult] at hflag
          obtain rfl : ok = false := hflag
          rw [readEntry_some false hfind, hresult]
          exact ih mods'

theorem Collected.readDeps (hversion : kernelVersion.length ≤ 1009)
    (h : Collected (modulesDir kernelVersion) names dep mods) (hm : pathAt mods m = some path)
    {ds : List CString} (hrun : ds.foldl (readDep (modulesDir kernelVersion) m) (mods, true) = (mods', true)) :
    Collected (modulesDir kernelVersion) (names ++ ds)
      (fun q => dep q ++ if path = q then ds.map (extendRelativeModulePath (modulesDir kernelVersion)) else [])
      mods' := by
  induction ds generalizing names dep mods with
  | nil =>
      obtain ⟨rfl, -⟩ := Prod.mk.inj hrun
      simpa using h
  | cons d ds ih =>
      rw [List.foldl_cons] at hrun
      cases hfind : findOrCreateModule (modulesDir kernelVersion) d mods with
      | none =>
          -- a name that is refused is never forgotten
          have hflag := readDeps_failed (modulesDir kernelVersion) m ds mods
          rw [readDep_none m true hfind] at hrun
          rw [hrun] at hflag
          exact nomatch hflag
      | some found =>
          obtain ⟨i, mods₁⟩ := found
          obtain ⟨hfound, hkeep, hi⟩ := h.find hversion hfind
          have hm₁ := hkeep m path hm
          rw [readDep_some m true hfind] at hrun
          have hrest := ih (hfound.addedDep hm₁ hi) (by rw [pathAt_addDep]; exact hm₁) hrun
          have hdep : ∀ q, (dep q ++ if path = q then
              [extendRelativeModulePath (modulesDir kernelVersion) d] else []) ++
              (if path = q then ds.map (extendRelativeModulePath (modulesDir kernelVersion)) else []) =
              dep q ++ if path = q then (d :: ds).map (extendRelativeModulePath (modulesDir kernelVersion))
                else [] := by
            intro q
            split
            · rw [List.append_assoc, List.singleton_append, List.map_cons]
            · rw [List.append_nil, List.append_nil]
          rw [List.append_assoc, List.singleton_append] at hrest
          simpa only [hdep] using hrest

theorem Collected.readEntries (hversion : kernelVersion.length ≤ 1009)
    (h : Collected (modulesDir kernelVersion) names dep mods) {entries : List (CString × List CString)}
    (hrun : entries.foldl (readEntry (modulesDir kernelVersion)) (mods, true) = (mods', true)) :
    Collected (modulesDir kernelVersion) (names ++ namesOf entries)
      (fun q => dep q ++ depsOf (modulesDir kernelVersion) q entries) mods' := by
  induction entries generalizing names dep mods with
  | nil =>
      obtain ⟨rfl, -⟩ := Prod.mk.inj hrun
      simpa [namesOf, depsOf] using h
  | cons entry entries ih =>
      rw [List.foldl_cons] at hrun
      cases hfind : findOrCreateModule (modulesDir kernelVersion) entry.1 mods with
      | none =>
          have hflag := readEntries_failed (modulesDir kernelVersion) entries mods
          rw [readEntry_none true hfind] at hrun
          rw [hrun] at hflag
          exact nomatch hflag
      | some found =>
          obtain ⟨m, mods₁⟩ := found
          rw [readEntry_some true hfind] at hrun
          rcases hdeps : entry.2.foldl (readDep (modulesDir kernelVersion) m) (mods₁, true) with ⟨mods₂, ok⟩
          rw [hdeps] at hrun
          cases ok with
          | false =>
              have hflag := readEntries_failed (modulesDir kernelVersion) entries mods₂
              rw [hrun] at hflag
              exact nomatch hflag
          | true =>
              obtain ⟨hfound, -, hm⟩ := h.find hversion hfind
              have hrest := ih (hfound.readDeps hversion hm hdeps) hrun
              simpa [namesOf, depsOf, List.append_assoc] using hrest

theorem Collected.readDeps_succeeds (hversion : kernelVersion.length ≤ 1009)
    (h : Collected (modulesDir kernelVersion) names dep mods) (hm : pathAt mods m = some path)
    {ds : List CString} (hone : OnePath (modulesDir kernelVersion) (names ++ ds)) :
    (ds.foldl (readDep (modulesDir kernelVersion) m) (mods, true)).2 = true := by
  induction ds generalizing names dep mods with
  | nil => rfl
  | cons d ds ih =>
      obtain ⟨i, mods₁, hfind⟩ := h.find_isSome (p := d) fun q hq =>
        hone d (List.mem_append_right _ List.mem_cons_self) q (List.mem_append_left _ hq)
      obtain ⟨hfound, hkeep, hi⟩ := h.find hversion hfind
      have hm₁ := hkeep m path hm
      rw [List.foldl_cons, readDep_some m true hfind]
      apply ih (hfound.addedDep hm₁ hi) (by rw [pathAt_addDep]; exact hm₁)
      rwa [List.append_assoc, List.singleton_append]

theorem Collected.readEntries_succeeds (hversion : kernelVersion.length ≤ 1009)
    (h : Collected (modulesDir kernelVersion) names dep mods) {entries : List (CString × List CString)}
    (hone : OnePath (modulesDir kernelVersion) (names ++ namesOf entries)) :
    (entries.foldl (readEntry (modulesDir kernelVersion)) (mods, true)).2 = true := by
  induction entries generalizing names dep mods with
  | nil => rfl
  | cons entry entries ih =>
      have hnames : names ++ namesOf (entry :: entries) =
          names ++ [entry.1] ++ entry.2 ++ namesOf entries := by simp [namesOf]
      rw [hnames] at hone
      obtain ⟨m, mods₁, hfind⟩ := h.find_isSome (p := entry.1) fun q hq =>
        hone entry.1 (by simp) q (by simp [hq])
      obtain ⟨hfound, -, hm⟩ := h.find hversion hfind
      have hdepsOne : OnePath (modulesDir kernelVersion) (names ++ [entry.1] ++ entry.2) := by
        intro p hp q hq
        exact hone p (List.mem_append_left _ hp) q (List.mem_append_left _ hq)
      have hflag := hfound.readDeps_succeeds hversion hm hdepsOne
      rcases hdeps : entry.2.foldl (readDep (modulesDir kernelVersion) m) (mods₁, true) with ⟨mods₂, ok⟩
      rw [hdeps] at hflag
      obtain rfl : ok = true := hflag
      rw [List.foldl_cons, readEntry_some true hfind, hdeps]
      exact ih (hfound.readDeps hversion hm hdeps) hone

end loops

/-! ### The pieces of the file -/

section pieces

variable {kernelVersion dir : CString} {lines : List DepLine}

theorem readPiece_ignored {more : List CString} (h : ∀ piece ∈ more, ':' ∉ piece)
    (st : List DepModule × Bool) : (more.map bufferText).foldl (readPiece dir) st = st := by
  induction more with
  | nil => rfl
  | cons piece more ih =>
      obtain ⟨hpiece, hmore⟩ := List.forall_mem_cons.mp h
      have hnot : ':' ∉ bufferText piece := fun hmem => hpiece ((List.takeWhile_sublist _).subset hmem)
      have hstep : readPiece dir st (bufferText piece) = st := if_neg hnot
      rw [List.map_cons, List.foldl_cons, hstep]
      exact ih hmore

theorem readPiece_first (l : DepLine) (hkey : l.key.length ≤ 4093) {ending : CString}
    (hending : ending = [] ∨ ending = ['\n']) (st : List DepModule × Bool) :
    readPiece dir st (bufferText ((l.line ++ ending).take 4094)) = readEntry dir st (l.key, l.firstDeps) := by
  have htake : (l.line ++ ending).take 4094 = l.key ++ ':' :: (l.rest ++ ending).take (4093 - l.key.length) := by
    have hlength : 4094 - l.key.length = (4093 - l.key.length) + 1 := by omega
    unfold DepLine.line
    rw [List.append_assoc, List.take_append, List.take_of_length_le (by omega), List.cons_append, hlength,
      List.take_succ_cons]
  have hnul : '\x00' ∉ l.key ++ ':' :: (l.rest ++ ending).take (4093 - l.key.length) := by
    intro hmem
    rcases List.mem_append.mp hmem with hmem | hmem
    · exact l.key_chars.2 hmem
    · rcases List.mem_cons.mp hmem with hmem | hmem
      · exact absurd hmem (by decide)
      · rcases List.mem_append.mp (List.mem_of_mem_take hmem) with hmem | hmem
        · exact l.rest_chars.2 hmem
        · rcases hending with rfl | rfl
          · exact nomatch hmem
          · exact absurd (List.mem_singleton.mp hmem) (by decide)
  have hkeyChars : ∀ c ∈ l.key, (decide (c ≠ ':')) = true := fun c hc =>
    decide_eq_true fun heq => l.key_colon (heq ▸ hc)
  have hdeps : runsOf isSpaceC ((l.rest ++ ending).take (4093 - l.key.length)) = l.firstDeps := by
    unfold DepLine.firstDeps
    rw [List.take_append]
    rcases hending with rfl | rfl
    · rw [List.take_nil, List.append_nil]
    · cases 4093 - l.key.length - l.rest.length with
      | zero => rw [List.take_zero, List.append_nil]
      | succ k =>
          have hsep : isSpaceC '\n' = true := by decide
          rw [List.take_succ_cons, List.take_nil, runsOf_append_sep hsep, runsOf_nil, List.append_nil]
  rw [htake, bufferText_eq hnul, readPiece, if_pos (by simp), List.takeWhile_append_of_pos hkeyChars,
    List.dropWhile_append_of_pos hkeyChars, List.takeWhile_cons_of_neg (by simp),
    List.dropWhile_cons_of_neg (by simp), List.append_nil, List.tail_cons, depNames_eq, hdeps]

theorem line_noLf (l : DepLine) : '\n' ∉ l.line := by
  unfold DepLine.line
  simp [l.key_chars.1, l.rest_chars.1]

theorem readPieces_eq (lastEnd : Bool) (hplain : ∀ l ∈ lines, l.Plain) (st : List DepModule × Bool) :
    ((fgetsAll 4094 (fileText lastEnd lines)).map bufferText).foldl (readPiece dir) st =
      (firstEntries lines).foldl (readEntry dir) st := by
  induction lines generalizing st with
  | nil => rfl
  | cons l lines ih =>
      obtain ⟨⟨hkey, hcolon⟩, hlines⟩ := List.forall_mem_cons.mp hplain
      have hentries : firstEntries (l :: lines) = (l.key, l.firstDeps) :: firstEntries lines := rfl
      -- a line with its line end, whatever follows
      have hcut : ∀ rest, ((fgetsAll 4094 (l.line ++ '\n' :: rest)).map bufferText).foldl (readPiece dir) st =
          ((fgetsAll 4094 rest).map bufferText).foldl (readPiece dir)
            (readEntry dir st (l.key, l.firstDeps)) := by
        intro rest
        obtain ⟨more, hmore, hchars⟩ := fgetsAll_cut (show 0 < 4094 by decide) (line_noLf l) rest
        have hignored : ∀ piece ∈ more, ':' ∉ piece := by
          intro piece hpiece hmem
          rcases hchars piece hpiece ':' hmem with hdrop | hlf
          · exact hcolon hdrop
          · exact absurd hlf (by decide)
        rw [hmore, List.map_cons, List.foldl_cons, readPiece_first l hkey (.inr rfl), List.map_append,
          List.foldl_append, readPiece_ignored hignored]
      rw [hentries, List.foldl_cons]
      cases lines with
      | cons next lines => rw [← ih hlines]; exact hcut _
      | nil =>
          cases lastEnd with
          | true => exact hcut []
          | false =>
              have hline : l.line ≠ [] := by simp [DepLine.line]
              obtain ⟨more, hmore, hchars⟩ :=
                fgetsAll_last (show 0 < 4094 by decide) (line_noLf l) hline
              have hfirst : readPiece dir st _ = _ := readPiece_first l hkey (.inl rfl) st
              have htext : fileText false [l] = l.line := by simp [fileText]
              rw [List.append_nil] at hfirst
              rw [htext, hmore, List.map_cons, List.foldl_cons, hfirst,
                readPiece_ignored fun piece hpiece hmem => hcolon (hchars piece hpiece ':' hmem)]
              rfl

end pieces

/-! ## When the dependencies are complete -/

theorem eq_of_flatMap_eq {α β : Type*} {part whole : α → List β} {l : List α}
    (hle : ∀ a ∈ l, (part a).length ≤ (whole a).length) (h : l.flatMap part = l.flatMap whole) :
    ∀ a ∈ l, part a = whole a := by
  have htotal : ∀ l : List α, (∀ a ∈ l, (part a).length ≤ (whole a).length) →
      (l.flatMap part).length ≤ (l.flatMap whole).length := by
    intro l hle
    induction l with
    | nil => simp
    | cons a l ih =>
        obtain ⟨ha, hl⟩ := List.forall_mem_cons.mp hle
        have hrest := ih hl
        rw [List.flatMap_cons, List.flatMap_cons, List.length_append, List.length_append]
        omega
  induction l with
  | nil => simp
  | cons a l ih =>
      obtain ⟨ha, hl⟩ := List.forall_mem_cons.mp hle
      have hrest := htotal l hl
      rw [List.flatMap_cons, List.flatMap_cons] at h
      have hlength := congrArg List.length h
      rw [List.length_append, List.length_append] at hlength
      obtain ⟨hfirst, htail⟩ := List.append_inj h (by omega)
      exact List.forall_mem_cons.mpr ⟨hfirst, ih hl htail⟩

section complete

variable {kernelVersion dir : CString} {lines : List DepLine} {lastEnd : Bool}

theorem mem_namesOf_lines {names : DepLine → List CString} {p : CString} :
    p ∈ namesOf (lines.map fun l => (l.key, names l)) ↔ ∃ l ∈ lines, p = l.key ∨ p ∈ names l := by
  simp [namesOf, List.mem_flatMap]

theorem exists_name_iff (hfits : ∀ l ∈ lines, l.Fits dir) (path : CString) :
    (∃ p ∈ namesOf (firstEntries lines), extendRelativeModulePath dir p = path) ↔
      ∃ p ∈ namesOf (entriesOf lines), extendRelativeModulePath dir p = path := by
  have hdeps : ∀ l ∈ lines, (∃ p ∈ l.firstDeps, extendRelativeModulePath dir p = path) ↔
      ∃ p ∈ l.deps, extendRelativeModulePath dir p = path := by
    intro l hl
    rw [← List.mem_map, ← List.mem_map, hfits l hl]
  unfold firstEntries entriesOf
  simp only [mem_namesOf_lines]
  constructor
  · rintro ⟨p, ⟨l, hl, rfl | hp⟩, hpath⟩
    · exact ⟨l.key, ⟨l, hl, .inl rfl⟩, hpath⟩
    · obtain ⟨q, hq, hqpath⟩ := (hdeps l hl).mp ⟨p, hp, hpath⟩
      exact ⟨q, ⟨l, hl, .inr hq⟩, hqpath⟩
  · rintro ⟨p, ⟨l, hl, rfl | hp⟩, hpath⟩
    · exact ⟨l.key, ⟨l, hl, .inl rfl⟩, hpath⟩
    · obtain ⟨q, hq, hqpath⟩ := (hdeps l hl).mpr ⟨p, hp, hpath⟩
      exact ⟨q, ⟨l, hl, .inr hq⟩, hqpath⟩

theorem depsOf_firstEntries (hfits : ∀ l ∈ lines, l.Fits dir) (path : CString) :
    depsOf dir path (firstEntries lines) = depsOf dir path (entriesOf lines) := by
  unfold depsOf firstEntries entriesOf
  rw [List.flatMap_map, List.flatMap_map]
  apply List.flatMap_congr
  intro l hl
  have hl := hfits l hl
  unfold DepLine.Fits at hl
  simp only [hl]

theorem OnePath.firstEntries (hversion : kernelVersion.length ≤ 1009)
    (hone : OnePath (modulesDir kernelVersion) (namesOf (entriesOf lines)))
    (hfits : ∀ l ∈ lines, l.Fits (modulesDir kernelVersion)) :
    OnePath (modulesDir kernelVersion) (namesOf (firstEntries lines)) := by
  intro p hp q hq hequal
  obtain ⟨p', hp', hpath⟩ := (exists_name_iff hfits _).mp ⟨p, hp, rfl⟩
  obtain ⟨q', hq', hqath⟩ := (exists_name_iff hfits _).mp ⟨q, hq, rfl⟩
  rw [← moduleName_of_path hversion hpath, ← moduleName_of_path hversion hqath] at hequal
  rw [← hpath, ← hqath]
  exact hone p' hp' q' hq' hequal

theorem readsRight_of_fits (hversion : kernelVersion.length ≤ 1009)
    (hone : OnePath (modulesDir kernelVersion) (namesOf (entriesOf lines)))
    (hplain : ∀ l ∈ lines, l.Plain) (hfits : ∀ l ∈ lines, l.Fits (modulesDir kernelVersion)) :
    ReadsRight (modulesDir kernelVersion) (entriesOf lines)
      (readModulesDependencyFile kernelVersion (fileText lastEnd lines)) := by
  have hinit := Collected.init (modulesDir kernelVersion)
  have hok := hinit.readEntries_succeeds hversion (hone.firstEntries hversion hfits)
  unfold readModulesDependencyFile
  rw [readPieces_eq lastEnd hplain]
  rcases hrun : (firstEntries lines).foldl (readEntry (modulesDir kernelVersion)) ([], true) with ⟨mods, ok⟩
  rw [hrun] at hok
  obtain rfl : ok = true := hok
  have hcollected := hinit.readEntries hversion hrun
  refine ⟨rfl, hcollected.nodup, ?_, ?_⟩
  · intro path
    rw [← exists_name_iff hfits]
    constructor
    · intro hpath
      obtain ⟨m, hm, rfl⟩ := List.mem_map.mp hpath
      obtain ⟨p, hp, hpath, -⟩ := hcollected.named m hm
      exact ⟨p, hp, hpath⟩
    · rintro ⟨p, hp, rfl⟩
      exact hcollected.found p hp
  · intro m hm
    have hdeps := hcollected.deps m hm
    rwa [List.nil_append, depsOf_firstEntries hfits] at hdeps

theorem fits_of_readsRight (hversion : kernelVersion.length ≤ 1009) (hplain : ∀ l ∈ lines, l.Plain)
    (hright : ReadsRight (modulesDir kernelVersion) (entriesOf lines)
      (readModulesDependencyFile kernelVersion (fileText lastEnd lines))) :
    ∀ l ∈ lines, l.Fits (modulesDir kernelVersion) := by
  have hinit := Collected.init (modulesDir kernelVersion)
  unfold readModulesDependencyFile at hright
  rw [readPieces_eq lastEnd hplain] at hright
  rcases hrun : (firstEntries lines).foldl (readEntry (modulesDir kernelVersion)) ([], true) with ⟨mods, ok⟩
  rw [hrun] at hright
  obtain rfl : ok = true := hright.succeeds
  have hcollected := hinit.readEntries hversion hrun
  intro l hl
  -- the module of the line has the dependencies that are read and those that are written
  have hnamed : l.key ∈ namesOf (entriesOf lines) := mem_namesOf_lines.mpr ⟨l, hl, .inl rfl⟩
  obtain ⟨m, hm, hpath⟩ := List.mem_map.mp ((hright.paths _).mpr ⟨l.key, hnamed, rfl⟩)
  have hdeps : depsOf (modulesDir kernelVersion) m.path (firstEntries lines) =
      depsOf (modulesDir kernelVersion) m.path (entriesOf lines) := by
    have hread := hcollected.deps m hm
    rw [List.nil_append, hright.deps m hm] at hread
    exact (List.map_injective_iff.mpr (Option.some_injective _) hread).symm
  unfold depsOf firstEntries entriesOf at hdeps
  rw [List.flatMap_map, List.flatMap_map] at hdeps
  have hle : ∀ l ∈ lines,
      (if extendRelativeModulePath (modulesDir kernelVersion) l.key = m.path then
        l.firstDeps.map (extendRelativeModulePath (modulesDir kernelVersion)) else []).length ≤
      (if extendRelativeModulePath (modulesDir kernelVersion) l.key = m.path then
        l.deps.map (extendRelativeModulePath (modulesDir kernelVersion)) else []).length := by
    intro l _
    have hcount := length_runsOf_le (p := isSpaceC) (l.rest.take (4093 - l.key.length))
      (l.rest.drop (4093 - l.key.length))
    rw [List.take_append_drop] at hcount
    split
    · rw [List.length_map, List.length_map]
      exact hcount
    · exact le_rfl
  have hline := eq_of_flatMap_eq hle hdeps l hl
  rwa [if_pos hpath.symm, if_pos hpath.symm] at hline

theorem fits_of_length_le {l : DepLine} (h : l.line.length ≤ 4094) : l.Plain ∧ l.Fits dir := by
  have hlength : l.line.length = l.key.length + (l.rest.length + 1) := List.length_append
  have hfirst : l.firstDeps = l.deps := by
    unfold DepLine.firstDeps DepLine.deps
    rw [List.take_of_length_le (by omega)]
  refine ⟨⟨by omega, ?_⟩, ?_⟩
  · rw [List.drop_of_length_le h]
    exact List.not_mem_nil
  · unfold DepLine.Fits
    rw [hfirst]

/-- A file is read completely if each line has its path and its dependencies in the first 4094 characters
and no colon behind them.  Where the paths end in time and there is no such colon, this is necessary. -/
theorem readsRight_lines (kernelVersion : CString) (lastEnd : Bool) (lines : List DepLine)
    (hversion : kernelVersion.length ≤ 1009)
    (hone : OnePath (modulesDir kernelVersion) (namesOf (entriesOf lines))) :
    ((∀ l ∈ lines, l.Plain ∧ l.Fits (modulesDir kernelVersion)) →
      ReadsRight (modulesDir kernelVersion) (entriesOf lines)
        (readModulesDependencyFile kernelVersion (fileText lastEnd lines))) ∧
    ((∀ l ∈ lines, l.Plain) →
      ReadsRight (modulesDir kernelVersion) (entriesOf lines)
        (readModulesDependencyFile kernelVersion (fileText lastEnd lines)) →
      ∀ l ∈ lines, l.Fits (modulesDir kernelVersion)) := by
  constructor
  · intro h
    exact readsRight_of_fits hversion hone (fun l hl => (h l hl).1) fun l hl => (h l hl).2
  · intro hplain hright
    exact fits_of_readsRight hversion hplain hright

/-- Two modules of which one needs the other. -/
def shortLine : DepLine :=
  ⟨"kernel/a.ko".toList, " kernel/b-c.ko".toList, by decide, by decide, by decide⟩

theorem readsRight_shortLine :
    ReadsRight (modulesDir "4.14".toList) (entriesOf [shortLine])
      (readModulesDependencyFile "4.14".toList (fileText true [shortLine])) := by
  have hone : OnePath (modulesDir "4.14".toList) (namesOf (entriesOf [shortLine])) := by
    have hnames : namesOf (entriesOf [shortLine]) = ["kernel/a.ko".toList, "kernel/b-c.ko".toList] := by decide
    rw [hnames]
    decide
  refine (readsRight_lines "4.14".toList true [shortLine] (by decide) hone).1 fun l hl => ?_
  obtain rfl := List.mem_singleton.mp hl
  exact fits_of_length_le (by decide)

end complete

/-! ### The array of the other functions -/

section array

variable {dir : CString} {entries : List (CString × List CString)} {result : List DepModule × Bool}

theorem ReadsRight.deps_lt (h : ReadsRight dir entries result) :
    ∀ m ∈ result.1, ∀ d ∈ m.deps, d < result.1.length := by
  intro m hm d hd
  have hmem : pathAt result.1 d ∈ (depsOf dir m.path entries).map some := by
    rw [← h.deps m hm]
    exact List.mem_map_of_mem hd
  obtain ⟨path, -, hpath⟩ := List.mem_map.mp hmem
  obtain ⟨e, he, -⟩ := Option.map_eq_some_iff.mp hpath.symm
  exact (List.getElem?_eq_some_iff.mp he).1

/-- The modules as `compute_modules_used` sees them. -/
def moduleArray (mods : List DepModule) (h : ∀ m ∈ mods, ∀ d ∈ m.deps, d < mods.length) : ModuleArray where
  n := mods.length
  get := fun i =>
    { name := mods[i].name
      path := mods[i].path
      deps := mods[i].deps.attach.map fun d => ⟨d.1, h mods[i] (List.getElem_mem _) d.1 d.2⟩ }

theorem ReadsRight.moduleArray_deps (h : ReadsRight dir entries result) (i : Fin result.1.length) :
    ((moduleArray result.1 h.deps_lt).get i).deps.map
        (fun d => ((moduleArray result.1 h.deps_lt).get d).path) =
      depsOf dir ((moduleArray result.1 h.deps_lt).get i).path entries := by
  have hlt : ∀ d ∈ result.1[i].deps, d < result.1.length := h.deps_lt result.1[i] (List.getElem_mem _)
  show (result.1[i].deps.attach.map fun d => (⟨d.1, hlt d.1 d.2⟩ : Fin result.1.length)).map
    (fun d => result.1[d].path) = depsOf dir result.1[i].path entries
  apply List.map_injective_iff.mpr (Option.some_injective CString)
  rw [← h.deps result.1[i] (List.getElem_mem _), List.map_map, List.map_map]
  calc result.1[i].deps.attach.map _ = result.1[i].deps.attach.map (pathAt result.1 ∘ Subtype.val) := by
        apply List.map_congr_left
        intro d _
        have hd := hlt d.1 d.2
        show some result.1[d.1].path = (result.1[d.1]?).map DepModule.path
        rw [List.getElem?_eq_getElem hd]
        rfl
    _ = result.1[i].deps.map (pathAt result.1) := by rw [← List.map_map, List.attach_map_subtype_val]

end array

/-! ### A line that is too long -/

theorem runsOf_words {w : CString} (hne : w ≠ []) (hw : ∀ c ∈ w, isSpaceC c = false) (n : ℕ) :
    runsOf isSpaceC (List.replicate n (w ++ [' '])).flatten = List.replicate n w := by
  have hsep : isSpaceC ' ' = true := by decide
  induction n with
  | zero => rfl
  | succ n ih =>
      have hsplit : w.splitOnP isSpaceC = [w] := List.splitOnP_eq_singleton hw
      have hword : runsOf isSpaceC w = [w] := by simp [runsOf, hsplit, hne]
      rw [List.replicate_succ, List.flatten_cons, List.append_assoc, List.singleton_append,
        runsOf_append_sep hsep, hword, ih, List.singleton_append, List.replicate_succ]

/-- A module and `n` dependencies. -/
def manyDeps (n : ℕ) : CString := ' ' :: (List.replicate n ("m.ko".toList ++ [' '])).flatten

theorem mem_manyDeps {n : ℕ} {c : Char} (h : c ∈ manyDeps n) : c ∈ "m.ko ".toList := by
  rcases List.mem_cons.mp h with rfl | h
  · decide
  · obtain ⟨w, hw, hc⟩ := List.mem_flatten.mp h
    rw [List.eq_of_mem_replicate hw] at hc
    exact hc

theorem runsOf_manyDeps (n : ℕ) : runsOf isSpaceC (manyDeps n) = List.replicate n "m.ko".toList := by
  have hword : ∀ c ∈ "m.ko".toList, isSpaceC c = false := by
    intro c hc
    have hall : "m.ko".toList.all (fun c => !isSpaceC c) = true := by decide
    simpa using List.all_eq_true.mp hall c hc
  unfold manyDeps
  rw [runsOf_cons_of_sep (by decide), runsOf_words (by decide) hword]

theorem length_manyDeps (n : ℕ) : (manyDeps n).length = 5 * n + 1 := by
  have hword : ("m.ko".toList ++ [' ']).length = 5 := by decide
  unfold manyDeps
  rw [List.length_cons, List.length_flatten, List.map_replicate, hword, List.sum_replicate, smul_eq_mul,
    mul_comm]

theorem manyDeps_add (m n : ℕ) :
    manyDeps (m + n) = manyDeps m ++ (List.replicate n ("m.ko".toList ++ [' '])).flatten := by
  unfold manyDeps
  rw [List.replicate_add, List.flatten_append, List.cons_append]

/-- A line with a thousand dependencies. -/
def longLine : DepLine where
  key := "a.ko".toList
  rest := manyDeps 1000
  key_colon := by decide
  key_chars := by decide
  rest_chars := ⟨fun h => absurd (mem_manyDeps h) (by decide), fun h => absurd (mem_manyDeps h) (by decide)⟩

/-- Of a thousand dependencies, no more than 818 are read. -/
theorem not_readsRight_longLine :
    OnePath (modulesDir "4.14".toList) (namesOf (entriesOf [longLine])) ∧
      ¬ ReadsRight (modulesDir "4.14".toList) (entriesOf [longLine])
        (readModulesDependencyFile "4.14".toList (fileText true [longLine])) := by
  have hdeps : longLine.deps = List.replicate 1000 "m.ko".toList := runsOf_manyDeps 1000
  constructor
  · have hnames : ∀ p ∈ namesOf (entriesOf [longLine]), p = "a.ko".toList ∨ p = "m.ko".toList := by
      intro p hp
      have hp : p ∈ longLine.key :: longLine.deps := by simpa [namesOf, entriesOf] using hp
      rcases List.mem_cons.mp hp with rfl | hp
      · exact .inl rfl
      · rw [hdeps] at hp
        exact .inr (List.eq_of_mem_replicate hp)
    intro p hp q hq hequal
    rcases hnames p hp with rfl | rfl
    · rcases hnames q hq with rfl | rfl
      · rfl
      · exact absurd hequal (by decide)
    · rcases hnames q hq with rfl | rfl
      · exact absurd hequal (by decide)
      · rfl
  · intro hright
    have hplain : ∀ l ∈ [longLine], l.Plain := by
      intro l hl
      obtain rfl := List.mem_singleton.mp hl
      refine ⟨by decide, fun hmem => ?_⟩
      have hline : longLine.line = "a.ko:".toList ++ longLine.rest := rfl
      have hkey : "a.ko:".toList.length = 5 := by decide
      have hdrop : longLine.line.drop 4094 = longLine.rest.drop 4089 := by
        rw [hline, List.drop_append, hkey, List.drop_of_length_le (by omega), List.nil_append]
      rw [hdrop] at hmem
      exact absurd (mem_manyDeps (List.mem_of_mem_drop hmem)) (by decide)
    have hfits := fits_of_readsRight (by decide) hplain hright longLine (List.mem_singleton_self _)
    have hlength := congrArg List.length hfits
    have hcount : longLine.firstDeps.length ≤ 818 := by
      have htake : (manyDeps 1000).take 4089 = (manyDeps 818).take 4089 := by
        rw [manyDeps_add 818 182, List.take_append_of_le_length (by rw [length_manyDeps]; omega)]
      have hle := length_runsOf_le (p := isSpaceC) ((manyDeps 818).take 4089) ((manyDeps 818).drop 4089)
      rw [List.take_append_drop, runsOf_manyDeps, List.length_replicate, ← htake] at hle
      exact hle
    rw [List.length_map, List.length_map, hdeps, List.length_replicate] at hlength
    omega

end ModulesDep
end Ziplist
end Mkfli4l
