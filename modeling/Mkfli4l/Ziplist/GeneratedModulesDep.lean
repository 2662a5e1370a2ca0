import Mkfli4l.Ziplist.ModulesDep

/-!
# From `modules.dep` to the `modules.dep` of the target system

`mkfli4l` reads `modules.dep`, spreads the target archives of the selected modules along the
dependencies, and writes a new `modules.dep` with the modules that are used.  Read again, the new file
gives these modules, each with the dependencies that it has in the first file.
-/

namespace Mkfli4l
namespace Ziplist
namespace ModulesDep

open Lib

section writing

variable {g : ModuleArray}

/-- The names of the dependencies of a module, as they are written behind the colon. -/
def dumpedDeps (g : ModuleArray) (m : Fin g.n) : CString :=
  (g.get m).deps.flatMap fun d => ' ' :: (g.get d).path

/-- Modules whose paths can be read again: no two of them are taken for one another, and their paths
contain no characters that end them. -/
structure Printable (g : ModuleArray) : Prop where
  oneName : ∀ m d, areModulesEqual (moduleName (g.get m).path) (moduleName (g.get d).path) = true →
    (g.get m).path = (g.get d).path
  key : ∀ m, ∀ c ∈ (g.get m).path, c ≠ ':' ∧ c ≠ '\n' ∧ c ≠ '\x00'
  dep : ∀ m d, d ∈ (g.get m).deps → (g.get d).path ≠ [] ∧ ∀ c ∈ (g.get d).path, isSpaceC c = false

variable (h : Printable g)

theorem mem_dumpedDeps {m : Fin g.n} {c : Char} (hc : c ∈ dumpedDeps g m) :
    c = ' ' ∨ ∃ d, c ∈ (g.get d).path := by
  obtain ⟨d, -, hc⟩ := List.mem_flatMap.mp hc
  exact (List.mem_cons.mp hc).imp_right fun hc => ⟨d, hc⟩

/-- The line of a module, as it is read. -/
def Printable.depLine (m : Fin g.n) : DepLine where
  key := (g.get m).path
  rest := dumpedDeps g m
  key_colon := fun hc => (h.key m _ hc).1 rfl
  key_chars := ⟨fun hc => (h.key m _ hc).2.1 rfl, fun hc => (h.key m _ hc).2.2 rfl⟩
  rest_chars := by
    constructor <;> intro hc <;> obtain hc | ⟨d, hc⟩ := mem_dumpedDeps hc
    · exact absurd hc (by decide)
    · exact (h.key d _ hc).2.1 rfl
    · exact absurd hc (by decide)
    · exact (h.key d _ hc).2.2 rfl

theorem Printable.depLine_deps (m : Fin g.n) :
    (h.depLine m).deps = (g.get m).deps.map fun d => (g.get d).path := by
  have hwords : ∀ ds : List (Fin g.n), (∀ d ∈ ds, d ∈ (g.get m).deps) →
      runsOf isSpaceC (ds.flatMap fun d => ' ' :: (g.get d).path) = ds.map fun d => (g.get d).path := by
    intro ds hds
    induction ds using List.reverseRecOn with
    | nil => exact runsOf_nil
    | append_singleton ds d ih =>
        obtain ⟨hne, hspace⟩ := h.dep m d (hds d (by simp))
        have hword : runsOf isSpaceC (g.get d).path = [(g.get d).path] := by
          simp [runsOf, List.splitOnP_eq_singleton hspace, hne]
        rw [List.flatMap_append, List.flatMap_singleton, runsOf_append_sep (by decide),
          ih fun d hd => hds d (List.mem_append_left _ hd), hword, List.map_append, List.map_singleton]
  exact hwords _ fun _ hd => hd

theorem fileText_true_cons (l : DepLine) (lines : List DepLine) :
    fileText true (l :: lines) = l.line ++ '\n' :: fileText true lines := by
  cases lines with
  | nil => rfl
  | cons next lines => rfl

theorem Printable.dump_eq (tgts : Targets g.n) :
    dumpModuleDependencyFile g tgts = fileText true ((usedModules g tgts).map h.depLine) := by
  unfold dumpModuleDependencyFile dependencyLines
  induction usedModules g tgts with
  | nil => rfl
  | cons m ms ih =>
      rw [List.map_cons, List.map_cons, List.flatMap_cons, ih, fileText_true_cons]
      simp [DepLine.line, Printable.depLine, dumpedDeps]

theorem Printable.exists_of_mem_namesOf {tgts : Targets g.n} {path : CString}
    (hpath : path ∈ namesOf (entriesOf ((usedModules g tgts).map h.depLine))) :
    ∃ m, (g.get m).path = path := by
  unfold entriesOf at hpath
  rw [List.map_map] at hpath
  obtain ⟨entry, hentry, hpath⟩ := List.mem_flatMap.mp hpath
  obtain ⟨m, -, rfl⟩ := List.mem_map.mp hentry
  rcases List.mem_cons.mp hpath with rfl | hpath
  · exact ⟨m, rfl⟩
  · have hpath : path ∈ (h.depLine m).deps := hpath
    rw [h.depLine_deps] at hpath
    obtain ⟨d, -, rfl⟩ := List.mem_map.mp hpath
    exact ⟨d, rfl⟩

end writing

section reading

variable {dir : CString} {lines : List DepLine} {result : List DepModule × Bool}

/-- The modules that have been read. -/
abbrev ReadsRight.array {entries : List (CString × List CString)} (h : ReadsRight dir entries result) :
    ModuleArray := moduleArray result.1 h.deps_lt

/-- A directory whose name can stand in front of a path, and under which one file has one name. -/
structure ModuleDir (dir : CString) : Prop where
  chars : ∀ c ∈ dir, c ≠ ':' ∧ c ≠ '\x00' ∧ isSpaceC c = false
  name : ∀ p q, extendRelativeModulePath dir p = extendRelativeModulePath dir q → moduleName p = moduleName q

theorem moduleDir_of_version {kernelVersion : CString} (hversion : kernelVersion.length ≤ 1009)
    (hchars : ∀ c ∈ kernelVersion, c ≠ ':' ∧ c ≠ '\x00' ∧ isSpaceC c = false) :
    ModuleDir (modulesDir kernelVersion) := by
  refine ⟨fun c hc => ?_, fun p q => moduleName_of_path hversion⟩
  rw [modulesDir_eq hversion, List.append_assoc, List.mem_append, List.mem_append] at hc
  rcases hc with hc | hc | hc
  · have hall : ∀ c ∈ "/lib/modules/".toList, c ≠ ':' ∧ c ≠ '\x00' ∧ isSpaceC c = false := by simp [isSpaceC]
    exact hall c hc
  · exact hchars c hc
  · obtain rfl := List.mem_singleton.mp hc
    decide

theorem extendRelativeModulePath_extended (dir p : CString) :
    extendRelativeModulePath dir (extendRelativeModulePath dir p) = extendRelativeModulePath dir p := by
  by_cases hp : dir.isPrefixOf p = true
  · simp only [extendRelativeModulePath, if_pos hp]
  · have hprefix : dir.isPrefixOf (dir ++ p) = true := List.isPrefixOf_iff_prefix.mpr (List.prefix_append dir p)
    simp only [extendRelativeModulePath, if_neg hp, if_pos hprefix]

theorem mem_extendRelativeModulePath {p path : CString} {c : Char}
    (hpath : extendRelativeModulePath dir p = path) (hc : c ∈ path) : c ∈ dir ∨ c ∈ p := by
  rw [← hpath] at hc
  unfold extendRelativeModulePath at hc
  split at hc
  · exact .inr hc
  · exact List.mem_append.mp hc

theorem notMem_name (hrest : ∀ l ∈ lines, ':' ∉ l.rest) {p : CString} (hp : p ∈ namesOf (entriesOf lines)) :
    ':' ∉ p ∧ '\n' ∉ p ∧ '\x00' ∉ p := by
  obtain ⟨l, hl, rfl | hp⟩ := mem_namesOf_lines.mp hp
  · exact ⟨l.key_colon, l.key_chars⟩
  · have hsub := (infix_of_mem_runsOf hp).1.subset
    exact ⟨fun hc => hrest l hl (hsub hc), fun hc => l.rest_chars.1 (hsub hc),
      fun hc => l.rest_chars.2 (hsub hc)⟩

theorem ReadsRight.printable (hdir : ModuleDir dir) (hrest : ∀ l ∈ lines, ':' ∉ l.rest)
    (hone : OnePath dir (namesOf (entriesOf lines))) (h : ReadsRight dir (entriesOf lines) result) :
    Printable h.array := by
  have hname : ∀ m, ∃ p ∈ namesOf (entriesOf lines),
      extendRelativeModulePath dir p = (h.array.get m).path :=
    fun m => (h.paths _).mp (List.mem_map_of_mem (List.getElem_mem _))
  have hfull : ∀ m, extendRelativeModulePath dir (h.array.get m).path =
      (h.array.get m).path := by
    intro m
    obtain ⟨p, -, hp⟩ := hname m
    rw [← hp, extendRelativeModulePath_extended]
  refine ⟨fun m d hequal => ?_, fun m c hc => ?_, fun m d hd => ?_⟩
  · obtain ⟨p, hp, hpath⟩ := hname m
    obtain ⟨q, hq, hqath⟩ := hname d
    rw [hdir.name _ _ ((hfull m).trans hpath.symm), hdir.name _ _ ((hfull d).trans hqath.symm)] at hequal
    exact (hpath.symm.trans (hone p hp q hq hequal)).trans hqath
  · obtain ⟨p, hp, hpath⟩ := hname m
    obtain ⟨hcolon, hend, hnul⟩ := notMem_name hrest hp
    rcases mem_extendRelativeModulePath hpath hc with hc | hc
    · obtain ⟨hcolon, hnul, hspace⟩ := hdir.chars c hc
      refine ⟨hcolon, ?_, hnul⟩
      rintro rfl
      exact absurd hspace (by decide)
    · exact ⟨fun heq => hcolon (heq ▸ hc), fun heq => hend (heq ▸ hc), fun heq => hnul (heq ▸ hc)⟩
  · have hmem := List.mem_map_of_mem (f := fun d => (h.array.get d).path) hd
    rw [h.moduleArray_deps m] at hmem
    obtain ⟨entry, hentry, hmem⟩ := List.mem_flatMap.mp hmem
    obtain ⟨l, -, rfl⟩ := List.mem_map.mp hentry
    split at hmem
    · obtain ⟨w, hw, hpath⟩ := List.mem_map.mp hmem
      refine ⟨fun hnil => ?_, fun c hc => ?_⟩
      · obtain ⟨c, w, rfl⟩ := List.exists_cons_of_ne_nil (ne_nil_of_mem_runsOf hw)
        rw [hnil, extendRelativeModulePath] at hpath
        split at hpath <;> simp at hpath
      · rcases mem_extendRelativeModulePath hpath hc with hc | hc
        · exact (hdir.chars c hc).2.2
        · exact (infix_of_mem_runsOf hw).2 c hc
    · exact absurd hmem List.not_mem_nil

/-- The lines of the new file: the modules that are used, with the dependencies that the lines of the
first file give them. -/
def usedEntries (dir : CString) (entries : List (CString × List CString)) (g : ModuleArray)
    (tgts : Targets g.n) : List (CString × List CString) :=
  (usedModules g tgts).map fun m => ((g.get m).path, depsOf dir (g.get m).path entries)

/-- The line of a module in the new file, without its end. -/
def writtenLine (dir : CString) (entries : List (CString × List CString)) (path : CString) : CString :=
  path ++ ':' :: (depsOf dir path entries).flatMap fun d => ' ' :: d

theorem ReadsRight.dumped {kernelVersion : CString} (hversion : kernelVersion.length ≤ 1009)
    (hdir : modulesDir kernelVersion = dir) (h : ReadsRight dir (entriesOf lines) result)
    (hprint : Printable h.array)
    (hwritten : ∀ p ∈ namesOf (entriesOf lines),
      (writtenLine dir (entriesOf lines) (extendRelativeModulePath dir p)).length ≤ 4094)
    (tgts : Targets h.array.n) :
    ReadsRight dir (usedEntries dir (entriesOf lines) h.array tgts)
      (readModulesDependencyFile kernelVersion (dumpModuleDependencyFile h.array tgts)) := by
  subst hdir
  have hentries : entriesOf ((usedModules h.array tgts).map hprint.depLine) =
      usedEntries (modulesDir kernelVersion) (entriesOf lines) h.array tgts := by
    unfold entriesOf usedEntries
    rw [List.map_map]
    exact List.map_congr_left fun m _ =>
      congrArg (Prod.mk _) ((hprint.depLine_deps m).trans (h.moduleArray_deps m))
  have hshort : ∀ l ∈ (usedModules h.array tgts).map hprint.depLine, l.line.length ≤ 4094 := by
    intro l hl
    obtain ⟨m, -, rfl⟩ := List.mem_map.mp hl
    obtain ⟨p, hp, hpath⟩ := (h.paths (h.array.get m).path).mp (List.mem_map_of_mem (List.getElem_mem _))
    have hlength := hwritten p hp
    rwa [hpath, writtenLine, ← h.moduleArray_deps m, List.flatMap_map] at hlength
  have hnames : OnePath (modulesDir kernelVersion)
      (namesOf (entriesOf ((usedModules h.array tgts).map hprint.depLine))) := by
    intro p hp q hq hequal
    obtain ⟨m, rfl⟩ := hprint.exists_of_mem_namesOf hp
    obtain ⟨d, rfl⟩ := hprint.exists_of_mem_namesOf hq
    exact congrArg _ (hprint.oneName m d hequal)
  rw [hprint.dump_eq, ← hentries]
  exact readsRight_of_fits hversion hnames (fun l hl => (@fits_of_length_le [] l (hshort l hl)).1)
    fun l hl => (fits_of_length_le (hshort l hl)).2

/-- **From file to file.**  The modules of a file whose lines can be read are selected by the archive list
and along the dependencies, and the new file is read as the lines of the modules that are used. -/
theorem generated_readsRight {kernelVersion : CString} (lastEnd : Bool) (hversion : kernelVersion.length ≤ 1009)
    (hchars : ∀ c ∈ kernelVersion, c ≠ ':' ∧ c ≠ '\x00' ∧ isSpaceC c = false)
    (hlines : ∀ l ∈ lines, l.line.length ≤ 4094 ∧ ':' ∉ l.rest)
    (hone : OnePath (modulesDir kernelVersion) (namesOf (entriesOf lines)))
    (hwritten : ∀ p ∈ namesOf (entriesOf lines), (writtenLine (modulesDir kernelVersion) (entriesOf lines)
      (extendRelativeModulePath (modulesDir kernelVersion) p)).length ≤ 4094)
    (hresult : readModulesDependencyFile kernelVersion (fileText lastEnd lines) = result) :
    result.2 = true ∧ ∃ hlt : ∀ m ∈ result.1, ∀ d ∈ m.deps, d < result.1.length,
      ∀ (found : CString → Option CString) (files : List Entry),
        let g := moduleArray result.1 hlt
        let selected := selectModules found g files (fun _ => .unknown, true)
        ∃ k tgts, (∀ fuel > k, computeModulesUsed found g files fuel = some (tgts, selected.2)) ∧
          (∀ m, tgts m ≠ .unknown ↔ ∃ s, selected.1 s ≠ .unknown ∧ g.Reaches s m) ∧
          ReadsRight (modulesDir kernelVersion)
            (usedEntries (modulesDir kernelVersion) (entriesOf lines) g tgts)
            (readModulesDependencyFile kernelVersion (dumpModuleDependencyFile g tgts)) := by
  have h : ReadsRight (modulesDir kernelVersion) (entriesOf lines) result := by
    rw [← hresult]
    exact readsRight_of_fits hversion hone (fun l hl => (@fits_of_length_le [] l (hlines l hl).1).1)
      fun l hl => (fits_of_length_le (hlines l hl).1).2
  have hprint := h.printable (moduleDir_of_version hversion hchars) (fun l hl => (hlines l hl).2) hone
  refine ⟨h.succeeds, h.deps_lt, fun found files => ?_⟩
  intro g selected
  obtain ⟨tgts, hrun, hspreads, hclosed⟩ := spreadTargets_terminates g (fun m => (selected.1 m).rank)
    (weight selected.1) selected.1 le_rfl (.refl _ _)
  refine ⟨weight selected.1, tgts, fun fuel hfuel => ?_, fun m => ?_, h.dumped hversion rfl hprint hwritten tgts⟩
  · exact congrArg (Option.map fun tgts => (tgts, selected.2)) (hrun fuel hfuel)
  · have hunknown := (isLeast_of_rank (hspreads.isLeast hclosed m)).1
    rw [ne_eq, hunknown]
    push Not
    rfl

/-- Two modules of which one needs the other, with any selection. -/
theorem generated_readsRight_shortLine :
    let result := readModulesDependencyFile "4.14".toList (fileText true [shortLine])
    ∃ hlt : ∀ m ∈ result.1, ∀ d ∈ m.deps, d < result.1.length,
      ∀ (found : CString → Option CString) (files : List Entry), ∃ k tgts known,
        (∀ fuel > k, computeModulesUsed found (moduleArray result.1 hlt) files fuel = some (tgts, known)) ∧
        ReadsRight (modulesDir "4.14".toList)
          (usedEntries (modulesDir "4.14".toList) (entriesOf [shortLine]) (moduleArray result.1 hlt) tgts)
          (readModulesDependencyFile "4.14".toList
            (dumpModuleDependencyFile (moduleArray result.1 hlt) tgts)) := by
  have hnames : namesOf (entriesOf [shortLine]) = ["kernel/a.ko".toList, "kernel/b-c.ko".toList] := by decide
  have hlines : ∀ l ∈ [shortLine], l.line.length ≤ 4094 ∧ ':' ∉ l.rest := by
    intro l hl
    obtain rfl := List.mem_singleton.mp hl
    decide
  obtain ⟨-, hlt, hall⟩ := @generated_readsRight [shortLine] _
    "4.14".toList true (by decide) (by simp [isSpaceC]) hlines
    (by rw [hnames]; decide) (by rw [hnames]; decide) rfl
  refine ⟨hlt, fun found files => ?_⟩
  obtain ⟨k, tgts, hused, -, hread⟩ := hall found files
  exact ⟨k, tgts, _, hused, hread⟩

end reading

end ModulesDep
end Ziplist
end Mkfli4l
