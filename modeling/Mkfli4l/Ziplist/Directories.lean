import Mathlib
import Mkfli4l.Ziplist.Opt

/-!
# Directories of the archive list

Before the archives are written, `prepare_zip_lists` sorts the entries by name, adds an entry for
each directory above an entry, and sorts again.  The directories are added to the list that is
being walked through, so that they are visited themselves.  They are added by way of
`add_zip_list_entry`, which strips the prefixes of source paths from its argument; here the
argument is a path on the target system.
-/

namespace Mkfli4l
namespace Ziplist

open Lib

/-- The directories above a path, the innermost one first: the path is cut at its last slash
again and again. -/
def parentPaths : CString → List CString
  | [] => []
  | c :: path => (parentPaths path).map (c :: ·) ++ if c = '/' then [[]] else []

/-- The request of `add_directories` for one directory. -/
def dirRequest (dir : CString) (ziptgt : ZipTgt) : Request :=
  { file := dir, zipsrc := .other, ziptgt, entryType := .dir, opts := [] }

/-- The inner loop of `add_directories`.  The archive of the entry itself does not change
meanwhile, since all names that are asked for are shorter than its own. -/
def addParents (cfg : Settings) (ziptgt : ZipTgt) :
    List CString → List Entry → Except AddFailure (List Entry)
  | [], files => .ok files
  | dir :: dirs, files =>
      match addZipListEntry cfg files (dirRequest dir ziptgt) with
      | .error failure => .error failure
      | .ok (files', _) => addParents cfg ziptgt dirs files'

/-- `add_directories` from position `i` on; the list may grow behind the position.  `none` means
that the fuel does not suffice. -/
def addDirectories (cfg : Settings) :
    Nat → Nat → List Entry → Option (Except AddFailure (List Entry))
  | 0, _, _ => none
  | fuel + 1, i, files =>
      match files[i]? with
      | none => some (.ok files)
      | some first =>
          match addParents cfg first.ziptgt (parentPaths first.target) files with
          | .error failure => some (.error failure)
          | .ok files' => addDirectories cfg fuel (i + 1) files'

/-- `qsort` with `entry_target_compare`. -/
def sortByTarget (files : List Entry) : List Entry :=
  files.insertionSort fun p q => p.target ≤ q.target

def prepareZipLists (cfg : Settings) (fuel : Nat) (files : List Entry) :
    Option (Except AddFailure (List Entry)) :=
  (addDirectories cfg fuel 0 (sortByTarget files)).map fun result => result.map sortByTarget

variable {cfg : Settings} {files files' files'' : List Entry} {dirs : List CString} {g : ZipTgt}

/-! ### Paths and prefixes -/

variable {p path : CString} {i fuel : Nat} {first : Entry} {L u : List Entry}
  {m : CString → Option Entry}

theorem mem_parentPaths : p ∈ parentPaths path ↔ ∃ rest, path = p ++ '/' :: rest := by
  induction path generalizing p with
  | nil => simp [parentPaths]
  | cons c path ih =>
      rw [parentPaths, List.mem_append, List.mem_map]
      constructor
      · rintro (⟨q, hq, rfl⟩ | hp)
        · obtain ⟨rest, rfl⟩ := ih.mp hq
          exact ⟨rest, rfl⟩
        · by_cases hc : c = '/'
          · rw [if_pos hc, List.mem_singleton] at hp
            exact ⟨path, by rw [hp, hc]; rfl⟩
          · rw [if_neg hc] at hp
            exact nomatch hp
      · rintro ⟨rest, heq⟩
        cases p with
        | nil =>
            obtain ⟨rfl, rfl⟩ : c = '/' ∧ path = rest := by simpa using heq
            exact .inr (by simp)
        | cons c' p =>
            obtain ⟨rfl, hpath⟩ : c = c' ∧ path = p ++ '/' :: rest := by simpa using heq
            exact .inl ⟨p, ih.mpr ⟨rest, hpath⟩, rfl⟩

theorem parentPaths_trans {q : CString} (hp : p ∈ parentPaths q)
    (hq : q ∈ parentPaths path) : p ∈ parentPaths path := by
  rw [mem_parentPaths] at hp hq ⊢
  obtain ⟨rest, rfl⟩ := hp
  obtain ⟨rest', rfl⟩ := hq
  exact ⟨rest ++ '/' :: rest', by simp⟩

theorem lt_of_mem_parentPaths (h : p ∈ parentPaths path) : p < path := by
  obtain ⟨rest, rfl⟩ := mem_parentPaths.mp h
  induction p with
  | nil => exact List.nil_lt_cons _ _
  | cons c p ih =>
      have hlt := ih (mem_parentPaths.mpr ⟨rest, rfl⟩)
      exact List.cons_lt_cons_iff.mpr (.inr ⟨rfl, hlt⟩)

theorem dropWhile_slash_parentPaths (h : p ∈ parentPaths (path.dropWhile (· == '/'))) :
    ∃ q ∈ parentPaths path, q.dropWhile (· == '/') = p := by
  induction path with
  | nil => exact nomatch h
  | cons c path ih =>
      by_cases hc : c = '/'
      · rw [List.dropWhile_cons_of_pos (by simpa using hc)] at h
        obtain ⟨q, hq, hp⟩ := ih h
        refine ⟨c :: q, ?_, by rw [List.dropWhile_cons_of_pos (by simpa using hc), hp]⟩
        rw [parentPaths]
        exact List.mem_append_left _ (List.mem_map_of_mem hq)
      · rw [List.dropWhile_cons_of_neg (by simpa using hc)] at h
        refine ⟨p, h, ?_⟩
        obtain ⟨rest, heq⟩ := mem_parentPaths.mp h
        cases p with
        | nil => exact absurd (List.cons.inj heq).1 hc
        | cons c' p =>
            obtain rfl : c = c' := (List.cons.inj heq).1
            exact List.dropWhile_cons_of_neg (by simpa using hc)

theorem removeOnePrefix_parentPaths {pre : CString} (h : p ∈ parentPaths (removeOnePrefix path pre)) :
    ∃ q ∈ parentPaths path, removeOnePrefix q pre = p := by
  unfold removeOnePrefix at h ⊢
  by_cases hpre : pre.isPrefixOf path = true
  · obtain ⟨tail, rfl⟩ := List.isPrefixOf_iff_prefix.mp hpre
    rw [if_pos hpre, List.drop_left] at h
    obtain ⟨q, hq, hp⟩ := dropWhile_slash_parentPaths h
    obtain ⟨rest, rfl⟩ := mem_parentPaths.mp hq
    refine ⟨pre ++ q, mem_parentPaths.mpr ⟨rest, by simp⟩, ?_⟩
    have hpre' : pre.isPrefixOf (pre ++ q) = true :=
      List.isPrefixOf_iff_prefix.mpr (List.prefix_append pre q)
    rw [if_pos hpre', List.drop_left, hp]
  · rw [if_neg hpre] at h
    obtain ⟨q, hq, hp⟩ := dropWhile_slash_parentPaths h
    refine ⟨q, hq, ?_⟩
    obtain ⟨rest, rfl⟩ := mem_parentPaths.mp hq
    have hpre' : ¬ pre.isPrefixOf q = true := by
      intro hq'
      apply hpre
      exact List.isPrefixOf_iff_prefix.mpr
        ((List.isPrefixOf_iff_prefix.mp hq').trans (List.prefix_append q _))
    rw [if_neg hpre', hp]

theorem removePrefix_parentPaths (h : p ∈ parentPaths (removePrefix cfg path)) :
    ∃ q ∈ parentPaths path, removePrefix cfg q = p := by
  obtain ⟨q', hq', rfl⟩ := removeOnePrefix_parentPaths h
  obtain ⟨q, hq, rfl⟩ := removeOnePrefix_parentPaths hq'
  exact ⟨q, hq, rfl⟩

theorem length_removeOnePrefix_le (path pre : CString) :
    (removeOnePrefix path pre).length ≤ path.length := by
  unfold removeOnePrefix
  refine (List.length_dropWhile_le _ _).trans ?_
  split
  · simp
  · exact le_rfl

theorem length_removePrefix_le (cfg : Settings) (path : CString) :
    (removePrefix cfg path).length ≤ path.length :=
  (length_removeOnePrefix_le _ _).trans (length_removeOnePrefix_le _ _)

/-! ### Asking for directories -/

/-- The list has a directory with this name, in an archive that is extracted no later. -/
def HasDirectory (files : List Entry) (path : CString) (ziptgt : ZipTgt) : Prop :=
  ∃ d ∈ files, d.entryType = .dir ∧ d.target = path ∧ d.ziptgt ≤ ziptgt

/-- The effect of asking for some directories on behalf of an entry in the archive `g`. -/
structure Asks (cfg : Settings) (g : ZipTgt) (dirs : List CString) (files files' : List Entry) :
    Prop where
  has : ∀ dir ∈ dirs, HasDirectory files' (removePrefix cfg dir) g
  kept : ∀ (j : Nat) (f : Entry), files[j]? = some f → ∃ f', files'[j]? = some f' ∧ f.MovesTo f'
  origin : ∀ (j : Nat) (f' : Entry), files'[j]? = some f' →
    files[j]? = some f' ∨ f'.ziptgt = g ∧ ∃ dir ∈ dirs, f'.target = removePrefix cfg dir
  targets : ∃ added : List CString, files'.map Entry.target = files.map Entry.target ++ added ∧
    (added.map fun t => 2 ^ t.length).sum ≤ (dirs.map fun t => 2 ^ t.length).sum
  represents : ∀ m u, Represents files m u → ∃ m' u', Represents files' m' u'

theorem HasDirectory.mono {g' : ZipTgt} (h : HasDirectory files path g')
    (hkept : ∀ (j : Nat) (f : Entry), files[j]? = some f →
      ∃ f', files'[j]? = some f' ∧ f.MovesTo f') :
    HasDirectory files' path g' := by
  obtain ⟨d, hd, hdir, htarget, hle⟩ := h
  obtain ⟨j, hj⟩ := List.mem_iff_getElem?.mp hd
  obtain ⟨d', hj', hmoves⟩ := hkept j d hj
  exact ⟨d', List.mem_of_getElem? hj', hmoves.entryType.trans hdir, hmoves.target.trans htarget,
    hmoves.le.trans hle⟩

theorem Asks.nil (cfg : Settings) (g : ZipTgt) (files : List Entry) :
    Asks cfg g [] files files where
  has := fun _ h => nomatch h
  kept := fun _ f hf => ⟨f, hf, .refl f⟩
  origin := fun _ _ hf => .inl hf
  targets := ⟨[], by simp, by simp⟩
  represents := fun m u h => ⟨m, u, h⟩

theorem Asks.cons {dir : CString} (h : Asks cfg g [dir] files files')
    (h' : Asks cfg g dirs files' files'') : Asks cfg g (dir :: dirs) files files'' where
  has := by
    intro d hd
    rcases List.mem_cons.mp hd with rfl | hd
    · exact (h.has d List.mem_cons_self).mono h'.kept
    · exact h'.has d hd
  kept := by
    intro j f hf
    obtain ⟨f', hf', hmoves⟩ := h.kept j f hf
    obtain ⟨f'', hf'', hmoves'⟩ := h'.kept j f' hf'
    exact ⟨f'', hf'', hmoves.trans hmoves'⟩
  origin := by
    intro j f hf
    rcases h'.origin j f hf with hsame | ⟨hg, d, hd, htarget⟩
    · rcases h.origin j f hsame with hsame | ⟨hg, d, hd, htarget⟩
      · exact .inl hsame
      · refine .inr ⟨hg, d, ?_, htarget⟩
        rw [List.mem_singleton.mp hd]
        exact List.mem_cons_self
    · exact .inr ⟨hg, d, List.mem_cons_of_mem _ hd, htarget⟩
  targets := by
    obtain ⟨added, heq, hle⟩ := h.targets
    obtain ⟨added', heq', hle'⟩ := h'.targets
    refine ⟨added ++ added', by rw [heq', heq, List.append_assoc], ?_⟩
    simp only [List.map_cons, List.map_nil, List.sum_cons, List.sum_nil, List.map_append,
      List.sum_append] at hle hle' ⊢
    omega
  represents := by
    intro m u hrep
    obtain ⟨m', u', hrep'⟩ := h.represents m u hrep
    exact h'.represents m' u' hrep'

theorem dirRequest_target (dir : CString) : (dirRequest dir g).target cfg = removePrefix cfg dir :=
  rfl

theorem asks_of_addZipListEntry {dir : CString}
    (h : addZipListEntry cfg files (dirRequest dir g) = .ok (files', i)) :
    Asks cfg g [dir] files files' where
  has := by
    intro d hd
    rw [List.mem_singleton.mp hd]
    obtain ⟨e, he, htarget, htakes, hle⟩ := addZipListEntry_entry h
    exact ⟨e, List.mem_of_getElem? he, htakes.1.symm, htarget, hle⟩
  kept := fun j f hf => addZipListEntry_moves h hf
  origin := by
    intro j f hf
    rcases (addZipListEntry_cases h).2 with ⟨a, -, -, rfl, -⟩ | ⟨p, hp, htarget, -, htakes, rfl⟩
    · by_cases hj : j < files.length
      · rw [List.getElem?_append_left hj] at hf
        exact .inl hf
      · rw [List.getElem?_append_right (not_lt.mp hj)] at hf
        have hmem := List.mem_of_getElem? hf
        rw [List.mem_singleton] at hmem
        rw [hmem]
        exact .inr ⟨rfl, dir, List.mem_cons_self, rfl⟩
    · by_cases hj : i = j
      · subst hj
        rw [List.getElem?_set_self (List.getElem?_eq_some_iff.mp hp).1,
          Entry.absorb_of_takes htakes] at hf
        obtain rfl := Option.some.inj hf
        rcases min_choice p.ziptgt g with hmin | hmin
        · exact .inl (hp.trans (congrArg some (by rw [dirRequest, hmin])))
        · exact .inr ⟨hmin, dir, List.mem_cons_self, htarget⟩
      · rw [List.getElem?_set_ne hj] at hf
        exact .inl hf
  targets := by
    rcases (addZipListEntry_cases h).2 with ⟨a, -, -, rfl, -⟩ | ⟨p, hp, -, -, -, rfl⟩
    · refine ⟨[removePrefix cfg dir], by simp [dirRequest_target], ?_⟩
      simpa using Nat.pow_le_pow_right (by decide) (length_removePrefix_le cfg dir)
    · refine ⟨[], ?_, by simp⟩
      rw [List.map_set, List.append_nil, Entry.absorb_target]
      obtain ⟨hlt, rfl⟩ := List.getElem?_eq_some_iff.mp hp
      rw [← List.getElem_map Entry.target (h := by simpa using hlt), List.set_getElem_self]
  represents := by
    intro m u hrep
    rcases addZipListEntry_spec hrep (addZipListEntry_cases h).1 with
      ⟨-, herror, -⟩ | ⟨-, files₁, i₁, hok, hrep'⟩
    · rw [herror] at h
      exact nomatch h
    · rw [hok] at h
      cases h
      exact ⟨_, _, hrep'⟩

theorem addParents_asks (h : addParents cfg g dirs files = .ok files') :
    Asks cfg g dirs files files' := by
  induction dirs generalizing files with
  | nil =>
      cases h
      exact .nil cfg g _
  | cons dir dirs ih =>
      unfold addParents at h
      split at h
      · exact nomatch h
      · next hadd => exact (asks_of_addZipListEntry hadd).cons (ih h)

/-! ### The whole list -/

/-- All directories above an entry are in the list, in an archive that is extracted no later. -/
def ParentsIn (files : List Entry) (f : Entry) : Prop :=
  ∀ p ∈ parentPaths f.target, HasDirectory files p f.ziptgt

/-- All directories above an entry keep their names or are in the list already. -/
def ParentsKeptOf (cfg : Settings) (files : List Entry) (f : Entry) : Prop :=
  ∀ p ∈ parentPaths f.target, removePrefix cfg p = p ∨ HasDirectory files p f.ziptgt

/-- What holds when the entries in front of position `i` have been visited. -/
def Visited (cfg : Settings) (i : Nat) (files : List Entry) : Prop :=
  ∀ (j : Nat) (f : Entry), files[j]? = some f →
    ParentsKeptOf cfg files f ∧ (j < i → ParentsIn files f)

theorem Visited.step (h : Visited cfg i files) (hfirst : files[i]? = some first)
    (hasks : Asks cfg first.ziptgt (parentPaths first.target) files files') :
    Visited cfg (i + 1) files' := by
  intro j f hf
  rcases hasks.origin j f hf with hsame | ⟨hziptgt, dir, hdir, htarget⟩
  · obtain ⟨hkept, hdone⟩ := h j f hsame
    constructor
    · exact fun p hp => (hkept p hp).imp_right fun hhas => hhas.mono hasks.kept
    · intro hj p hp
      rcases Nat.lt_succ_iff_lt_or_eq.mp hj with hj | rfl
      · exact (hdone hj p hp).mono hasks.kept
      · obtain rfl : first = f := Option.some.inj (hfirst.symm.trans hsame)
        rcases hkept p hp with hsame | hhas
        · have hasked := hasks.has p hp
          rwa [hsame] at hasked
        · exact hhas.mono hasks.kept
  · have hparents : ParentsIn files' f := by
      intro p hp
      rw [htarget] at hp
      obtain ⟨q, hq, rfl⟩ := removePrefix_parentPaths hp
      rw [hziptgt]
      exact hasks.has q (parentPaths_trans hq hdir)
    exact ⟨fun p hp => .inr (hparents p hp), fun _ => hparents⟩

theorem addDirectories_parentsIn (h : Visited cfg i files)
    (hrun : addDirectories cfg fuel i files = some (.ok files')) :
    ∀ f ∈ files', ParentsIn files' f := by
  induction fuel generalizing i files with
  | zero => exact nomatch hrun
  | succ fuel ih =>
      unfold addDirectories at hrun
      split at hrun
      · next hend =>
          cases hrun
          intro f hf
          obtain ⟨j, hj⟩ := List.mem_iff_getElem?.mp hf
          have hlt : j < i := by
            have hbound := (List.getElem?_eq_some_iff.mp hj).1
            have hi := List.getElem?_eq_none_iff.mp hend
            omega
          exact (h j f hj).2 hlt
      · next first hfirst =>
          split at hrun
          · exact nomatch hrun
          · next hadd => exact ih (h.step hfirst (addParents_asks hadd)) hrun

/-- The names that are asked for on behalf of the entries of a list. -/
def Asked (cfg : Settings) (files : List Entry) (path : CString) : Prop :=
  ∃ e ∈ files, ∃ p ∈ parentPaths e.target, path = removePrefix cfg p

/-- Stripping the name of a directory once more changes nothing. -/
def StrippedOnce (cfg : Settings) (files : List Entry) : Prop :=
  ∀ e ∈ files, ∀ p ∈ parentPaths e.target,
    removePrefix cfg (removePrefix cfg p) = removePrefix cfg p

theorem Asked.parent (h : Asked cfg L path) (hp : p ∈ parentPaths path) : Asked cfg L p := by
  obtain ⟨e, he, q, hq, rfl⟩ := h
  obtain ⟨q', hq', rfl⟩ := removePrefix_parentPaths hp
  exact ⟨e, he, q', parentPaths_trans hq' hq, rfl⟩

theorem StrippedOnce.removePrefix_eq (h : StrippedOnce cfg L)
    (hasked : Asked cfg L path) : removePrefix cfg path = path := by
  obtain ⟨e, he, q, hq, rfl⟩ := hasked
  exact h e he q hq

/-- The entries of the list, as far as nobody asks for their names, and directories that somebody
asks for. -/
structure Grown (cfg : Settings) (L files : List Entry) : Prop where
  only : ∀ f ∈ files, f ∈ L ∨ Asked cfg L f.target
  still : ∀ f ∈ L, ¬ Asked cfg L f.target → f ∈ files

theorem Grown.step (h : Grown cfg L files) (honce : StrippedOnce cfg L) (hfirst : first ∈ files)
    (hasks : Asks cfg first.ziptgt (parentPaths first.target) files files') :
    Grown cfg L files' := by
  have hasked : ∀ dir ∈ parentPaths first.target, Asked cfg L (removePrefix cfg dir) := by
    intro dir hdir
    rcases h.only first hfirst with hmem | hname
    · exact ⟨first, hmem, dir, hdir, rfl⟩
    · have hparent := hname.parent hdir
      rwa [honce.removePrefix_eq hparent]
  constructor
  · intro f hf
    obtain ⟨j, hj⟩ := List.mem_iff_getElem?.mp hf
    rcases hasks.origin j f hj with hsame | ⟨-, dir, hdir, htarget⟩
    · exact h.only f (List.mem_of_getElem? hsame)
    · rw [htarget]
      exact .inr (hasked dir hdir)
  · intro f hf hnot
    obtain ⟨j, hj⟩ := List.mem_iff_getElem?.mp (h.still f hf hnot)
    obtain ⟨f', hj', hmoves⟩ := hasks.kept j f hj
    rcases hasks.origin j f' hj' with hsame | ⟨-, dir, hdir, htarget⟩
    · obtain rfl : f = f' := Option.some.inj (hj.symm.trans hsame)
      exact List.mem_of_getElem? hj'
    · apply absurd (hasked dir hdir)
      rwa [← htarget, hmoves.target]

theorem addDirectories_grown (h : Grown cfg L files) (honce : StrippedOnce cfg L)
    (hrun : addDirectories cfg fuel i files = some (.ok files')) : Grown cfg L files' := by
  induction fuel generalizing i files with
  | zero => exact nomatch hrun
  | succ fuel ih =>
      unfold addDirectories at hrun
      split at hrun
      · cases hrun
        exact h
      · next first hfirst =>
          split at hrun
          · exact nomatch hrun
          · next hadd =>
              exact ih (h.step honce (List.mem_of_getElem? hfirst) (addParents_asks hadd)) hrun

theorem addDirectories_represents
    (h : Represents files m u) (hrun : addDirectories cfg fuel i files = some (.ok files')) :
    ∃ m' u', Represents files' m' u' := by
  induction fuel generalizing i files m u with
  | zero => exact nomatch hrun
  | succ fuel ih =>
      unfold addDirectories at hrun
      split at hrun
      · cases hrun
        exact ⟨m, u, h⟩
      · split at hrun
        · exact nomatch hrun
        · next hadd =>
            obtain ⟨m', u', h'⟩ := (addParents_asks hadd).represents m u h
            exact ih h' hrun

/-! ### Termination -/

theorem sum_parentPaths_lt (path : CString) :
    ((parentPaths path).map fun t => 2 ^ t.length).sum < 2 ^ path.length := by
  induction path with
  | nil => simp [parentPaths]
  | cons c path ih =>
      have hdouble : ((parentPaths path).map fun t => 2 ^ (c :: t).length).sum =
          2 * ((parentPaths path).map fun t => 2 ^ t.length).sum := by
        rw [← List.sum_map_mul_left]
        refine congrArg List.sum (List.map_congr_left fun t _ => ?_)
        rw [List.length_cons, Nat.pow_succ, Nat.mul_comm]
      rw [parentPaths, List.map_append, List.sum_append, List.map_map, List.length_cons,
        Nat.pow_succ]
      simp only [Function.comp_def]
      by_cases hc : c = '/'
      · rw [if_pos hc]
        simp only [List.map_cons, List.map_nil, List.sum_cons, List.sum_nil, List.length_nil,
          Nat.pow_zero]
        omega
      · rw [if_neg hc]
        simp only [List.map_nil, List.sum_nil]
        omega

/-- The weight of the entries that are still to be visited. -/
def remainingWeight (i : Nat) (files : List Entry) : Nat :=
  (((files.map Entry.target).drop i).map fun t => 2 ^ t.length).sum

theorem remainingWeight_step (hfirst : files[i]? = some first)
    (hasks : Asks cfg first.ziptgt (parentPaths first.target) files files') :
    remainingWeight (i + 1) files' < remainingWeight i files := by
  obtain ⟨added, heq, hle⟩ := hasks.targets
  obtain ⟨hi, rfl⟩ := List.getElem?_eq_some_iff.mp hfirst
  have hlt := sum_parentPaths_lt files[i].target
  have hdrop : (files.map Entry.target).drop i =
      files[i].target :: (files.map Entry.target).drop (i + 1) := by
    rw [List.drop_eq_getElem_cons (by simpa using hi), List.getElem_map]
  unfold remainingWeight
  rw [heq, List.drop_append_of_le_length (by simpa using hi), hdrop]
  simp only [List.map_append, List.sum_append, List.map_cons, List.sum_cons]
  omega

theorem addDirectories_terminates (cfg : Settings) (n i : Nat) (files : List Entry)
    (hweight : remainingWeight i files ≤ n) :
    ∃ result, ∀ fuel > n, addDirectories cfg fuel i files = some result := by
  induction n generalizing i files with
  | zero =>
      refine ⟨.ok files, fun fuel hfuel => ?_⟩
      obtain ⟨fuel, rfl⟩ := Nat.exists_eq_succ_of_ne_zero (Nat.ne_of_gt hfuel)
      have hend : files[i]? = none := by
        cases hfirst : files[i]? with
        | none => rfl
        | some first =>
            have hpos : 0 < remainingWeight i files := by
              obtain ⟨hi, rfl⟩ := List.getElem?_eq_some_iff.mp hfirst
              unfold remainingWeight
              rw [List.drop_eq_getElem_cons (by simpa using hi), List.map_cons, List.sum_cons]
              positivity
            omega
      simp [addDirectories, hend]
  | succ n ih =>
      cases hfirst : files[i]? with
      | none =>
          refine ⟨.ok files, fun fuel hfuel => ?_⟩
          obtain ⟨fuel, rfl⟩ :=
            Nat.exists_eq_succ_of_ne_zero (Nat.ne_of_gt (Nat.zero_lt_of_lt hfuel))
          simp [addDirectories, hfirst]
      | some first =>
          cases hadd : addParents cfg first.ziptgt (parentPaths first.target) files with
          | error failure =>
              refine ⟨.error failure, fun fuel hfuel => ?_⟩
              obtain ⟨fuel, rfl⟩ :=
                Nat.exists_eq_succ_of_ne_zero (Nat.ne_of_gt (Nat.zero_lt_of_lt hfuel))
              simp [addDirectories, hfirst, hadd]
          | ok files' =>
              have hstep := remainingWeight_step hfirst (addParents_asks hadd)
              obtain ⟨result, hresult⟩ := ih (i + 1) files' (by omega)
              refine ⟨result, fun fuel hfuel => ?_⟩
              obtain ⟨fuel, rfl⟩ :=
                Nat.exists_eq_succ_of_ne_zero (Nat.ne_of_gt (Nat.zero_lt_of_lt hfuel))
              rw [addDirectories, hfirst]
              dsimp only
              rw [hadd]
              exact hresult fuel (by omega)

/-! ### The prepared list -/

theorem sortByTarget_perm (files : List Entry) : (sortByTarget files).Perm files :=
  List.perm_insertionSort _ _

/-- The list is closed under directories, has no name twice and lists every directory before what
is below it. -/
structure DirectoryClosed (files : List Entry) : Prop where
  parents : ∀ e ∈ files, ∀ p ∈ parentPaths e.target,
    ∃ d ∈ files, d.entryType = .dir ∧ d.target = p ∧ d.ziptgt ≤ e.ziptgt
  once : ∀ t ≠ [], (files.filter fun e => e.target = t).length ≤ 1
  ordered : ∀ (i j : Nat) (d e : Entry), files[i]? = some d → files[j]? = some e →
    d.entryType = .dir → d.target ∈ parentPaths e.target → i < j

/-- Every directory above an entry keeps its name when the prefixes of source paths are stripped,
or is in the list already, in an archive that is extracted no later than the entry's. -/
def ParentsKept (cfg : Settings) (files : List Entry) : Prop :=
  ∀ e ∈ files, ∀ p ∈ parentPaths e.target, removePrefix cfg p = p ∨
    ∃ d ∈ files, d.entryType = .dir ∧ d.target = p ∧ d.ziptgt ≤ e.ziptgt

theorem sortByTarget_ordered {j : Nat} {d e : Entry} (hd : (sortByTarget files)[i]? = some d)
    (he : (sortByTarget files)[j]? = some e) (hlt : d.target < e.target) : i < j := by
  obtain ⟨hi, rfl⟩ := List.getElem?_eq_some_iff.mp hd
  obtain ⟨hj, rfl⟩ := List.getElem?_eq_some_iff.mp he
  have hsorted : (sortByTarget files).Pairwise fun p q => p.target ≤ q.target :=
    List.pairwise_insertionSort _ _
  by_contra hnot
  rcases Nat.lt_or_eq_of_le (not_lt.mp hnot) with hji | rfl
  · exact absurd hlt (not_lt.mpr (List.pairwise_iff_getElem.mp hsorted j i hj hi hji))
  · exact List.lt_irrefl _ hlt

theorem Represents.once {t : CString} (h : Represents files m u) (ht : t ≠ []) :
    (files.filter fun e => e.target = t).length ≤ 1 := by
  have hnodup : (files.filter fun e => e.target = t).Nodup := by
    have hsub : (files.filter fun e => e.target = t) =
        (files.filter fun e => e.target ≠ []).filter fun e => e.target = t := by
      rw [List.filter_filter]
      refine List.filter_congr fun e _ => ?_
      by_cases he : e.target = t
      · simp [he, ht]
      · simp [he]
    rw [hsub]
    exact h.named.nodup.filter _
  rw [← List.toFinset_card_of_nodup hnodup, Finset.card_le_one]
  intro a ha b hb
  obtain ⟨ha, hta⟩ : a ∈ files ∧ a.target = t := by simpa using ha
  obtain ⟨hb, htb⟩ : b ∈ files ∧ b.target = t := by simpa using hb
  have hma := h.eq_some ha (hta ▸ ht)
  have hmb := h.eq_some hb (htb ▸ ht)
  rw [hta] at hma
  rw [htb, hma] at hmb
  exact Option.some.inj hmb

theorem addAll_exists_represents (cfg : Settings)
    (R : List Request) (h : Represents files m u) : ∃ m' u', Represents (addAll cfg files R).1 m' u' := by
  induction R generalizing files m u with
  | nil => exact ⟨m, u, h⟩
  | cons r R ih =>
      unfold addAll
      split
      · next files' i hadd =>
          obtain ⟨hallowed, -⟩ := addZipListEntry_cases hadd
          rcases addZipListEntry_spec h hallowed with ⟨-, herror, -⟩ | ⟨-, files₁, i₁, hok, h'⟩
          · rw [herror] at hadd
            exact nomatch hadd
          · rw [hok] at hadd
            cases hadd
            exact ih h'
      · exact ih h
      · exact ⟨m, u, h⟩

theorem Represents.perm (h : Represents files m u)
    (hperm : files.Perm files') : ∃ u', Represents files' m u' :=
  ⟨_, h.named.perm (hperm.filter _), rfl⟩

theorem HasDirectory.perm (h : HasDirectory files path g)
    (hperm : files.Perm files') : HasDirectory files' path g := by
  obtain ⟨d, hd, hrest⟩ := h
  exact ⟨d, hperm.mem_iff.mp hd, hrest⟩

theorem prepareZipLists_terminates (cfg : Settings) (L : List Entry) :
    ∃ n result, ∀ fuel > n, prepareZipLists cfg fuel L = some result := by
  obtain ⟨result, hresult⟩ :=
    addDirectories_terminates cfg (remainingWeight 0 (sortByTarget L)) 0 (sortByTarget L) le_rfl
  refine ⟨remainingWeight 0 (sortByTarget L), result.map sortByTarget, fun fuel hfuel => ?_⟩
  unfold prepareZipLists
  rw [hresult fuel hfuel, Option.map_some]

theorem prepareZipLists_ok (h : prepareZipLists cfg fuel L = some (.ok files)) :
    ∃ files₁, addDirectories cfg fuel 0 (sortByTarget L) = some (.ok files₁) ∧
      files = sortByTarget files₁ := by
  obtain ⟨result, hrun, hresult⟩ := Option.map_eq_some_iff.mp h
  cases result with
  | error failure => exact nomatch hresult
  | ok files₁ =>
      cases hresult
      exact ⟨files₁, hrun, rfl⟩

theorem ParentsKept.directoryClosed (hkept : ParentsKept cfg L) (hrep : Represents L m u)
    (h : prepareZipLists cfg fuel L = some (.ok files)) : DirectoryClosed files := by
  obtain ⟨files₁, hrun, rfl⟩ := prepareZipLists_ok h
  have hperm := sortByTarget_perm L
  have hperm₁ := sortByTarget_perm files₁
  have hvisited : Visited cfg 0 (sortByTarget L) := by
    intro j f hf
    refine ⟨fun p hp => ?_, fun hj => absurd hj (Nat.not_lt_zero j)⟩
    have hmem := hperm.mem_iff.mp (List.mem_of_getElem? hf)
    exact (hkept f hmem p hp).imp_right fun hhas => HasDirectory.perm hhas hperm.symm
  have hparents := addDirectories_parentsIn hvisited hrun
  obtain ⟨u₁, hrep₁⟩ := hrep.perm hperm.symm
  obtain ⟨m', u', hrep'⟩ := addDirectories_represents hrep₁ hrun
  obtain ⟨u'', hrep''⟩ := hrep'.perm hperm₁.symm
  refine ⟨?_, fun t ht => hrep''.once ht, ?_⟩
  · intro e he p hp
    exact (hparents e (hperm₁.mem_iff.mp he) p hp).perm hperm₁.symm
  · intro i j d e hd he _ hp
    exact sortByTarget_ordered hd he (lt_of_mem_parentPaths hp)

theorem StrippedOnce.parentsKept (honce : StrippedOnce cfg L)
    (h : prepareZipLists cfg fuel L = some (.ok files)) (hclosed : DirectoryClosed files) :
    ParentsKept cfg L := by
  obtain ⟨files₁, hrun, rfl⟩ := prepareZipLists_ok h
  have hperm := sortByTarget_perm L
  have hperm₁ := sortByTarget_perm files₁
  have hstart : Grown cfg L (sortByTarget L) :=
    ⟨fun f hf => .inl (hperm.mem_iff.mp hf), fun f hf _ => hperm.mem_iff.mpr hf⟩
  have hgrown := addDirectories_grown hstart honce hrun
  intro e he p hp
  by_cases hsame : removePrefix cfg p = p
  · exact .inl hsame
  · refine .inr ?_
    have hnot : ¬ Asked cfg L p := fun hasked => hsame (honce.removePrefix_eq hasked)
    have he' := hgrown.still e he fun hasked => hnot (hasked.parent hp)
    obtain ⟨d, hd, hdir, rfl, hle⟩ := hclosed.parents e (hperm₁.mem_iff.mpr he') p hp
    have hd' := (hgrown.only d (hperm₁.mem_iff.mp hd)).resolve_right hnot
    exact ⟨d, hd', hdir, rfl, hle⟩

/-- `prepare_zip_lists` comes to an end, and the list it returns is closed under directories if
the directories above the entries keep their names, and only then if stripping a name twice is
stripping it once. -/
theorem prepareZipLists_directoryClosed (cfg : Settings) (R : List Request) :
    (∃ n result, ∀ fuel > n, prepareZipLists cfg fuel (addAll cfg [] R).1 = some result) ∧
      ∀ fuel files, prepareZipLists cfg fuel (addAll cfg [] R).1 = some (.ok files) →
        (ParentsKept cfg (addAll cfg [] R).1 → DirectoryClosed files) ∧
        (StrippedOnce cfg (addAll cfg [] R).1 → DirectoryClosed files →
          ParentsKept cfg (addAll cfg [] R).1) := by
  refine ⟨prepareZipLists_terminates cfg _, fun fuel files hok => ⟨?_, ?_⟩⟩
  · intro hkept
    obtain ⟨m, u, hrep⟩ := addAll_exists_represents cfg R Represents.nil
    exact hkept.directoryClosed hrep hok
  · exact fun honce => honce.parentsKept hok

/-- A file that is put under another name. -/
def renamed (name : String) : List Request :=
  [{ file := "opt/etc/x".toList, zipsrc := .opt, ziptgt := .rootfs, entryType := .file
     opts := [("name".toList, name.toList)] }]

/-- The directories above `etc/foo/x` are added. -/
theorem prepareZipLists_directoryClosed_etc : ∃ files,
    prepareZipLists ⟨"config".toList, [], []⟩ 10
      (addAll ⟨"config".toList, [], []⟩ [] (renamed "etc/foo/x")).1 = some (.ok files) ∧
    files.map Entry.target = ["etc".toList, "etc/foo".toList, "etc/foo/x".toList] ∧
    DirectoryClosed files := by
  refine ⟨_, rfl, by decide, ?_⟩
  refine ((prepareZipLists_directoryClosed ⟨"config".toList, [], []⟩
    (renamed "etc/foo/x")).2 10 _ rfl).1 ?_
  unfold ParentsKept
  decide

/-- Instead of the directories `opt` and `opt/foo` above `opt/foo/x`, one without a name and `foo`
are added. -/
theorem prepareZipLists_not_directoryClosed_opt : ∃ files,
    prepareZipLists ⟨"config".toList, [], []⟩ 10
      (addAll ⟨"config".toList, [], []⟩ [] (renamed "opt/foo/x")).1 = some (.ok files) ∧
    files.map Entry.target = [[], "foo".toList, "opt/foo/x".toList] ∧
    ¬ DirectoryClosed files := by
  refine ⟨_, rfl, by decide, fun hclosed => ?_⟩
  exact absurd hclosed.parents (by decide)

/-! ### The archives -/

/-- The entries that `create_complete_archive` writes.  `add_to_archive` refuses the last two types. -/
def createCompleteArchive (filter : Entry → Bool) (files : List Entry) : List Entry :=
  files.filter fun f => f.filename ≠ [] ∧ filter f ∧ f.entryType ≠ .local ∧ f.entryType ≠ .unknown

def filterEntry (ziptgt : ZipTgt) (entry : Entry) : Bool := entry.ziptgt = ziptgt

/-- `create_generic_boot_type_archives`, in the order of their extraction. -/
def createGenericBootTypeArchives (files : List Entry) : List Entry :=
  createCompleteArchive (filterEntry .rootfs) files ++ createCompleteArchive (filterEntry .opt) files

/-- `create_integrated_boot_type_archives`, with `filter_all`. -/
def createIntegratedBootTypeArchives (files : List Entry) : List Entry :=
  createCompleteArchive (fun _ => true) files

/-- Every directory above an entry, other than the root, has been extracted before the entry. -/
def Unpackable (es : List Entry) : Prop :=
  ∀ done e rest, es = done ++ e :: rest → ∀ p ∈ parentPaths e.target,
    p = [] ∨ ∃ d ∈ done, d.entryType = .dir ∧ d.target = p

theorem unpackable {es : List Entry}
    (hsorted : es.Pairwise fun e d => d.ziptgt ≤ e.ziptgt → e.target ≤ d.target)
    (hparents : ∀ e ∈ es, ∀ p ∈ parentPaths e.target,
      p = [] ∨ ∃ d ∈ es, d.entryType = .dir ∧ d.target = p ∧ d.ziptgt ≤ e.ziptgt) : Unpackable es := by
  rintro done e rest rfl p hp
  refine (hparents e (by simp) p hp).imp_right ?_
  rintro ⟨d, hd, hdir, rfl, hle⟩
  have hlt := lt_of_mem_parentPaths hp
  refine ⟨d, (List.mem_append.mp hd).resolve_right fun hlater => ?_, hdir, rfl⟩
  rcases List.mem_cons.mp hlater with rfl | hlater
  · exact List.lt_irrefl _ hlt
  · have hrest := (List.pairwise_append.mp hsorted).2.1
    exact absurd hlt (not_lt.mpr (List.rel_of_pairwise_cons hrest hlater hle))

/-- An entry that an archive takes, or one without a name. -/
def Archived (f : Entry) : Prop := f.ziptgt ≠ .unknown ∧ (f.filename = [] → f.target = [])

theorem addZipListEntry_archived {r : Request} (h : ∀ f ∈ files, Archived f)
    (hr : r.ziptgt ≠ .unknown ∧ (r.file = [] → r.target cfg = []))
    (hadd : addZipListEntry cfg files r = .ok (files', i)) : ∀ f ∈ files', Archived f := by
  obtain ⟨-, ⟨a, -, -, rfl, -⟩ | ⟨p, hp, -, -, htakes, rfl⟩⟩ := addZipListEntry_cases hadd
  · exact List.forall_mem_append.mpr ⟨h, List.forall_mem_singleton.mpr hr⟩
  · intro f hf
    rcases List.mem_or_eq_of_mem_set hf with hf | rfl
    · exact h f hf
    · have hp' := h p (List.mem_of_getElem? hp)
      rw [Entry.absorb, if_pos htakes]
      refine ⟨?_, hp'.2⟩
      rcases min_choice p.ziptgt r.ziptgt with hmin | hmin <;> dsimp only <;> rw [hmin]
      · exact hp'.1
      · exact hr.1

theorem addAll_archived {R : List Request} (hR : ∀ r ∈ R, r.file ≠ [] ∧ r.ziptgt ≠ .unknown)
    (h : ∀ f ∈ files, Archived f) : ∀ f ∈ (addAll cfg files R).1, Archived f := by
  induction R generalizing files with
  | nil => exact h
  | cons r R ih =>
      obtain ⟨hr, hrest⟩ := List.forall_mem_cons.mp hR
      unfold addAll
      split
      · next hadd => exact ih hrest (addZipListEntry_archived h ⟨hr.2, fun hnil => absurd hnil hr.1⟩ hadd)
      · exact ih hrest h
      · exact h

theorem addParents_archived (hg : g ≠ .unknown) (h : ∀ f ∈ files, Archived f)
    (hadd : addParents cfg g dirs files = .ok files') : ∀ f ∈ files', Archived f := by
  induction dirs generalizing files with
  | nil => exact Except.ok.inj hadd ▸ h
  | cons dir dirs ih =>
      unfold addParents at hadd
      split at hadd
      · exact nomatch hadd
      · next hone =>
          refine ih (addZipListEntry_archived h ⟨hg, ?_⟩ hone) hadd
          rintro rfl
          exact List.eq_nil_of_length_eq_zero (Nat.le_zero.mp (length_removePrefix_le cfg []))

theorem addDirectories_archived (h : ∀ f ∈ files, Archived f)
    (hrun : addDirectories cfg fuel i files = some (.ok files')) : ∀ f ∈ files', Archived f := by
  induction fuel generalizing i files with
  | zero => exact nomatch hrun
  | succ fuel ih =>
      unfold addDirectories at hrun
      split at hrun
      · exact Except.ok.inj (Option.some.inj hrun) ▸ h
      · next first hfirst =>
          split at hrun
          · exact nomatch hrun
          · next hadd => exact ih (addParents_archived (h _ (List.mem_of_getElem? hfirst)).1 h hadd) hrun

/-- Whatever is asked for, the archives of both kinds can be unpacked entry by entry if the directories above
the entries keep their names. -/
theorem archives_unpackable {R : List Request} {fuel : Nat}
    (hR : ∀ r ∈ R, r.file ≠ [] ∧ r.ziptgt ≠ .unknown) (hkept : ParentsKept cfg (addAll cfg [] R).1)
    (h : prepareZipLists cfg fuel (addAll cfg [] R).1 = some (.ok files)) :
    Unpackable (createGenericBootTypeArchives files) ∧ Unpackable (createIntegratedBootTypeArchives files) := by
  obtain ⟨m, u, hrep⟩ := addAll_exists_represents cfg R Represents.nil
  have hclosed := hkept.directoryClosed hrep h
  obtain ⟨files₁, hrun, rfl⟩ := prepareZipLists_ok h
  have harchived : ∀ f ∈ sortByTarget files₁, Archived f := by
    refine fun f hf => addDirectories_archived (fun f hf => ?_) hrun f ((sortByTarget_perm _).mem_iff.mp hf)
    refine addAll_archived hR ?_ f ((sortByTarget_perm _).mem_iff.mp hf)
    simp
  have hpair : (sortByTarget files₁).Pairwise fun e d => e.target ≤ d.target := List.pairwise_insertionSort _ _
  have hsorted (keep : Entry → Bool) : (createCompleteArchive keep (sortByTarget files₁)).Pairwise
      fun e d => d.ziptgt ≤ e.ziptgt → e.target ≤ d.target := by
    refine (hpair.filter _).imp ?_
    exact fun hle _ => hle
  have hparents : ∀ e ∈ sortByTarget files₁, ∀ p ∈ parentPaths e.target, p = [] ∨
      ∃ d ∈ createGenericBootTypeArchives (sortByTarget files₁),
        d.entryType = .dir ∧ d.target = p ∧ d.ziptgt ≤ e.ziptgt := by
    intro e he p hp
    obtain ⟨d, hd, hdir, rfl, hle⟩ := hclosed.parents e he p hp
    obtain ⟨hziptgt, hname⟩ := harchived d hd
    refine or_iff_not_imp_left.mpr fun hne => ⟨d, ?_, hdir, rfl, hle⟩
    have hone : d.ziptgt = .rootfs ∨ d.ziptgt = .opt := by
      cases hd : d.ziptgt <;> simp_all
    simpa [createGenericBootTypeArchives, createCompleteArchive, filterEntry, hd, hdir, mt hname hne] using hone
  have hall : createGenericBootTypeArchives (sortByTarget files₁) ⊆
      createIntegratedBootTypeArchives (sortByTarget files₁) := by
    intro d hd
    simp [createGenericBootTypeArchives, createIntegratedBootTypeArchives, createCompleteArchive] at hd ⊢
    tauto
  have hfiles : createIntegratedBootTypeArchives (sortByTarget files₁) ⊆ sortByTarget files₁ :=
    fun d hd => List.mem_of_mem_filter hd
  refine ⟨unpackable ?_ fun e he => hparents e (hfiles (hall he)), unpackable (hsorted _) ?_⟩
  · refine List.pairwise_append.mpr ⟨hsorted _, hsorted _, fun e he d hd hle => ?_⟩
    simp only [createCompleteArchive, filterEntry, List.mem_filter, decide_eq_true_eq] at he hd
    rw [he.2.2.1, hd.2.2.1] at hle
    exact absurd hle (by decide)
  · intro e he p hp
    refine (hparents e (hfiles he) p hp).imp_right ?_
    rintro ⟨d, hd, hdir⟩
    exact ⟨d, hall hd, hdir⟩

theorem archives_unpackable_etc : ∃ files,
    prepareZipLists ⟨"config".toList, [], []⟩ 10
      (addAll ⟨"config".toList, [], []⟩ [] (renamed "etc/foo/x")).1 = some (.ok files) ∧
    Unpackable (createGenericBootTypeArchives files) ∧
    Unpackable (createIntegratedBootTypeArchives files) := by
  refine ⟨_, rfl, @archives_unpackable ⟨"config".toList, [], []⟩ _ (renamed "etc/foo/x") 10 (by decide) ?_ rfl⟩
  unfold ParentsKept
  decide

end Ziplist
end Mkfli4l
