import Mkfli4l.Ziplist.OptLibs

/-!
# When the resolution of libraries ends

Libraries may need each other.  `resolve_dependencies` follows the needed libraries of every entry it
comes to, whether it has been there before or not, so a library that needs itself by way of others
is followed for ever.  The number of entries is bounded, since every entry that is added stands for
another file of the library directories.  So this is also the only way in which the resolution does
not end.
-/

namespace Mkfli4l
namespace Ziplist

open Lib

/-- The name on the target system of a library in a directory. -/
def libTarget (env : Surroundings) (dir : LibDir) (lib : LibFile) : CString :=
  removePrefix env.cfg (dir.dirname ++ '/' :: lib.name)

theorem libRequest_target (env : Surroundings) (dir : LibDir) (lib : LibFile) (ziptgt : ZipTgt) :
    (libRequest dir lib ziptgt).target env.cfg = libTarget env dir lib := rfl

/-- What holds while the libraries of a root are resolved: libraries are resolved to entries that
have a name, and the entries from number `n` on are secondary and have different names from the list
`targets`, where all files of the library directories are. -/
structure LibInv (env : Surroundings) (root : Nat) (rpath : Option CString) (n : Nat)
    (targets : List CString) (st : LibState) : Prop where
  root_lt : root < st.files.length
  rpath_eq : st.rpath env root = rpath
  named : ∀ {e i f : Nat}, st.depFile e i = some f →
    ∃ p, st.files[f]? = some p ∧ p.target ≠ []
  dirs : ∀ dir ∈ st.libdirs, ∀ lib ∈ dir.libraries, libTarget env dir lib ∈ targets
  added : ∀ {j : Nat} {p : Entry}, n ≤ j → st.files[j]? = some p → p.target ∈ targets ∧
    (p.target ≠ [] → ∀ {j' : Nat} {p' : Entry}, j' < j → st.files[j']? = some p' →
      p'.target ≠ p.target)
  late : ∀ {j : Nat}, n ≤ j → j < st.files.length → st.secondary j = true

section Keeps

variable {env : Surroundings} {root e i f n : Nat} {rpath : Option CString}
  {targets : List CString} {st st' : LibState} {soname : CString}

theorem LibInv.of_le (h : LibInv env root rpath n targets st) (hle : st.Le st')
    (hlength : st'.files.length = st.files.length) (hdirs : st'.libdirs = st.libdirs)
    (hnamed : ∀ {e i f : Nat}, st'.depFile e i = some f →
      ∃ p, st.files[f]? = some p ∧ p.target ≠ []) :
    LibInv env root rpath n targets st' where
  root_lt := hlength ▸ h.root_lt
  rpath_eq := (hle.rpath_eq h.root_lt).trans h.rpath_eq
  named := by
    intro e i f hf
    obtain ⟨p, hp, hne⟩ := hnamed hf
    obtain ⟨q, hq, hmoves⟩ := hle.files hp
    exact ⟨q, hq, hmoves.target ▸ hne⟩
  dirs := hdirs ▸ h.dirs
  added := by
    -- every entry of the later list stands for one of the earlier list
    have hback {j : Nat} {q : Entry} (hq : st'.files[j]? = some q) :
        ∃ p, st.files[j]? = some p ∧ q.target = p.target := by
      have hj := (List.getElem?_eq_some_iff.mp hq).1
      rw [hlength] at hj
      obtain ⟨q', hq', hmoves⟩ := hle.files (List.getElem?_eq_getElem hj)
      obtain rfl := Option.some.inj (hq.symm.trans hq')
      exact ⟨_, List.getElem?_eq_getElem hj, hmoves.target⟩
    intro j q hj hq
    obtain ⟨p, hp, htarget⟩ := hback hq
    obtain ⟨hmem, hdistinct⟩ := h.added hj hp
    rw [htarget]
    refine ⟨hmem, ?_⟩
    intro hne j' q' hj' hq'
    obtain ⟨p', hp', htarget'⟩ := hback hq'
    rw [htarget']
    exact hdistinct hne hj' hp'
  late := by
    intro j hj hlt
    rw [hlength] at hlt
    exact hle.secondary (h.late hj hlt)

theorem LibInv.setDepFile (h : LibInv env root rpath n targets st) (hdep : st.depFile e i = none)
    {p : Entry} (hp : st.files[f]? = some p) (hne : p.target ≠ []) :
    LibInv env root rpath n targets (st.setDepFile e i f) := by
  refine h.of_le (LibState.le_setDepFile hdep) rfl rfl ?_
  intro e' i' f' hf'
  by_cases hsame : e' = e ∧ i' = i
  · obtain ⟨rfl, rfl⟩ := hsame
    rw [LibState.setDepFile_self] at hf'
    obtain rfl := Option.some.inj hf'
    exact ⟨p, hp, hne⟩
  · have hold : st.depFile e' i' = some f' := by
      rw [← hf', LibState.setDepFile]
      by_cases he : e' = e
      · subst he
        have hi : i' ≠ i := fun hi => hsame ⟨rfl, hi⟩
        simp [hi]
      · simp [he]
    exact h.named hold

theorem LibInv.lower (h : LibInv env root rpath n targets st) (f : Nat) :
    LibInv env root rpath n targets (st.lower root f) := by
  have hlower : (st.lower root f).files.length = st.files.length ∧
      (st.lower root f).libdirs = st.libdirs ∧ (st.lower root f).depFile = st.depFile := by
    unfold LibState.lower
    split
    · exact ⟨List.length_modify .., rfl, rfl⟩
    · exact ⟨rfl, rfl, rfl⟩
  refine h.of_le LibState.le_lower hlower.1 hlower.2.1 ?_
  rw [hlower.2.2]
  exact h.named

theorem LibInv.withLibdirs (h : LibInv env root rpath n targets st) {dirs : List LibDir}
    (hdirs : ∀ dir ∈ dirs, ∀ lib ∈ dir.libraries, libTarget env dir lib ∈ targets) :
    LibInv env root rpath n targets (st.withLibdirs dirs) :=
  ⟨h.root_lt, h.rpath_eq, h.named, hdirs, h.added, h.late⟩

theorem LibInv.searched (h : LibInv env root rpath n targets st) {dirs : List LibDir} {found : Bool}
    (hdirs : ∀ dir ∈ dirs, ∀ lib ∈ dir.libraries, libTarget env dir lib ∈ targets)
    (hsearched : Searched env root soname st dirs st' found) :
    LibInv env root rpath n targets st' := by
  have hle := hsearched.le
  rcases hsearched with ⟨-, rfl⟩ | ⟨-, dir, hdir, lib, hlib, -, files, k, hadd, rfl⟩
  · exact h
  · rcases (addZipListEntry_cases hadd).2 with ⟨a, -, hnone, rfl, rfl⟩ | ⟨p, hp, -, -, -, rfl⟩
    · refine ⟨?_, (hle.rpath_eq h.root_lt).trans h.rpath_eq, ?_, h.dirs, ?_, ?_⟩
      · exact h.root_lt.trans_le hle.length_le
      · intro e i f hf
        obtain ⟨p, hp, hne⟩ := h.named hf
        obtain ⟨q, hq, hmoves⟩ := hle.files hp
        exact ⟨q, hq, hmoves.target ▸ hne⟩
      · intro j p hj hp
        have hold {j' : Nat} {p' : Entry} (hj' : j' < st.files.length)
            (hp' : (st.files ++ [Request.entry env.cfg (libRequest dir lib (st.ziptgt root)) a])[j']? =
              some p') : st.files[j']? = some p' := by
          rwa [List.getElem?_append_left hj'] at hp'
        by_cases hlast : j < st.files.length
        · obtain ⟨hmem, hdistinct⟩ := h.added hj (hold hlast hp)
          exact ⟨hmem, fun hne j' p' hj' hp' => hdistinct hne hj' (hold (hj'.trans hlast) hp')⟩
        · have hend : j = st.files.length := by
            have hlt := (List.getElem?_eq_some_iff.mp hp).1
            rw [List.length_append, List.length_singleton] at hlt
            omega
          subst hend
          rw [List.getElem?_append_right le_rfl, Nat.sub_self] at hp
          obtain rfl := Option.some.inj hp
          rw [Request.entry_target, libRequest_target]
          refine ⟨hdirs dir hdir lib hlib, ?_⟩
          intro hne j' p' hj' hp' htarget
          have hmem := List.mem_of_getElem? (hold hj' hp')
          have hother := List.findIdx?_eq_none_iff.mp hnone p' hmem
          rw [libRequest_target, ← htarget] at hother
          rw [← htarget] at hne
          simp [hne] at hother
      · intro j hj hlt
        by_cases hlast : j < st.files.length
        · exact hle.secondary (h.late hj hlast)
        · have hend : j = st.files.length := by
            rw [List.length_append, List.length_singleton] at hlt
            omega
          simp [hend]
    · exact h.of_le hle List.length_set rfl h.named

theorem LibInv.addDependency (h : LibInv env root rpath n targets st) {found : Bool}
    (hrpath : ∀ path ∈ rpath, ∀ lib ∈ (ldconfig env path false).libraries,
      libTarget env (ldconfig env path false) lib ∈ targets)
    (hadd : addDependency env st root soname = (st', found)) :
    LibInv env root rpath n targets st' := by
  obtain ⟨dirs, hdirs, hsearched⟩ := addDependency_cases hadd
  have hall : ∀ dir ∈ dirs, ∀ lib ∈ dir.libraries, libTarget env dir lib ∈ targets := by
    rcases hdirs with rfl | ⟨path, hpath, rfl⟩
    · exact h.dirs
    · intro dir hdir
      rcases List.mem_append.mp hdir with hdir | hdir
      · exact h.dirs dir hdir
      · rw [List.mem_singleton.mp hdir]
        exact hrpath path (h.rpath_eq ▸ hpath)
  exact (h.withLibdirs hall).searched hall hsearched

theorem LibInv.resolved (h : LibInv env root rpath n targets st) {r : Option Nat}
    (hrpath : ∀ path ∈ rpath, ∀ lib ∈ (ldconfig env path false).libraries,
      libTarget env (ldconfig env path false) lib ∈ targets)
    (hresolved : Resolved env root st e i soname st' r) :
    LibInv env root rpath n targets st' := by
  cases hresolved with
  | cached hdep => exact h
  | found hdep hlookup =>
      obtain ⟨p, hp, hprovides⟩ := lookupDependency_provides hlookup
      exact h.setDepFile hdep hp hprovides.target_ne_nil
  | added hdep hlookup hadd hdep' hlookup' =>
      obtain ⟨p, hp, hprovides⟩ := lookupDependency_provides hlookup'
      exact (h.addDependency hrpath hadd).setDepFile hdep' hp hprovides.target_ne_nil
  | missing hdep hlookup hadd => exact h.addDependency hrpath hadd

/-- An entry of the list that has a name, unless it is one of the first `n`. -/
def LibKnown (n : Nat) (st : LibState) (e : Nat) : Prop :=
  ∃ p, st.files[e]? = some p ∧ (n ≤ e → p.target ≠ [])

theorem LibKnown.lt (h : LibKnown n st e) : e < st.files.length := by
  obtain ⟨p, hp, -⟩ := h
  exact (List.getElem?_eq_some_iff.mp hp).1

theorem libWalker_remembers (env : Surroundings) (root : Nat) (rpath : Option CString) (n : Nat)
    {targets : List CString}
    (hrpath : ∀ path ∈ rpath, ∀ lib ∈ (ldconfig env path false).libraries,
      libTarget env (ldconfig env path false) lib ∈ targets) :
    (libWalker env root).Remembers (LibInv env root rpath n targets)
      (LibKnown n) LibState.Le
      (fun st e dep f => st.depFile e dep.2 = some f) where
  refl := LibState.Le.refl
  trans := LibState.Le.trans
  known := by
    rintro st st' e hle ⟨p, hp, hne⟩
    obtain ⟨q, hq, hmoves⟩ := hle.files hp
    exact ⟨q, hq, fun hn => hmoves.target ▸ hne hn⟩
  follow := by
    intro st e dep ok st' c hinv he hdep hfollow
    have hinv' : LibInv env root rpath n targets st' := by
      obtain ⟨st₁, hresolved, ⟨rfl, -⟩ | ⟨f, -, -, rfl⟩⟩ := follow_cases hfollow
      · exact hinv.resolved hrpath hresolved
      · exact (hinv.resolved hrpath hresolved).lower f
    refine ⟨hinv', follow_le hfollow, ?_⟩
    intro f hf
    obtain rfl : c = some f := hf
    obtain ⟨p, hp, hne⟩ := hinv'.named (follow_depFile hfollow)
    exact ⟨p, hp, fun _ => hne⟩
  keys := by
    intro st st' e hle he
    exact congrArg List.zipIdx (hle.needed_eq he.lt)
  edge_le hle hedge := hle.depFile hedge
  follow_edge _ _ _ hfollow := follow_depFile hfollow
  edge_follow := by
    intro st e dep f ok hedge
    refine ⟨if ok then st.lower root f else st, ?_⟩
    have hresolve : resolveDependency env root st e dep.2 dep.1 = (st, some f) := by
      rw [resolveDependency, tryToResolveDependency, hedge]
      dsimp only
      rw [hedge]
    unfold libWalker
    dsimp only
    rw [hresolve]

/-- A chain without repetitions has at most as many entries as there are entries at the beginning
and files in the library directories. -/
theorem LibInv.chain_bound (h : LibInv env root rpath n targets st) {chain : List Nat}
    (hknown : ∀ e ∈ chain, LibKnown n st e) (hnodup : chain.Nodup) :
    chain.length ≤ n + targets.length := by
  let label (e : Nat) : Nat ⊕ CString :=
    if e < n then .inl e else .inr ((st.files[e]?.map Entry.target).getD [])
  have hlabel {e : Nat} (hn : n ≤ e) {p : Entry} (hp : st.files[e]? = some p) :
      label e = .inr p.target := by
    simp [label, not_lt.mpr hn, hp]
  have hsmall {e : Nat} (he : e < n) : label e = .inl e := if_pos he
  -- two added entries with the same name would be the same entry
  have hdistinct {e e' : Nat} (hn : n ≤ e) (hn' : n ≤ e') (hlt : e < e') (he : LibKnown n st e)
      (he' : LibKnown n st e') : label e ≠ label e' := by
    obtain ⟨p, hp, -⟩ := he
    obtain ⟨p', hp', hne'⟩ := he'
    rw [hlabel hn hp, hlabel hn' hp']
    intro heq
    exact (h.added hn' hp').2 (hne' hn') hlt hp (Sum.inr.inj heq)
  have hinj : ∀ e ∈ chain, ∀ e' ∈ chain, label e = label e' → e = e' := by
    intro e he e' he' heq
    by_cases hn : e < n
    · by_cases hn' : e' < n
      · rw [hsmall hn, hsmall hn'] at heq
        exact Sum.inl.inj heq
      · obtain ⟨p', hp', -⟩ := hknown e' he'
        rw [hsmall hn, hlabel (not_lt.mp hn') hp'] at heq
        exact nomatch heq
    · by_cases hn' : e' < n
      · obtain ⟨p, hp, -⟩ := hknown e he
        rw [hsmall hn', hlabel (not_lt.mp hn) hp] at heq
        exact nomatch heq
      · rcases lt_trichotomy e e' with hlt | heq' | hlt
        · exact absurd heq
            (hdistinct (not_lt.mp hn) (not_lt.mp hn') hlt (hknown e he) (hknown e' he'))
        · exact heq'
        · exact absurd heq.symm
            (hdistinct (not_lt.mp hn') (not_lt.mp hn) hlt (hknown e' he') (hknown e he))
  have hsubset : chain.map label ⊆ (List.range n).map Sum.inl ++ targets.map Sum.inr := by
    intro x hx
    obtain ⟨e, he, rfl⟩ := List.mem_map.mp hx
    by_cases hn : e < n
    · rw [hsmall hn]
      exact List.mem_append_left _ (List.mem_map_of_mem (List.mem_range.mpr hn))
    · obtain ⟨p, hp, -⟩ := hknown e he
      rw [hlabel (not_lt.mp hn) hp]
      exact List.mem_append_right _ (List.mem_map_of_mem (h.added (not_lt.mp hn) hp).1)
  have hle := ((hnodup.map_on hinj).subperm hsubset).length_le
  simpa using hle

end Keeps

/-! ### One root -/

section Root

variable {env : Surroundings} {root fuel : Nat} {st st' : LibState} {ok : Bool}

/-- Libraries are resolved to entries that have a name. -/
def LibState.Valid (st : LibState) : Prop :=
  ∀ {e i f : Nat}, st.depFile e i = some f → ∃ p, st.files[f]? = some p ∧ p.target ≠ []

/-- The names of the files in the directories that are searched for a root. -/
def rootTargets (env : Surroundings) (root : Nat) (st : LibState) : List CString :=
  (st.libdirs ++ (st.rpath env root).toList.map fun path => ldconfig env path false).flatMap
    fun dir => dir.libraries.map (libTarget env dir)

theorem mem_rootTargets_rpath : ∀ path ∈ st.rpath env root,
    ∀ lib ∈ (ldconfig env path false).libraries,
      libTarget env (ldconfig env path false) lib ∈ rootTargets env root st := by
  intro path hpath lib hlib
  refine List.mem_flatMap.mpr ⟨ldconfig env path false, ?_, List.mem_map_of_mem hlib⟩
  refine List.mem_append_right _ (List.mem_map_of_mem ?_)
  rw [Option.mem_def.mp hpath]
  exact List.mem_singleton_self path

theorem LibState.Valid.libInv (h : st.Valid) (hroot : root < st.files.length) :
    LibInv env root (st.rpath env root) st.files.length (rootTargets env root st) st where
  root_lt := hroot
  rpath_eq := rfl
  named := h
  dirs dir hdir _ hlib :=
    List.mem_flatMap.mpr ⟨dir, List.mem_append_left _ hdir, List.mem_map_of_mem hlib⟩
  added hj hp := absurd (List.getElem?_eq_some_iff.mp hp).1 (not_lt.mpr hj)
  late hj hlt := absurd hlt (not_lt.mpr hj)

theorem libKnown_root (hroot : root < st.files.length) : LibKnown st.files.length st root :=
  ⟨_, List.getElem?_eq_getElem hroot, fun hle => absurd hroot (not_lt.mpr hle)⟩

theorem resolveDependencies_ends_iff (h : st.Valid) (hroot : root < st.files.length) :
    (∃ fuel, (resolveDependencies env root fuel st [] root).isSome) ↔
      ∀ v, (libWalker env root).Visits st root v → (v.node :: v.chain).Nodup := by
  have hremembers := libWalker_remembers env root (st.rpath env root) st.files.length
    mem_rootTargets_rpath
  refine hremembers.terminates_iff (B := st.files.length + (rootTargets env root st).length)
    (h.libInv hroot) (libKnown_root hroot) ?_
  intro v hvisits hnodup
  obtain ⟨hinv, hknown, -⟩ := (hremembers.visits (h.libInv hroot) (libKnown_root hroot) hvisits).1
  exact hinv.chain_bound hknown hnodup

theorem resolveDependencies_spec (h : st.Valid) (hroot : root < st.files.length)
    (hresult : resolveDependencies env root fuel st [] root = some (st', ok)) :
    st.Le st' ∧ st'.Valid ∧
      ∀ {j : Nat}, st.files.length ≤ j → j < st'.files.length → st'.secondary j = true := by
  have hremembers := libWalker_remembers env root (st.rpath env root) st.files.length
    mem_rootTargets_rpath
  obtain ⟨hinv, hle⟩ := hremembers.traverse (h.libInv hroot) (libKnown_root hroot) hresult
  exact ⟨hle, hinv.named, hinv.late⟩

end Root

/-! ### The loop over all roots -/

section Loop

variable {env : Surroundings} {st₀ st st' : LibState} {e fuel fuel' steps steps' : Nat}
  {ok ok' : Bool}

/-- The points of the loop of `resolve_library_dependencies`: the next entry, the state and the
result so far. -/
inductive LoopAt (env : Surroundings) (st₀ : LibState) : Nat → LibState → Bool → Prop
  | start : LoopAt env st₀ 0 st₀ true
  | skip {e : Nat} {st : LibState} {ok : Bool} (hat : LoopAt env st₀ e st ok)
      (he : e < st.files.length) (hprimary : st.primary env e = false) :
      LoopAt env st₀ (e + 1) st ok
  | root {e fuel : Nat} {st st' : LibState} {ok ok' : Bool} (hat : LoopAt env st₀ e st ok)
      (he : e < st.files.length) (hprimary : st.primary env e = true)
      (hresult : resolveDependencies env e fuel st [] e = some (st', ok')) :
      LoopAt env st₀ (e + 1) st' (ok && ok')

theorem resolveLoop_end (he : ¬ e < st.files.length) :
    resolveLoop env fuel (steps + 1) e st ok = some (st, ok) := by
  rw [resolveLoop, if_neg he]

theorem resolveLoop_skip (he : e < st.files.length) (hprimary : st.primary env e = false) :
    resolveLoop env fuel (steps + 1) e st ok = resolveLoop env fuel steps (e + 1) st ok := by
  rw [resolveLoop, if_pos he, hprimary, if_neg Bool.false_ne_true]

theorem resolveLoop_root (he : e < st.files.length) (hprimary : st.primary env e = true) :
    resolveLoop env fuel (steps + 1) e st ok =
      (resolveDependencies env e fuel st [] e).bind fun r =>
        resolveLoop env fuel steps (e + 1) r.1 (ok && r.2) := by
  rw [resolveLoop, if_pos he, if_pos hprimary]
  cases resolveDependencies env e fuel st [] e <;> rfl

theorem resolveLoop_mono (hfuel : fuel ≤ fuel') (hsteps : steps ≤ steps') {r : LibState × Bool}
    (h : resolveLoop env fuel steps e st ok = some r) :
    resolveLoop env fuel' steps' e st ok = some r := by
  induction steps generalizing steps' e st ok with
  | zero => exact nomatch h
  | succ steps ih =>
      obtain ⟨steps', rfl⟩ : ∃ m, steps' = m + 1 := ⟨steps' - 1, by omega⟩
      by_cases he : e < st.files.length
      · cases hprimary : st.primary env e with
        | false =>
            rw [resolveLoop_skip he hprimary] at h ⊢
            exact ih (by omega) h
        | true =>
            rw [resolveLoop_root he hprimary] at h ⊢
            obtain ⟨r', hr', hrest⟩ := Option.bind_eq_some_iff.mp h
            have hmore : resolveDependencies env e fuel' st [] e = some r' :=
              Walker.traverse_mono hfuel hr'
            rw [hmore, Option.bind_some]
            exact ih (by omega) hrest
      · rw [resolveLoop_end he] at h ⊢
        exact h

/-- What holds at every point of the loop: the entries behind the first `n` are secondary. -/
structure LoopInv (n : Nat) (st : LibState) : Prop where
  length : n ≤ st.files.length
  valid : st.Valid
  late : ∀ {j : Nat}, n ≤ j → j < st.files.length → st.secondary j = true

theorem LoopInv.root {n root : Nat} (h : LoopInv n st) (hroot : root < st.files.length)
    (hresult : resolveDependencies env root fuel st [] root = some (st', ok)) : LoopInv n st' := by
  obtain ⟨hle, hvalid, hlate⟩ := resolveDependencies_spec h.valid hroot hresult
  refine ⟨h.length.trans hle.length_le, hvalid, ?_⟩
  intro j hj hlt
  by_cases hold : j < st.files.length
  · exact hle.secondary (h.late hj hold)
  · exact hlate (not_lt.mp hold) hlt

theorem LoopInv.loopAt {n : Nat} (h : LoopInv n st₀) (hat : LoopAt env st₀ e st ok) :
    LoopInv n st := by
  induction hat with
  | start => exact h
  | skip _ _ _ ih => exact ih
  | root _ he _ hresult ih => exact ih.root he hresult

theorem LoopInv.le_loopAt {n : Nat} (h : LoopInv n st₀) (hat : LoopAt env st₀ e st ok) :
    st₀.Le st := by
  induction hat with
  | start => exact .refl st₀
  | skip _ _ _ ih => exact ih
  | root hat he _ hresult ih =>
      exact ih.trans (resolveDependencies_spec (h.loopAt hat).valid he hresult).1

theorem LoopInv.init (env : Surroundings) (files : List Entry) :
    LoopInv files.length (initLibState env files) where
  length := le_rfl
  valid := by
    intro e i f hdep
    exact nomatch hdep
  late hj hlt := absurd hlt (not_lt.mpr hj)

theorem LoopAt.isSome (hat : LoopAt env st₀ e st ok)
    (h : (resolveLoop env fuel steps 0 st₀ true).isSome) :
    ∃ steps', (resolveLoop env fuel steps' e st ok).isSome := by
  induction hat with
  | start => exact ⟨steps, h⟩
  | @skip e st ok hat he hprimary ih =>
      obtain ⟨steps', hsome⟩ := ih
      cases steps' with
      | zero => exact nomatch hsome
      | succ steps' =>
          rw [resolveLoop_skip he hprimary] at hsome
          exact ⟨steps', hsome⟩
  | @root e _ st st' ok ok' hat he hprimary hresult ih =>
      obtain ⟨steps', hsome⟩ := ih
      cases steps' with
      | zero => exact nomatch hsome
      | succ steps' =>
          rw [resolveLoop_root he hprimary] at hsome
          obtain ⟨r, hr⟩ := Option.isSome_iff_exists.mp hsome
          obtain ⟨r', hr', hrest⟩ := Option.bind_eq_some_iff.mp hr
          obtain rfl := Walker.traverse_unique hr' hresult
          exact ⟨steps', Option.isSome_iff_exists.mpr ⟨r, hrest⟩⟩

theorem resolveLoop_of_secondary (hlate : ∀ {j : Nat}, e ≤ j → j < st.files.length →
      st.secondary j = true) : ∃ steps, (resolveLoop env fuel steps e st ok).isSome := by
  refine ⟨st.files.length - e + 1, ?_⟩
  generalize hd : st.files.length - e = d
  induction d generalizing e with
  | zero =>
      rw [resolveLoop_end (by omega)]
      rfl
  | succ d ih =>
      have he : e < st.files.length := by omega
      have hprimary : st.primary env e = false := by simp [LibState.primary, hlate le_rfl he]
      rw [resolveLoop_skip he hprimary]
      exact ih (fun hj hlt => hlate (by omega) hlt) (by omega)

theorem resolveLoop_ends {n : Nat} (h : LoopInv n st₀)
    (hroots : ∀ e st ok, LoopAt env st₀ e st ok → e < st.files.length → st.primary env e = true →
      ∃ fuel, (resolveDependencies env e fuel st [] e).isSome)
    (hat : LoopAt env st₀ e st ok) :
    ∃ fuel steps, (resolveLoop env fuel steps e st ok).isSome := by
  have hinv := h.loopAt hat
  -- by the number of entries that may still be primary
  generalize hd : n - e = d
  induction d generalizing e st ok with
  | zero =>
      refine ⟨0, resolveLoop_of_secondary ?_⟩
      exact fun hj hlt => hinv.late (by omega) hlt
  | succ d ih =>
      have he : e < st.files.length := by
        have hlength := hinv.length
        omega
      cases hprimary : st.primary env e with
      | false =>
          have hat' := hat.skip he hprimary
          obtain ⟨fuel, steps, hsome⟩ := ih hat' (h.loopAt hat') (by omega)
          exact ⟨fuel, steps + 1, by rwa [resolveLoop_skip he hprimary]⟩
      | true =>
          obtain ⟨fuel, hfuel⟩ := hroots e st ok hat he hprimary
          obtain ⟨⟨st', ok'⟩, hresult⟩ := Option.isSome_iff_exists.mp hfuel
          have hat' := hat.root he hprimary hresult
          obtain ⟨fuel', steps, hsome⟩ := ih hat' (h.loopAt hat') (by omega)
          obtain ⟨r, hr⟩ := Option.isSome_iff_exists.mp hsome
          refine ⟨max fuel fuel', steps + 1, ?_⟩
          have hmore : resolveDependencies env e (max fuel fuel') st [] e = some (st', ok') :=
            Walker.traverse_mono (Nat.le_max_left fuel fuel') hresult
          rw [resolveLoop_root he hprimary, hmore, Option.bind_some,
            resolveLoop_mono (Nat.le_max_right fuel fuel') le_rfl hr]
          rfl

/-- The chains of dependers, with the last library first, that come up in the resolution. -/
def DependerChain (env : Surroundings) (files : List Entry) (chain : List Nat) : Prop :=
  ∃ e st ok v, LoopAt env (initLibState env files) e st ok ∧ e < st.files.length ∧
    st.primary env e = true ∧ (libWalker env e).Visits st e v ∧ chain = v.node :: v.chain

/-- The resolution of libraries ends if and only if no entry comes up among its own dependers. -/
theorem resolveLibraryDependencies_ends_iff (env : Surroundings) (files : List Entry) :
    (∃ fuel, (resolveLibraryDependencies env fuel files).isSome) ↔
      ∀ chain, DependerChain env files chain → chain.Nodup := by
  have hinit := LoopInv.init env files
  constructor
  · rintro ⟨fuel, hfuel⟩ chain ⟨e, st, ok, v, hat, he, hprimary, hvisits, rfl⟩
    refine (resolveDependencies_ends_iff (hinit.loopAt hat).valid he).mp ⟨fuel, ?_⟩ v hvisits
    obtain ⟨steps, hsome⟩ := hat.isSome hfuel
    cases steps with
    | zero => exact nomatch hsome
    | succ steps =>
        rw [resolveLoop_root he hprimary] at hsome
        exact Option.isSome_of_isSome_bind hsome
  · intro hnodup
    obtain ⟨fuel, steps, hsome⟩ := resolveLoop_ends hinit (fun e st ok hat he hprimary =>
      (resolveDependencies_ends_iff (hinit.loopAt hat).valid he).mpr fun v hvisits =>
        hnodup _ ⟨e, st, ok, v, hat, he, hprimary, hvisits, rfl⟩) .start
    obtain ⟨r, hr⟩ := Option.isSome_iff_exists.mp hsome
    refine ⟨max fuel steps, Option.isSome_iff_exists.mpr ⟨r, ?_⟩⟩
    exact resolveLoop_mono (Nat.le_max_left _ _) (Nat.le_max_right _ _) hr

theorem resolveLoop_eq_none (he : e < st.files.length) (hprimary : st.primary env e = true)
    (hstuck : ∀ fuel, resolveDependencies env e fuel st [] e = none) :
    resolveLoop env fuel steps e st ok = none := by
  cases steps with
  | zero => rfl
  | succ steps => rw [resolveLoop_root he hprimary, hstuck fuel, Option.bind_none]

/-- Two libraries that need each other. -/
def cyclicSurroundings : Surroundings where
  cfg := { configDirWithSlashes := "config/".toList, uidArray := [], gidArray := [] }
  readelf file :=
    if file = "opt/lib/a.so".toList then some ⟨some "a.so".toList, none, ["b.so".toList]⟩
    else if file = "opt/lib/b.so".toList then some ⟨some "b.so".toList, none, ["a.so".toList]⟩
    else none
  readdir _ := []
  readdir_name _ _ h := nomatch h

/-- The entry of a file under `opt`. -/
def sampleEntry (name : String) (ziptgt : ZipTgt) : Entry :=
  { entryType := .file
    filename := "opt/".toList ++ name.toList
    target := name.toList
    zipsrc := .opt
    ziptgt
    attributes := { mode := 0o555, uid := 0, gid := 0, u := .file .none } }

/-- The libraries need each other in a cycle, and the resolution does not end. -/
theorem resolveLibraryDependencies_cycle :
    ¬ ∃ fuel, (resolveLibraryDependencies cyclicSurroundings fuel
      [sampleEntry "lib/a.so" .opt, sampleEntry "lib/b.so" .opt]).isSome := by
  let W := libWalker cyclicSurroundings 0
  let st := initLibState cyclicSurroundings
    [sampleEntry "lib/a.so" .opt, sampleEntry "lib/b.so" .opt]
  let st₁ := (W.follow st 0 ("b.so".toList, 0) true).1
  let st₂ := (W.follow st₁ 1 ("a.so".toList, 0) true).1
  -- the first library leads to the second one, and that one back to the first
  have hdown : W.Next (W.enter st [] 0) (W.enter st₁ [0] 1) := by
    have hkeys : W.keys st 0 = [("b.so".toList, 0)] := by decide
    have hfollow : W.follow st 0 ("b.so".toList, 0) true = (st₁, some 1) := Prod.ext rfl (by decide)
    rw [Walker.enter, hkeys]
    exact .descend hfollow
  have hback : W.Next (W.enter st₁ [0] 1) (W.enter st₂ [1, 0] 0) := by
    have hkeys : W.keys st₁ 1 = [("a.so".toList, 0)] := by decide
    have hfollow : W.follow st₁ 1 ("a.so".toList, 0) true = (st₂, some 0) := Prod.ext rfl (by decide)
    rw [Walker.enter, hkeys]
    exact .descend hfollow
  have hvisits : W.Visits st 0 (W.enter st₂ [1, 0] 0) := (Relation.ReflTransGen.single hdown).tail hback
  have hroot : 0 < st.files.length := by decide
  have hstuck : ∀ fuel, resolveDependencies cyclicSurroundings 0 fuel st [] 0 = none := by
    intro fuel
    by_contra hne
    have hnodup := (resolveDependencies_ends_iff (LoopInv.init _ _).valid hroot).mp
      ⟨fuel, Option.isSome_iff_ne_none.mpr hne⟩ _ hvisits
    have hrepeats : ¬ [0, 1, 0].Nodup := by decide
    exact hrepeats hnodup
  rintro ⟨fuel, hfuel⟩
  unfold resolveLibraryDependencies at hfuel
  rw [resolveLoop_eq_none hroot (by decide) hstuck] at hfuel
  exact nomatch hfuel

end Loop

end Ziplist
end Mkfli4l
