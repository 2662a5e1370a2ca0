import Mathlib.Data.List.AList
import Mathlib.Data.List.Perm.Subperm
import Mkfli4l.Lib.CNumber

/-!
# Services and dependencies

Check scripts say which services a package provides, and on which services it depends.  All
statements are collected while the scripts run, and the dependencies are resolved at the end.

The collection forgets something: of several versions that a package provides, only the first one is
kept, and the versions that a package demands for one service in several statements become a single
list of alternatives.  The last theorem tells when that makes no difference.
-/

namespace Mkfli4l
namespace Script

open Lib

/-- The key of a hash map whose names are compared without regard to case. -/
def ciKey (name : CString) : CString := name.map Char.toLower

def convertToUpper (s : CString) : CString := s.map Char.toUpper

/-- `struct service_t`; the name is the key. -/
structure Service where
  version : CString
  provider : CString
deriving DecidableEq

/-- The array of `struct dependency_t` of a package: the versions demanded for each service.  The
names of the services are compared with `strcmp`. -/
abbrev Deps := AList fun _ : CString => List CString

/-- `service_map`, `depender_map` and `exec_failed`. -/
structure Services where
  services : AList fun _ : CString => Service
  dependers : AList fun _ : CString => Deps
  failed : Bool

/-- The maps before the scripts are run. -/
def Services.init : Services := ⟨∅, ∅, false⟩

def addProvider (provider name version : CString) (s : Services) : Bool × Services :=
  match s.services.lookup (ciKey name) with
  | some service => (service.provider = provider, s)
  | none => (true, { s with services := s.services.insert (ciKey name) ⟨version, provider⟩ })

def addDependency (package name : CString) (version : Option CString) (s : Services) : Services :=
  let deps := (s.dependers.lookup (ciKey package)).getD ∅
  let versions := (deps.lookup name).getD []
  { s with dependers :=
      s.dependers.insert (ciKey package) (deps.insert name (versions ++ version.toList)) }

/-- The statements `provides` and `depends`, with the package whose script they stand in.  A
statement `depends` without versions has an empty list. -/
inductive Statement
  | provides (package id version : CString)
  | depends (package id : CString) (versions : List CString)
deriving DecidableEq

def parseProvides (id version package : CString) (s : Services) : Services :=
  let added := addProvider (convertToUpper package) id version s
  if added.1 then added.2 else { added.2 with failed := true }

def parseDepends (id : CString) (versions : List CString) (package : CString) (s : Services) :
    Services :=
  match versions with
  | [] => addDependency (convertToUpper package) id none s
  | _ :: _ => versions.foldl
      (fun s value => addDependency (convertToUpper package) id (some value) s) s

/-- Runs one statement. -/
def Statement.exec (s : Services) : Statement → Services
  | .provides package id version => parseProvides id version package s
  | .depends package id versions => parseDepends id versions package s

/-- A demanded version is the version of the service, or a part of it that ends at a dot. -/
def versionMatches (ver version : CString) : Bool :=
  ver.isPrefixOf version && ((version.drop ver.length).head?.all fun c => c == '.')

/-- The body of the loop in `check_depender`. -/
def checkDependency (s : Services) (name : CString) (versions : List CString) : Bool :=
  match s.services.lookup (ciKey name) with
  | none => false
  | some service => versions.isEmpty || versions.any fun ver => versionMatches ver service.version

def checkDepender (s : Services) (deps : Deps) : Bool :=
  deps.entries.all fun dep => checkDependency s dep.1 dep.2

/-- The maps after some statements. -/
def collect (sts : List Statement) : Services := sts.foldl Statement.exec Services.init

/-- `execute_all_extended_checks`, for the statements that the scripts run. -/
def executeAllExtendedChecks (sts : List Statement) : Bool :=
  let s := collect sts
  !s.failed && s.dependers.entries.all fun depender => checkDepender s depender.2

/-! ## The statements on their own -/

/-- Some package provides a version of the service. -/
def Provided (sts : List Statement) (name version : CString) : Prop :=
  ∃ package id, .provides package id version ∈ sts ∧ ciKey id = ciKey name

/-- One of the versions matches. -/
def Accepts (versions : List CString) (version : CString) : Prop :=
  ∃ ver ∈ versions, versionMatches ver version = true

/-- A statement, taken on its own, is satisfied. -/
def Statement.Satisfied (sts : List Statement) : Statement → Prop
  | .provides .. => True
  | .depends _ id versions =>
      ∃ version, Provided sts id version ∧ (versions = [] ∨ Accepts versions version)

/-- The statements agree: those of one package which demand versions of one service accept the same
ones of the versions provided, and each statement accepts all versions provided or none. -/
structure Agreeing (sts : List Statement) : Prop where
  sameDemands : ∀ package package' id versions versions' version,
    .depends package id versions ∈ sts → .depends package' id versions' ∈ sts →
    ciKey (convertToUpper package) = ciKey (convertToUpper package') →
    versions ≠ [] → versions' ≠ [] → Provided sts id version →
    Accepts versions version → Accepts versions' version
  sameProvisions : ∀ package id versions version version', .depends package id versions ∈ sts →
    Provided sts id version → Provided sts id version' →
    Accepts versions version → Accepts versions version'

/-! ## What has been collected -/

/-- The service that a statement offers under a key. -/
def Statement.offer (key : CString) : Statement → Option Service
  | .provides package id version =>
      if ciKey id = key then some ⟨version, convertToUpper package⟩ else none
  | .depends .. => none

/-- The versions that a statement of a package demands for a service. -/
def Statement.demand (package id : CString) : Statement → Option (List CString)
  | .provides .. => none
  | .depends package' id' versions =>
      if ciKey (convertToUpper package') = package ∧ id' = id then some versions else none

/-- What all statements of a package demand for a service. -/
def demands (sts : List Statement) (package id : CString) : List (List CString) :=
  sts.filterMap (Statement.demand package id)

/-- The versions that have been collected for a package and a service. -/
def Services.demanded (s : Services) (package id : CString) : Option (List CString) :=
  (s.dependers.lookup package).bind fun deps => deps.lookup id

section Collect

variable {s : Services} {sts : List Statement} {st : Statement} {key package id name : CString}

theorem collect_append : collect (sts ++ [st]) = st.exec (collect sts) := by
  simp [collect]

theorem demanded_addDependency {version : Option CString} :
    (addDependency package name version s).demanded key id =
      if ciKey package = key ∧ name = id then
        some ((s.demanded key id).getD [] ++ version.toList)
      else
        s.demanded key id := by
  unfold Services.demanded addDependency
  by_cases hkey : ciKey package = key
  · subst hkey
    simp only [AList.lookup_insert, Option.bind_some, true_and]
    by_cases hname : name = id
    · subst hname
      rw [if_pos rfl, AList.lookup_insert]
      cases s.dependers.lookup (ciKey package) with
      | none => rfl
      | some deps => rfl
    · rw [if_neg hname, AList.lookup_insert_ne (Ne.symm hname)]
      cases s.dependers.lookup (ciKey package) with
      | none => simp
      | some deps => simp
  · simp only [AList.lookup_insert_ne (Ne.symm hkey), hkey, false_and, if_false]

theorem parseDepends_services (versions : List CString) :
    (parseDepends id versions package s).services = s.services ∧
      (parseDepends id versions package s).failed = s.failed := by
  have hloop : ∀ (versions : List CString) (s : Services),
      (versions.foldl (fun s value => addDependency (convertToUpper package) id (some value) s)
        s).services = s.services ∧
      (versions.foldl (fun s value => addDependency (convertToUpper package) id (some value) s)
        s).failed = s.failed := by
    intro versions
    induction versions with
    | nil => exact fun s => ⟨rfl, rfl⟩
    | cons value versions ih => exact fun s => ih _
  cases versions with
  | nil => exact ⟨rfl, rfl⟩
  | cons value versions => exact hloop (value :: versions) s

theorem demanded_parseDepends (versions : List CString) :
    (parseDepends name versions package s).demanded key id =
      if ciKey (convertToUpper package) = key ∧ name = id then
        some ((s.demanded key id).getD [] ++ versions)
      else
        s.demanded key id := by
  have hloop : ∀ (value : CString) (versions : List CString) (s : Services),
      ((value :: versions).foldl
          (fun s value => addDependency (convertToUpper package) name (some value) s) s).demanded
          key id =
        if ciKey (convertToUpper package) = key ∧ name = id then
          some ((s.demanded key id).getD [] ++ value :: versions)
        else
          s.demanded key id := by
    intro value versions
    induction versions generalizing value with
    | nil =>
        intro s
        rw [List.foldl_cons, List.foldl_nil, demanded_addDependency]
        rfl
    | cons value' versions ih =>
        intro s
        rw [List.foldl_cons, ih, demanded_addDependency]
        by_cases hsame : ciKey (convertToUpper package) = key ∧ name = id
        · simp only [if_pos hsame, Option.getD_some, Option.toList_some, List.append_assoc,
            List.singleton_append]
        · simp only [if_neg hsame]
  cases versions with
  | nil =>
      rw [parseDepends, demanded_addDependency]
      rfl
  | cons value versions => exact hloop value versions s

theorem demanded_parseProvides {version : CString} :
    (parseProvides name version package s).demanded key id = s.demanded key id := by
  unfold parseProvides addProvider
  cases s.services.lookup (ciKey name) with
  | none => rfl
  | some service =>
      dsimp only
      split <;> rfl

theorem lookup_parseProvides {version : CString} :
    (parseProvides name version package s).services.lookup key =
      (s.services.lookup key).or (Statement.offer key (.provides package name version)) := by
  cases hfound : s.services.lookup (ciKey name) with
  | none =>
      simp only [parseProvides, addProvider, hfound, if_true, Statement.offer]
      by_cases hkey : ciKey name = key
      · subst hkey
        rw [AList.lookup_insert, hfound, if_pos rfl, Option.none_or]
      · rw [AList.lookup_insert_ne (Ne.symm hkey), if_neg hkey, Option.or_none]
  | some service =>
      have hsame : (parseProvides name version package s).services = s.services := by
        simp only [parseProvides, addProvider, hfound]
        split <;> rfl
      rw [hsame, Statement.offer]
      by_cases hkey : ciKey name = key
      · subst hkey
        rw [hfound, Option.some_or]
      · rw [if_neg hkey, Option.or_none]

theorem failed_parseProvides {version : CString} :
    (parseProvides name version package s).failed = (s.failed ||
      (s.services.lookup (ciKey name)).any fun service =>
        service.provider ≠ convertToUpper package) := by
  cases hfound : s.services.lookup (ciKey name) with
  | none => simp [parseProvides, addProvider, hfound]
  | some service =>
      by_cases hsame : service.provider = convertToUpper package
      · simp [parseProvides, addProvider, hfound, hsame]
      · simp [parseProvides, addProvider, hfound, hsame]

theorem demands_append :
    demands (sts ++ [st]) key id = demands sts key id ++ (st.demand key id).toList := by
  rw [demands, List.filterMap_append, ← demands]
  cases hdemand : st.demand key id with
  | none => simp [hdemand]
  | some versions => simp [hdemand]

theorem demanded_collect :
    (collect sts).demanded key id =
      if demands sts key id = [] then none else some (demands sts key id).flatten := by
  induction sts using List.reverseRecOn with
  | nil => rfl
  | append_singleton sts st ih =>
      rw [collect_append, demands_append]
      cases st with
      | provides package' id' version =>
          rw [Statement.exec, demanded_parseProvides, ih, Statement.demand, Option.toList_none,
            List.append_nil]
      | depends package' id' versions =>
          rw [Statement.exec, demanded_parseDepends, ih, Statement.demand]
          by_cases hsame : ciKey (convertToUpper package') = key ∧ id' = id
          · rw [if_pos hsame, if_pos hsame, Option.toList_some, List.flatten_append]
            by_cases hnone : demands sts key id = []
            · simp [hnone]
            · simp [hnone]
          · rw [if_neg hsame, if_neg hsame, Option.toList_none, List.append_nil]

theorem lookup_collect :
    (collect sts).services.lookup key = sts.findSome? (Statement.offer key) := by
  induction sts using List.reverseRecOn with
  | nil => rfl
  | append_singleton sts st ih =>
      rw [collect_append, List.findSome?_append, ← ih]
      cases st with
      | depends package' id' versions =>
          rw [Statement.exec, (parseDepends_services versions).1]
          simp [Statement.offer]
      | provides package' id' version =>
          rw [Statement.exec, lookup_parseProvides]
          simp

end Collect

/-- No service is provided by two packages. -/
def NoConflict (sts : List Statement) : Prop :=
  ∀ package id version package' id' version', .provides package id version ∈ sts →
    .provides package' id' version' ∈ sts → ciKey id = ciKey id' →
    convertToUpper package = convertToUpper package'

section Verdict

variable {sts sts' : List Statement} {key id version : CString} {service : Service}

theorem NoConflict.of_subset (h : NoConflict sts) (hsub : sts' ⊆ sts) : NoConflict sts' :=
  fun package id version package' id' version' hst hst' hid =>
    h package id version package' id' version' (hsub hst) (hsub hst') hid

theorem offer_found (h : sts.findSome? (Statement.offer key) = some service) :
    ∃ package id, .provides package id service.version ∈ sts ∧ ciKey id = key ∧
      convertToUpper package = service.provider := by
  obtain ⟨st, hst, hoffer⟩ := List.exists_of_findSome?_eq_some h
  cases st with
  | depends package id versions => exact nomatch hoffer
  | provides package id version =>
      rw [Statement.offer] at hoffer
      split at hoffer
      · next hkey =>
          obtain rfl := Option.some.inj hoffer
          exact ⟨package, id, hst, hkey, rfl⟩
      · exact nomatch hoffer

theorem offer_isSome {package : CString} (h : .provides package id version ∈ sts) :
    ∃ service, sts.findSome? (Statement.offer (ciKey id)) = some service := by
  refine Option.isSome_iff_exists.mp (List.findSome?_isSome_iff.mpr ⟨_, h, ?_⟩)
  simp [Statement.offer]

theorem failed_collect : (collect sts).failed = false ↔ NoConflict sts := by
  induction sts using List.reverseRecOn with
  | nil => exact ⟨(fun _ _ _ _ _ _ _ h => nomatch h), fun _ => rfl⟩
  | append_singleton sts st ih =>
      rw [collect_append]
      cases st with
      | depends package id versions =>
          rw [Statement.exec, (parseDepends_services versions).2, ih]
          constructor
          · intro h p i v p' i' v' hst hst'
            exact h p i v p' i' v' (by simpa using hst) (by simpa using hst')
          · exact fun h => h.of_subset (List.subset_append_left _ _)
      | provides package id version =>
          rw [Statement.exec, failed_parseProvides, Bool.or_eq_false_iff, ih, lookup_collect]
          constructor
          · rintro ⟨h, hfirst⟩
            -- the provider of the first statement is the provider of all others
            have hnew : ∀ p i v, .provides p i v ∈ sts → ciKey i = ciKey id →
                convertToUpper p = convertToUpper package := by
              intro p i v hst hid
              obtain ⟨service, hservice⟩ := offer_isSome hst
              obtain ⟨p', i', hst', hid', hprovider⟩ := offer_found hservice
              rw [hid] at hservice
              have hsame : service.provider = convertToUpper package := by
                simpa [hservice] using hfirst
              rw [h p i v p' i' service.version hst hst' hid'.symm, hprovider, hsame]
            intro p i v p' i' v' hst hst' hid
            rcases List.mem_append.mp hst with hold | hlast
            · rcases List.mem_append.mp hst' with hold' | hlast'
              · exact h p i v p' i' v' hold hold' hid
              · obtain ⟨rfl, rfl, rfl⟩ : p' = package ∧ i' = id ∧ v' = version := by
                  simpa using hlast'
                exact hnew p i v hold hid
            · obtain ⟨rfl, rfl, rfl⟩ : p = package ∧ i = id ∧ v = version := by simpa using hlast
              rcases List.mem_append.mp hst' with hold' | hlast'
              · exact (hnew p' i' v' hold' hid.symm).symm
              · obtain ⟨rfl, -, -⟩ : p' = p ∧ i' = i ∧ v' = v := by simpa using hlast'
                rfl
          · intro h
            refine ⟨h.of_subset (List.subset_append_left _ _), ?_⟩
            cases hfirst : sts.findSome? (Statement.offer (ciKey id)) with
            | none => rfl
            | some service =>
                obtain ⟨p, i, hst, hid, hprovider⟩ := offer_found hfirst
                have hsame := h p i service.version package id version
                  (List.mem_append_left _ hst) (by simp) hid
                simpa [← hprovider] using hsame

theorem executeAllExtendedChecks_iff :
    executeAllExtendedChecks sts = true ↔ NoConflict sts ∧
      ∀ key id versions, (collect sts).demanded key id = some versions →
        checkDependency (collect sts) id versions = true := by
  unfold executeAllExtendedChecks
  simp only [Bool.and_eq_true, Bool.not_eq_true', failed_collect, List.all_eq_true, checkDepender]
  refine and_congr_right fun _ => ⟨fun h key id versions hdemanded => ?_, fun h => ?_⟩
  · obtain ⟨deps, hdeps, hversions⟩ := Option.bind_eq_some_iff.mp hdemanded
    exact h ⟨key, deps⟩ (AList.mem_lookup_iff.mp hdeps) ⟨id, versions⟩ (AList.mem_lookup_iff.mp hversions)
  · rintro ⟨key, deps⟩ hdeps ⟨id, versions⟩ hversions
    refine h key id versions (Option.bind_eq_some_iff.mpr ⟨deps, ?_, ?_⟩)
    · exact AList.mem_lookup_iff.mpr hdeps
    · exact AList.mem_lookup_iff.mpr hversions

theorem mem_demands {key id : CString} {versions : List CString} :
    versions ∈ demands sts key id ↔
      ∃ package, .depends package id versions ∈ sts ∧ ciKey (convertToUpper package) = key := by
  unfold demands
  rw [List.mem_filterMap]
  constructor
  · rintro ⟨st, hst, hdemand⟩
    cases st with
    | provides package id' version => exact nomatch hdemand
    | depends package id' versions' =>
        rw [Statement.demand] at hdemand
        split at hdemand
        · next hsame =>
            obtain rfl := Option.some.inj hdemand
            obtain ⟨hkey, rfl⟩ := hsame
            exact ⟨package, hst, hkey⟩
        · exact nomatch hdemand
  · rintro ⟨package, hst, hkey⟩
    exact ⟨_, hst, by rw [Statement.demand, if_pos ⟨hkey, rfl⟩]⟩

/-- What the code demands for the dependencies on one service: the first version provided is
compared with the versions of all statements of the package. -/
def Resolved (sts : List Statement) (key id : CString) : Prop :=
  ∃ service, sts.findSome? (Statement.offer (ciKey id)) = some service ∧
    ((∀ versions ∈ demands sts key id, versions = []) ∨
      ∃ versions ∈ demands sts key id, Accepts versions service.version)

theorem checkDependency_collect :
    checkDependency (collect sts) id (demands sts key id).flatten = true ↔ Resolved sts key id := by
  unfold checkDependency Resolved
  rw [lookup_collect]
  cases sts.findSome? (Statement.offer (ciKey id)) with
  | none => simp
  | some service =>
      simp [Accepts]

theorem accepted_iff (h : NoConflict sts) :
    executeAllExtendedChecks sts = true ↔
      ∀ package id versions, .depends package id versions ∈ sts →
        Resolved sts (ciKey (convertToUpper package)) id := by
  rw [executeAllExtendedChecks_iff]
  constructor
  · rintro ⟨-, hcheck⟩ package id versions hst
    have hmem : versions ∈ demands sts (ciKey (convertToUpper package)) id :=
      mem_demands.mpr ⟨package, hst, rfl⟩
    refine checkDependency_collect.mp (hcheck (ciKey (convertToUpper package)) id _ ?_)
    rw [demanded_collect, if_neg (List.ne_nil_of_mem hmem)]
  · refine fun hresolved => ⟨h, fun key id versions hdemanded => ?_⟩
    rw [demanded_collect] at hdemanded
    split at hdemanded
    · exact nomatch hdemanded
    · next hsome =>
        obtain ⟨vs, hvs⟩ := List.exists_mem_of_ne_nil _ hsome
        obtain ⟨package, hst, rfl⟩ := mem_demands.mp hvs
        obtain rfl := Option.some.inj hdemanded
        exact checkDependency_collect.mpr (hresolved package id vs hst)

theorem Provided.of_subset {name : CString} (h : Provided sts' name version) (hsub : sts' ⊆ sts) :
    Provided sts name version := by
  obtain ⟨package, id, hst, hid⟩ := h
  exact ⟨package, id, hsub hst, hid⟩

theorem Agreeing.of_subset (h : Agreeing sts) (hsub : sts' ⊆ sts) : Agreeing sts' where
  sameDemands := fun package package' id versions versions' version hst hst' hkey hne hne' hprov =>
    h.sameDemands package package' id versions versions' version (hsub hst) (hsub hst') hkey hne hne'
      (hprov.of_subset hsub)
  sameProvisions := fun package id versions version version' hst hprov hprov' =>
    h.sameProvisions package id versions version version' (hsub hst) (hprov.of_subset hsub)
      (hprov'.of_subset hsub)

theorem Accepts.ne_nil {versions : List CString} (h : Accepts versions version) : versions ≠ [] := by
  obtain ⟨ver, hver, -⟩ := h
  exact List.ne_nil_of_mem hver

theorem provided_of_offer {name : CString}
    (h : sts.findSome? (Statement.offer (ciKey name)) = some service) :
    Provided sts name service.version := by
  obtain ⟨package, id, hst, hid, -⟩ := offer_found h
  exact ⟨package, id, hst, hid⟩

theorem Agreeing.accepted_iff_satisfied (h : Agreeing sts) (hok : NoConflict sts) :
    executeAllExtendedChecks sts = true ↔ ∀ st ∈ sts, st.Satisfied sts := by
  rw [accepted_iff hok]
  constructor
  · intro hresolved st hst
    cases st with
    | provides package id version => trivial
    | depends package id versions =>
        obtain ⟨service, hservice, hversions⟩ := hresolved package id versions hst
        have hprov := provided_of_offer hservice
        refine ⟨service.version, hprov, ?_⟩
        rcases hversions with hnone | ⟨versions', hdemand, haccepts⟩
        · exact .inl (hnone versions (mem_demands.mpr ⟨package, hst, rfl⟩))
        · by_cases hne : versions = []
          · exact .inl hne
          · obtain ⟨package', hst', hkey⟩ := mem_demands.mp hdemand
            exact .inr (h.sameDemands package' package id versions' versions service.version hst' hst hkey
              haccepts.ne_nil hne hprov haccepts)
  · intro hsatisfied package id versions hst
    obtain ⟨version, ⟨provider, id', hprov, hid⟩, -⟩ := hsatisfied _ hst
    obtain ⟨service, hservice⟩ := offer_isSome hprov
    rw [hid] at hservice
    refine ⟨service, hservice, ?_⟩
    by_cases hnone : ∀ vs ∈ demands sts (ciKey (convertToUpper package)) id, vs = []
    · exact .inl hnone
    · push Not at hnone
      obtain ⟨versions', hdemand, hne⟩ := hnone
      obtain ⟨package', hst', -⟩ := mem_demands.mp hdemand
      obtain ⟨version', hprov', haccepts⟩ := hsatisfied _ hst'
      refine .inr ⟨versions', hdemand, ?_⟩
      exact h.sameProvisions package' id versions' version' service.version hst' hprov'
        (provided_of_offer hservice) (haccepts.resolve_left hne)

theorem mixedDemands {provider i package package' : CString} {versions versions' : List CString}
    (hid : ciKey i = ciKey id)
    (hkey : ciKey (convertToUpper package) = ciKey (convertToUpper package'))
    (haccepts : Accepts versions version) :
    executeAllExtendedChecks [.provides provider i version, .depends package id versions,
      .depends package' id versions'] = true := by
  have hok : NoConflict [.provides provider i version, .depends package id versions,
      .depends package' id versions'] := by
    intro p j v p' j' v' hst hst' _
    have hp : p = provider ∧ j = i ∧ v = version := by simpa using hst
    have hp' : p' = provider ∧ j' = i ∧ v' = version := by simpa using hst'
    rw [hp.1, hp'.1]
  refine (accepted_iff hok).mpr fun p j vs hst => ?_
  have hdepends : j = id ∧ ciKey (convertToUpper package) = ciKey (convertToUpper p) := by
    rcases (by simpa using hst : (p = package ∧ j = id ∧ vs = versions) ∨
        p = package' ∧ j = id ∧ vs = versions') with ⟨rfl, hj, -⟩ | ⟨rfl, hj, -⟩
    · exact ⟨hj, rfl⟩
    · exact ⟨hj, hkey⟩
  obtain ⟨rfl, hp⟩ := hdepends
  refine ⟨⟨version, convertToUpper provider⟩, by simp [Statement.offer, hid], .inr ⟨versions, ?_,
    haccepts⟩⟩
  exact mem_demands.mpr ⟨package, by simp, hp⟩

theorem lateProvision {provider i provider' i' package version' : CString}
    {versions : List CString} (hid : ciKey i' = ciKey id)
    (hok : NoConflict [.provides provider' i' version', .provides provider i version,
      .depends package id versions])
    (haccepts : executeAllExtendedChecks [.provides provider' i' version',
      .provides provider i version, .depends package id versions] = true) (hne : versions ≠ []) :
    Accepts versions version' := by
  obtain ⟨service, hservice, hversions⟩ :=
    (accepted_iff hok).mp haccepts package id versions (by simp)
  obtain rfl : ⟨version', convertToUpper provider'⟩ = service := by
    simpa [Statement.offer, hid] using hservice
  have honly : demands [.provides provider' i' version', .provides provider i version,
      .depends package id versions] (ciKey (convertToUpper package)) id = [versions] := by
    simp [demands, Statement.demand, List.filterMap_cons]
  rw [honly] at hversions
  simpa [hne] using hversions

end Verdict

/-- The statements agree if and only if every run of some of them, in any order, is accepted exactly
if each of its statements is satisfied on its own. -/
theorem executeAllExtendedChecks_satisfied_iff {sts : List Statement}
    (hok : (collect sts).failed = false) :
    Agreeing sts ↔ ∀ sts' : List Statement, sts'.Subperm sts →
      (executeAllExtendedChecks sts' = true ↔ ∀ st ∈ sts', st.Satisfied sts') := by
  have hok := failed_collect.mp hok
  constructor
  · intro h sts' hsub
    exact (h.of_subset hsub.subset).accepted_iff_satisfied (hok.of_subset hsub.subset)
  · intro h
    constructor
    · intro package package' id versions versions' version hst hst' hkey hne hne' hprov haccepts
      obtain ⟨provider, i, hst₀, hid⟩ := hprov
      by_contra hnot
      have hdistinct : versions ≠ versions' := fun heq => hnot (heq ▸ haccepts)
      have hsub : [.provides provider i version, .depends package id versions,
          .depends package' id versions'].Subperm sts := by
        refine List.subperm_of_subset (by simp [hdistinct]) ?_
        simp [hst₀, hst, hst']
      have hsatisfied := (h _ hsub).mp (mixedDemands hid hkey haccepts)
        (.depends package' id versions') (by simp)
      obtain ⟨version', ⟨p, j, hst₁, -⟩, hversions⟩ := hsatisfied
      obtain ⟨-, -, rfl⟩ : p = provider ∧ j = i ∧ version' = version := by simpa using hst₁
      exact hnot (hversions.resolve_left hne')
    · intro package id versions version version' hst hprov hprov' haccepts
      obtain ⟨provider, i, hst₁, hid⟩ := hprov
      obtain ⟨provider', i', hst₂, hid'⟩ := hprov'
      by_contra hnot
      have hdistinct : version' ≠ version := fun heq => hnot (heq ▸ haccepts)
      have hsub : [.provides provider' i' version', .provides provider i version,
          .depends package id versions].Subperm sts := by
        refine List.subperm_of_subset (by simp [hdistinct]) ?_
        simp [hst₁, hst₂, hst]
      refine hnot (lateProvision hid' (hok.of_subset hsub.subset) ((h _ hsub).mpr ?_)
        haccepts.ne_nil)
      intro st hmem
      rcases (by simpa using hmem : st = .provides provider' i' version' ∨
          st = .provides provider i version ∨ st = .depends package id versions) with rfl | rfl | rfl
      · trivial
      · trivial
      · exact ⟨version, ⟨provider, i, by simp, hid⟩, .inr haccepts⟩

/-- A client with one demand. -/
theorem executeAllExtendedChecks_satisfied_sample :
    let sts : List Statement := [.depends "client".toList "server".toList ["1.0".toList],
      .provides "server".toList "SERVER".toList "1.0.1".toList]
    Agreeing sts ∧ ∀ sts' : List Statement, sts'.Subperm sts →
      (executeAllExtendedChecks sts' = true ↔ ∀ st ∈ sts', st.Satisfied sts') := by
  intro sts
  have hagree : Agreeing sts := by
    constructor
    · intro package package' id versions versions' version hst hst' _ _ _ _ haccepts
      have hone : ∀ vs p, .depends p id vs ∈ sts → vs = ["1.0".toList] := by
        intro vs p hmem
        simp only [sts, List.mem_cons, Statement.depends.injEq, List.not_mem_nil, reduceCtorEq,
          or_false] at hmem
        exact hmem.2.2
      rw [hone versions' package' hst', ← hone versions package hst]
      exact haccepts
    · rintro package id versions version version' - ⟨p, i, hst, -⟩ ⟨p', i', hst', -⟩ haccepts
      have hone : ∀ v p i, .provides p i v ∈ sts → v = "1.0.1".toList := by
        intro v p i hmem
        simp only [sts, List.mem_cons, Statement.provides.injEq, List.not_mem_nil, reduceCtorEq,
          false_or, or_false] at hmem
        exact hmem.2.2
      rw [hone version' p' i' hst', ← hone version p i hst]
      exact haccepts
  exact ⟨hagree, (executeAllExtendedChecks_satisfied_iff (by decide)).mp hagree⟩

/-- A client that demands two versions in two statements is content with one of them. -/
theorem executeAllExtendedChecks_merged :
    ¬ ∀ sts : List Statement, (collect sts).failed = false →
      (executeAllExtendedChecks sts = true ↔ ∀ st ∈ sts, st.Satisfied sts) := by
  intro h
  have haccepted := (h [.provides "server".toList "server".toList "1.0.1".toList,
    .depends "client".toList "server".toList ["1.0".toList],
    .depends "client".toList "server".toList ["1.1".toList]] (by decide)).mp (by decide)
    (.depends "client".toList "server".toList ["1.1".toList]) (by decide)
  obtain ⟨version, ⟨package, id, hst, -⟩, hversions⟩ := haccepted
  have hversion : version = "1.0.1".toList := by
    simp only [List.mem_cons, Statement.provides.injEq, List.not_mem_nil, reduceCtorEq,
      or_false] at hst
    exact hst.2.2
  rw [hversion] at hversions
  rcases hversions with hnil | ⟨ver, hver, hmatches⟩
  · exact nomatch hnil
  · rw [List.mem_singleton.mp hver] at hmatches
    exact absurd hmatches (by decide)

end Script
end Mkfli4l
