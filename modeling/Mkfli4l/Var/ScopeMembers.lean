import Mkfli4l.Lib.Loops
import Mkfli4l.Container.Reentrant

/-!
# The members of a scope and their destruction

A scope keeps its variables and variable templates in a hash map.  A template knows its instances,
and an instance its template: a variable that is destroyed takes itself off the list of its
template, and a template that is destroyed removes its instances from the scope.  So the destructor
of an entry of the map calls `hashmap_remove()` for the same map, also while `hashmap_destroy()` is
going through it.  `hashmap_destroy()` does not clear the places of the members it has destroyed, and
a search in their bucket still compares with their names.

The model keeps the members that have been destroyed, and reports an access to one of them as an
error.
-/

namespace Mkfli4l
namespace Scope

open Lib Function

/-- `kind` of `struct var_scope_member_t`, with the `template` of `struct var_t`, which is given by
its identity. -/
inductive MemberKind where
  | var (template : Option Nat)
  | template
deriving DecidableEq, Repr

/-- `struct var_scope_member_t`; `id` stands for the object itself. -/
structure Member where
  id : Nat
  name : CString
  kind : MemberKind
deriving DecidableEq, Repr

theorem scopeBuckets_ne_zero : 1024 ≠ 0 := by decide

/-- The map which `var_scope_create()` makes. -/
def scopeParams : MapParams CString Member :=
  ciStringParams Member.name true 1024 scopeBuckets_ne_zero

/-- The members of a scope, the instances of each template, the members that have been destroyed, and
the identity of the next member. -/
structure Members where
  members : Hashmap scopeParams
  instances : Nat → List Member
  freed : List Member
  next : Nat

def varScopeCreate : Members :=
  { members := hashmapCreate scopeParams, instances := fun _ => [], freed := [], next := 0 }

/-- The entries whose keys `hashmap_search_bucket()` reads. -/
def comparedEntries {K E : Type} (P : MapParams K E) (key : K) : List (Option E) → List E
  | [] => []
  | none :: rest => comparedEntries P key rest
  | some entry :: rest =>
      if P.cmp key (P.keyOf entry) then [entry] else entry :: comparedEntries P key rest

/-- A search for this name reads the name of a member that has been destroyed. -/
def Members.readsFreed (s : Members) (name : CString) : Bool :=
  let bucket := s.members (bucketIndex scopeParams name)
  (comparedEntries scopeParams name (bucket.entries.take bucket.numAllocEntries)).any
    fun member => decide (member ∈ s.freed)

/-! ### Destructors -/

def varTemplateUnregisterInstance (s : Members) (template : Nat) (inst : Member) :
    Members :=
  { s with
    instances := update s.instances template ((s.instances template).erase inst) }

/-- `var_destroy()`, an error if the template of the variable has been destroyed before it. -/
def varDestroy (s : Members) (var : Member) : Option Nat → Option Members
  | none => some { s with freed := s.freed ++ [var] }
  | some template =>
      if s.freed.any fun member => decide (member.id = template) then none
      else
        let s := varTemplateUnregisterInstance s template var
        some { s with freed := s.freed ++ [var] }

/-- `var_template_invalidate_instances()` with at most `rounds` rounds of its loop; `remove` is
`var_scope_remove_member()`. -/
def varTemplateInvalidateInstances (remove : Members → CString → Option Members)
    (template : Nat) : Nat → Members → Option Members
  | 0, _ => none
  | rounds + 1, s =>
      match s.instances template with
      | [] => some s
      | var :: _ =>
          (remove s var.name).bind (varTemplateInvalidateInstances remove template rounds)

/-- `var_scope_member_destroy_action()`, which calls `var_destroy()` or `var_template_destroy()`. -/
def varScopeMemberDestroyAction (remove : Members → CString → Option Members)
    (rounds : Nat) (s : Members) (member : Member) : Option Members :=
  match member.kind with
  | .var template => varDestroy s member template
  | .template =>
      (varTemplateInvalidateInstances remove member.id rounds s).map
        fun s => { s with freed := s.freed ++ [member] }

/-- `var_scope_remove_member()`: the place of the member is cleared before its destructor runs. -/
def varScopeRemoveMember : Nat → Members → CString → Option Members
  | 0, _, _ => none
  | fuel + 1, s, name =>
      if s.readsFreed name then none
      else
        match hashmapRemove scopeParams s.members name with
        | none => none
        | some (members, _, entries) =>
            entries.foldlM (varScopeMemberDestroyAction (varScopeRemoveMember fuel) fuel)
              { s with members }

/-- One round of the inner loop of `hashmap_destroy()`. -/
def destroyPlace (fuel : Nat) (i : Fin scopeParams.numBuckets) (s : Members) (j : Nat) :
    Option Members :=
  match (s.members i).entries[j]? with
  | none => none
  | some none => some s
  | some (some member) =>
      if member ∈ s.freed then none
      else varScopeMemberDestroyAction (varScopeRemoveMember fuel) fuel s member

/-- The inner loop of `hashmap_destroy()`; no destructor makes the bucket longer. -/
def destroyBucket (fuel : Nat) (s : Members) (i : Fin scopeParams.numBuckets) :
    Option Members :=
  (List.range (s.members i).numAllocEntries).foldlM (destroyPlace fuel i) s

/-- `hashmap_destroy()` for the members of a scope. -/
def hashmapDestroy (fuel : Nat) (s : Members) : Option Members :=
  (List.finRange scopeParams.numBuckets).foldlM (destroyBucket fuel) s

/-! ### What is done to a scope -/

/-- Something that is done to a scope: `var_add()`, `var_template_add()`, `var_scope_try_get()`, and
`var_remove()` or `var_template_remove()`. -/
inductive Op where
  | addVar (name : CString)
  | addTemplate (name : CString)
  | tryGet (name : CString)
  | remove (name : CString)
deriving DecidableEq, Repr

/-- `var_scope_try_get_member()` in the scope itself. -/
def varScopeTryGetMember (s : Members) (name : CString) : Option (Option Member) :=
  if s.readsFreed name then none else some (hashmapGet scopeParams s.members name)

/-- `hashmap_put()` for a new member of the scope. -/
def putMember (s : Members) (name : CString) (kind : MemberKind) : Option Members :=
  (hashmapPut scopeParams s.members ⟨s.next, name, kind⟩).map
    fun result => { s with members := result.1, next := s.next + 1 }

/-- `var_scope_add_member()`: a name that is taken is refused, and a variable with this name is
redefined at most. -/
def varScopeAddMember (s : Members) (name : CString) (kind : MemberKind) :
    Option Members :=
  (varScopeTryGetMember s name).bind fun
    | some _ => some s
    | none => putMember s name kind

/-- `var_template_instantiate()`: a variable in the scope of the template, which is registered with
the template. -/
def varTemplateInstantiate (s : Members) (template : Member) (name : CString) :
    Option Members :=
  (putMember s name (.var (some template.id))).map fun s' =>
    { s' with
      instances := update s'.instances template.id
        (s'.instances template.id ++ [⟨s.next, name, .var (some template.id)⟩]) }

/-- The visitor `var_template_try_deduce_instantiation()`, up to the instantiation. -/
def tryDeduceInstantiation (regexec : CString → CString → Bool) (name : CString)
    (member : Member) (found : Option Member) : Bool × Option Member :=
  if member.kind = .template ∧ regexec member.name name = true then (false, some member)
  else (true, found)

/-- `var_scope_try_get()`: a name that is not found is looked for among the templates, and the first
template that matches is instantiated. -/
def varScopeTryGet (regexec : CString → CString → Bool) (s : Members) (name : CString) :
    Option Members :=
  (varScopeTryGetMember s name).bind fun
    | some _ => some s
    | none =>
        match (hashmapForeach scopeParams s.members (tryDeduceInstantiation regexec name) none).2 with
        | none => some s
        | some template => varTemplateInstantiate s template name

/-- One thing done to a scope. -/
def scopeStep (regexec : CString → CString → Bool) (fuel : Nat) (s : Members) :
    Op → Option Members
  | .addVar name => varScopeAddMember s name (.var none)
  | .addTemplate name => varScopeAddMember s name .template
  | .tryGet name => varScopeTryGet regexec s name
  | .remove name => varScopeRemoveMember fuel s name

/-- The scopes that arise. -/
inductive Reaches (regexec : CString → CString → Bool) : Members → Prop
  | create : Reaches regexec varScopeCreate
  | step {s s' : Members} {fuel : Nat} {op : Op} (h : Reaches regexec s)
      (hstep : scopeStep regexec fuel s op = some s') : Reaches regexec s'

/-! ### What is promised about the destruction -/

/-- The member at a place of the map. -/
def MemberAt (map : Hashmap scopeParams) (i : Fin scopeParams.numBuckets) (j : Nat)
    (member : Member) : Prop :=
  (map i).entries[j]? = some (some member)

/-- One place comes before another one. -/
def Before (i : Fin scopeParams.numBuckets) (j : Nat) (i' : Fin scopeParams.numBuckets) (j' : Nat) :
    Prop :=
  i < i' ∨ i = i' ∧ j < j'

/-- The destruction ends without an access to a member that has been destroyed, and every member is
destroyed once. -/
def DestroysEachOnce (s : Members) : Prop :=
  ∃ fuel s' destroyed, hashmapDestroy fuel s = some s' ∧ s'.freed = s.freed ++ destroyed ∧
    destroyed.Perm (entriesOf s.members)

/-- The member at a place is an instance of a template that comes before it, which will remove it. -/
def RemovedByTemplate (map : Hashmap scopeParams) (i : Fin scopeParams.numBuckets) (j : Nat)
    (member : Member) : Prop :=
  ∃ i' j' template, MemberAt map i' j' template ∧ template.kind = .template ∧
    member.kind = .var (some template.id) ∧ Before i' j' i j

/-- In some bucket a template is followed by one of its instances, and a member that no template
removes comes before it. -/
def InstanceBehindDestroyed (map : Hashmap scopeParams) : Prop :=
  ∃ i j k l member template inst, MemberAt map i j member ∧ MemberAt map i k template ∧
    MemberAt map i l inst ∧ j < k ∧ k < l ∧ template.kind = .template ∧
    inst.kind = .var (some template.id) ∧ ¬ RemovedByTemplate map i j member

/-! ### Places and searches -/

theorem lawful_scopeParams : scopeParams.Lawful :=
  lawful_ciStringParams Member.name true 1024 scopeBuckets_ne_zero

/-- The map holds the members of some map from names to members. -/
def Sound (map : Hashmap scopeParams) : Prop := ∃ m, Represents lawful_scopeParams map m

section Places

variable {map map' : Hashmap scopeParams} {i i' : Fin scopeParams.numBuckets} {j j' k : Nat}
  {e x : Member} {name : CString}

theorem mem_entriesOf_iff : e ∈ entriesOf map ↔ ∃ i j, MemberAt map i j e :=
  ⟨exists_place, fun ⟨_, _, hat⟩ => mem_entriesOf_of_place hat⟩

theorem Sound.unique (hsound : Sound map) (hat : MemberAt map i j e) (hat' : MemberAt map i' j' e) :
    i = i' ∧ j = j' :=
  hsound.elim fun _ hrep => hrep.place_unique hat hat'

theorem Sound.alloc (hsound : Sound map) (i : Fin scopeParams.numBuckets) :
    (map i).numAllocEntries = (map i).entries.length :=
  hsound.elim fun _ hrep => (hrep.exact i).alloc

theorem Sound.eq_of_cmp (hsound : Sound map) (he : e ∈ entriesOf map) (hx : x ∈ entriesOf map)
    (hcmp : scopeParams.cmp x.name e.name = true) : e = x := by
  obtain ⟨m, hrep⟩ := hsound
  exact hrep.lists.eq_of_cls_eq he hx (keyClass_eq_iff.mpr hcmp).symm

theorem Sound.home (hsound : Sound map) (hat : MemberAt map i j e) :
    bucketIndex scopeParams e.name = i :=
  hsound.elim fun _ hrep => hrep.home i e (List.mem_of_getElem? hat)

theorem Sound.remove (hsound : Sound map) (hx : x ∈ entriesOf map) :
    ∃ map', hashmapRemove scopeParams map x.name = some (map', true, [x]) ∧ Sound map' ∧
      (∀ i j e, MemberAt map' i j e ↔ MemberAt map i j e ∧ e ≠ x) ∧
      ∀ i, (map' i).numAllocEntries = (map i).numAllocEntries := by
  obtain ⟨m, hrep⟩ := hsound
  have hm : m (keyClass scopeParams lawful_scopeParams x.name) = some x := hrep.mem_iff.mp hx
  obtain ⟨map', hremove, hrep'⟩ := hrep.remove x.name
  rw [hm] at hremove
  have happly : applyChange scopeParams map (.remove x.name) = some (map', [x]) := by
    rw [applyChange, hremove]
    rfl
  have hlength (i : Fin scopeParams.numBuckets) :
      (map' i).entries.length = (map i).entries.length := by
    rcases applyChange_block hrep.exact happly i with ⟨hextends, -⟩ | ⟨-, -, hlength⟩
    · exact hextends.elim
    · exact hlength
  refine ⟨map', hremove, ⟨_, hrep'⟩, ?_, ?_⟩
  · intro i j e
    have hmem' : e ∈ entriesOf map' → e ≠ x := by
      rintro he rfl
      have hcleared : update m (keyClass scopeParams lawful_scopeParams e.name) none
          (keyClass scopeParams lawful_scopeParams e.name) = some e := hrep'.mem_iff.mp he
      rw [update_self] at hcleared
      exact Option.some_ne_none e hcleared.symm
    constructor
    · intro hat
      refine ⟨?_, hmem' (mem_entriesOf_of_place hat)⟩
      obtain ⟨bucket', hmap', hchange, -⟩ := applyChange_cases hrep.exact happly
      by_cases hi : i = changedBucket scopeParams (.remove x.name)
      · subst hi
        rw [MemberAt, hmap', update_self] at hat
        cases hchange with
        | same hsame => rwa [hsame] at hat
        | @release _ old j' hold hcmp hentries hblock =>
            by_cases hj : j' = j
            · subst hj
              rw [hentries, List.getElem?_set_self (List.getElem?_eq_some_iff.mp hold).1] at hat
              exact (Option.some_ne_none e (Option.some.inj hat).symm).elim
            · rwa [hentries, List.getElem?_set_ne hj] at hat
      · rwa [MemberAt, hmap', update_of_ne hi] at hat
    · rintro ⟨hat, hne⟩
      have he : e ∈ entriesOf map' := by
        rw [hrep'.mem_iff]
        have hclass : entryClass scopeParams lawful_scopeParams e ≠
            keyClass scopeParams lawful_scopeParams x.name := by
          intro hclass
          exact hne (hrep.lists.eq_of_cls_eq (mem_entriesOf_of_place hat) hx hclass)
        rw [update_of_ne hclass]
        exact hrep.mem_iff.mp (mem_entriesOf_of_place hat)
      exact hrep.place hrep' happly hat he
  · intro i
    rw [(hrep'.exact i).alloc, (hrep.exact i).alloc, hlength]

theorem mem_of_mem_comparedEntries {entries : List (Option Member)}
    (he : e ∈ comparedEntries scopeParams name entries) : some e ∈ entries := by
  fun_induction comparedEntries scopeParams name entries with
  | case1 => exact nomatch he
  | case2 rest ih => exact List.mem_cons_of_mem _ (ih he)
  | case3 entry rest hcmp =>
      rw [List.mem_singleton.mp he]
      exact List.mem_cons_self
  | case4 entry rest hcmp ih =>
      rcases List.mem_cons.mp he with rfl | he
      · exact List.mem_cons_self
      · exact List.mem_cons_of_mem _ (ih he)

theorem mem_comparedEntries_iff {entries : List (Option Member)} (hx : entries[k]? = some (some x))
    (hcmp : scopeParams.cmp name x.name = true)
    (hfirst : ∀ j e, j < k → entries[j]? = some (some e) → scopeParams.cmp name e.name = false) :
    e ∈ comparedEntries scopeParams name entries ↔ ∃ j ≤ k, entries[j]? = some (some e) := by
  induction entries generalizing k with
  | nil => exact nomatch hx
  | cons entry rest ih =>
      cases k with
      | zero =>
          obtain rfl : entry = some x := Option.some.inj hx
          simp only [comparedEntries]
          rw [if_pos (show scopeParams.cmp name (scopeParams.keyOf x) = true from hcmp)]
          simp [eq_comm]
      | succ k =>
          have hrest : e ∈ comparedEntries scopeParams name rest ↔
              ∃ j ≤ k, rest[j]? = some (some e) :=
            ih hx fun j e hj => hfirst (j + 1) e (Nat.succ_lt_succ hj)
          have hsplit : (∃ j ≤ k + 1, (entry :: rest)[j]? = some (some e)) ↔
              entry = some e ∨ ∃ j ≤ k, rest[j]? = some (some e) := by
            constructor
            · rintro ⟨_ | j, hj, hat⟩
              · exact .inl (Option.some.inj hat)
              · exact .inr ⟨j, Nat.le_of_succ_le_succ hj, hat⟩
            · rintro (rfl | ⟨j, hj, hat⟩)
              · exact ⟨0, Nat.zero_le _, rfl⟩
              · exact ⟨j + 1, Nat.succ_le_succ hj, hat⟩
          rw [hsplit, ← hrest]
          cases entry with
          | none => simp [comparedEntries]
          | some entry =>
              have hnot : scopeParams.cmp name (scopeParams.keyOf entry) = false :=
                hfirst 0 entry (Nat.succ_pos k) rfl
              simp [comparedEntries, hnot, eq_comm]

end Places

/-! ### The invariant of a scope -/

/-- A member that is in the map or has been. -/
def Members.Known (s : Members) (e : Member) : Prop := e ∈ entriesOf s.members ∨ e ∈ s.freed

/-- What holds at any time, also in the middle of a destruction: the lists of instances are exact,
and a variable that has not been destroyed has a template that has not been destroyed. -/
structure WellFormed (s : Members) : Prop where
  sound : Sound s.members
  ids : ∀ x y, s.Known x → s.Known y → x.id = y.id → x = y
  nodup : ∀ t, (s.instances t).Nodup
  instances : ∀ t x, x ∈ s.instances t ↔
    x ∈ entriesOf s.members ∧ x ∉ s.freed ∧ x.kind = .var (some t)
  owner : ∀ x ∈ entriesOf s.members, x ∉ s.freed → ∀ t, x.kind = .var (some t) →
    ∀ e ∈ s.freed, e.id ≠ t
  template : ∀ x e, s.Known x → s.Known e → x.kind = .var (some e.id) → e.kind = .template
  bound : ∀ x, s.Known x → x.id < s.next ∧ ∀ t, x.kind = .var (some t) → t < s.next

section Removal

variable {s s' : Members} {i : Fin scopeParams.numBuckets} {j k t fuel rounds : Nat}
  {e x y : Member} {name : CString}

theorem WellFormed.readsFreed_iff (hwf : WellFormed s) (hat : MemberAt s.members i k x) :
    s.readsFreed x.name = true ↔ ∃ j ≤ k, ∃ e, MemberAt s.members i j e ∧ e ∈ s.freed := by
  have hfirst : ∀ j e, j < k → (s.members i).entries[j]? = some (some e) →
      scopeParams.cmp x.name e.name = false := by
    intro j e hj he
    rw [Bool.eq_false_iff]
    intro hcmp
    obtain rfl := hwf.sound.eq_of_cmp (mem_entriesOf_of_place he) (mem_entriesOf_of_place hat) hcmp
    exact hj.ne (hwf.sound.unique he hat).2
  have hcompared (e : Member) := mem_comparedEntries_iff (e := e) hat (sameName_refl x.name) hfirst
  simp only [Members.readsFreed, hwf.sound.home hat, hwf.sound.alloc i, List.take_length,
    List.any_eq_true, hcompared, decide_eq_true_eq]
  constructor
  · rintro ⟨e, ⟨j, hj, hat⟩, hfreed⟩
    exact ⟨j, hj, e, hat, hfreed⟩
  · rintro ⟨j, hj, e, hat, hfreed⟩
    exact ⟨e, ⟨j, hj, hat⟩, hfreed⟩

theorem readsFreed_of_live (hlive : ∀ e ∈ entriesOf s.members, e ∉ s.freed) (name : CString) :
    s.readsFreed name = false := by
  rw [Bool.eq_false_iff]
  intro hreads
  obtain ⟨e, he, hfreed⟩ := List.any_eq_true.mp hreads
  have hmem := List.mem_of_mem_take (mem_of_mem_comparedEntries he)
  refine hlive e ?_ (of_decide_eq_true hfreed)
  exact List.mem_flatMap.mpr ⟨_, List.mem_finRange _, List.reduceOption_mem_iff.mpr hmem⟩

/-- A member has been taken out of the map, and the variables `gone` with it; all of them are
destroyed now, the variables first. -/
structure Removed (s : Members) (gone : List Member) (s' : Members) : Prop where
  wellFormed : WellFormed s'
  at_iff : ∀ i j e, MemberAt s'.members i j e ↔ MemberAt s.members i j e ∧ e ∉ gone
  freed : s'.freed = s.freed ++ gone
  alloc : ∀ i, (s'.members i).numAllocEntries = (s.members i).numAllocEntries
  instances : ∀ t, s'.instances t = (s.instances t).filter (· ∉ gone)
  next : s'.next = s.next

variable {gone : List Member} {template : Option Nat}

theorem Removed.mem_iff (hremoved : Removed s gone s') :
    e ∈ entriesOf s'.members ↔ e ∈ entriesOf s.members ∧ e ∉ gone := by
  simp only [mem_entriesOf_iff, hremoved.at_iff]
  constructor
  · rintro ⟨i, j, hat, hne⟩
    exact ⟨⟨i, j, hat⟩, hne⟩
  · rintro ⟨⟨i, j, hat⟩, hne⟩
    exact ⟨i, j, hat, hne⟩

theorem Removed.known (hremoved : Removed s gone s')
    (hgone : ∀ e ∈ gone, s.Known e) (he : s'.Known e) : s.Known e := by
  rcases he with he | he
  · exact .inl (hremoved.mem_iff.mp he).1
  · rw [hremoved.freed] at he
    rcases List.mem_append.mp he with he | he
    · exact .inr he
    · exact hgone e he

theorem Removed.refl (hwf : WellFormed s) : Removed s [] s :=
  ⟨hwf, by simp, by simp, fun _ => rfl, by simp, rfl⟩

theorem Removed.trans {s₁ s₂ s₃ : Members} {gone' : List Member} (h₁ : Removed s₁ gone s₂)
    (h₂ : Removed s₂ gone' s₃) : Removed s₁ (gone ++ gone') s₃ := by
  refine ⟨h₂.wellFormed, fun i j e => ?_, ?_, fun i => (h₂.alloc i).trans (h₁.alloc i), fun t => ?_,
    h₂.next.trans h₁.next⟩
  · rw [h₂.at_iff, h₁.at_iff, List.mem_append, not_or, and_assoc]
  · rw [h₂.freed, h₁.freed, List.append_assoc]
  · rw [h₂.instances, h₁.instances, List.filter_filter]
    refine List.filter_congr fun e _ => ?_
    simp [Bool.and_comm]

/-- A member has been destroyed; the map may have lost it. -/
def Members.afterFree (s : Members) (map' : Hashmap scopeParams) (e : Member) : Members :=
  { members := map'
    instances := fun t => (s.instances t).filter (· ∉ [e])
    freed := s.freed ++ [e]
    next := s.next }

theorem filter_instances_eq_self {L : List Member} (he : e ∉ L) : L.filter (· ∉ [e]) = L := by
  refine List.filter_eq_self.mpr fun y hy => ?_
  rw [decide_eq_true_eq, List.mem_singleton]
  rintro rfl
  exact he hy

/-- The destruction of a member that is the template of no variable any more.  The member and all
others are known from an earlier state. -/
theorem WellFormed.free {s₀ : Members} (hwf₀ : WellFormed s₀) (hwf : WellFormed s)
    (hknown : ∀ y, s.Known y → s₀.Known y) (hnext : s.next = s₀.next) (he : s₀.Known e)
    {map' : Hashmap scopeParams} (hsound : Sound map')
    (hsub : ∀ y ∈ entriesOf map', y ∈ entriesOf s.members)
    (hkeep : ∀ y ∈ entriesOf s.members, y ≠ e → y ∈ entriesOf map')
    (howner : ∀ y ∈ entriesOf s.members, y ∉ s.freed → y.kind ≠ .var (some e.id)) :
    WellFormed (s.afterFree map' e) := by
  have hknown' (y : Member) (hy : (s.afterFree map' e).Known y) : s₀.Known y := by
    rcases hy with hy | hy
    · exact hknown y (.inl (hsub y hy))
    · rcases List.mem_append.mp hy with hy | hy
      · exact hknown y (.inr hy)
      · rw [List.mem_singleton.mp hy]
        exact he
  refine ⟨hsound, ?_, ?_, ?_, ?_, ?_, ?_⟩
  · exact fun y z hy hz => hwf₀.ids y z (hknown' y hy) (hknown' z hz)
  · exact fun t => (hwf.nodup t).filter _
  · intro t y
    simp only [Members.afterFree, List.mem_filter, hwf.instances, List.mem_append, not_or,
      decide_eq_true_eq, List.mem_singleton]
    constructor
    · rintro ⟨⟨hy, hyfreed, hykind⟩, hne⟩
      exact ⟨hkeep y hy hne, ⟨hyfreed, hne⟩, hykind⟩
    · rintro ⟨hy, ⟨hyfreed, hne⟩, hykind⟩
      exact ⟨⟨hsub y hy, hyfreed, hykind⟩, hne⟩
  · intro y hy hyfreed t hykind z hz
    have hyfreed : y ∉ s.freed := fun hin => hyfreed (List.mem_append_left _ hin)
    rcases List.mem_append.mp hz with hz | hz
    · exact hwf.owner y (hsub y hy) hyfreed t hykind z hz
    · rw [List.mem_singleton.mp hz]
      rintro rfl
      exact howner y (hsub y hy) hyfreed hykind
  · exact fun y z hy hz => hwf₀.template y z (hknown' y hy) (hknown' z hz)
  · intro y hy
    rw [show (s.afterFree map' e).next = s₀.next from hnext]
    exact hwf₀.bound y (hknown' y hy)

theorem WellFormed.not_owner (hwf : WellFormed s) (he : s.Known e)
    (hkind : e.kind = .var template) (y : Member) (hy : y ∈ entriesOf s.members) :
    y.kind ≠ .var (some e.id) := by
  intro hykind
  have htemplate := hwf.template y e (.inl hy) he hykind
  exact nomatch hkind.symm.trans htemplate

/-- `var_destroy()` for a variable that is in the map, or has just been taken from it, and has not
been destroyed. -/
theorem WellFormed.varDestroy_eq (hwf : WellFormed s) (hx : x ∈ entriesOf s.members)
    (hfreed : x ∉ s.freed) (hkind : x.kind = .var template) (map' : Hashmap scopeParams) :
    varDestroy { s with members := map' } x template = some (s.afterFree map' x) := by
  cases template with
  | none =>
      have hinstances : ∀ t, (s.instances t).filter (· ∉ [x]) = s.instances t := by
        intro t
        refine filter_instances_eq_self fun hmem => ?_
        exact nomatch hkind.symm.trans ((hwf.instances t x).mp hmem).2.2
      simp only [varDestroy, Members.afterFree, hinstances]
  | some t =>
      have halive : ¬ (s.freed.any fun member => decide (member.id = t)) = true := by
        rw [List.any_eq_true]
        rintro ⟨e, he, hid⟩
        exact hwf.owner x hx hfreed t hkind e he (of_decide_eq_true hid)
      have hinstances : update s.instances t ((s.instances t).erase x) =
          fun t => (s.instances t).filter (· ∉ [x]) := by
        funext t'
        by_cases ht : t' = t
        · subst ht
          rw [update_self, (hwf.nodup t').erase_eq_filter]
          exact List.filter_congr fun e _ => by simp [bne, beq_eq_decide]
        · rw [update_of_ne ht]
          refine (filter_instances_eq_self fun hmem => ?_).symm
          have hkind' := ((hwf.instances t' x).mp hmem).2.2
          rw [hkind] at hkind'
          exact ht (Option.some.inj (MemberKind.var.inj hkind')).symm
      simp only [varDestroy, if_neg halive, varTemplateUnregisterInstance, hinstances,
        Members.afterFree]

theorem WellFormed.removeVar (hwf : WellFormed s) (hx : x ∈ entriesOf s.members)
    (hfreed : x ∉ s.freed) (hkind : x.kind = .var template) :
    ∃ s', Removed s [x] s' ∧ ∀ fuel, s.readsFreed x.name = false →
      varScopeRemoveMember (fuel + 1) s x.name = some s' := by
  obtain ⟨map', hremove, hsound', hat, halloc⟩ := hwf.sound.remove hx
  have hwf' : WellFormed (s.afterFree map' x) := by
    refine hwf.free hwf (fun _ hy => hy) rfl (.inl hx) hsound' ?_ ?_ ?_
    · intro y hy
      obtain ⟨i, j, hy⟩ := mem_entriesOf_iff.mp hy
      exact mem_entriesOf_iff.mpr ⟨i, j, ((hat i j y).mp hy).1⟩
    · intro y hy hne
      obtain ⟨i, j, hy⟩ := mem_entriesOf_iff.mp hy
      exact mem_entriesOf_iff.mpr ⟨i, j, (hat i j y).mpr ⟨hy, hne⟩⟩
    · exact fun y hy _ => hwf.not_owner (.inl hx) hkind y hy
  refine ⟨s.afterFree map' x, ⟨hwf', ?_, rfl, halloc, fun _ => rfl, rfl⟩, ?_⟩
  · intro i j e
    rw [show (s.afterFree map' x).members = map' from rfl, hat, List.mem_singleton]
  · intro fuel hreads
    rw [varScopeRemoveMember, hreads, hremove]
    simp only [Bool.false_eq_true, if_false, List.foldlM_cons, List.foldlM_nil,
      varScopeMemberDestroyAction, hkind, hwf.varDestroy_eq hx hfreed hkind map']
    rfl

theorem Removed.readsFreed_iff (hwf : WellFormed s)
    (hremoved : Removed s gone s') (hgone : ∀ e ∈ gone, e ∉ s.freed) (hx : x ∈ entriesOf s'.members) :
    s'.readsFreed x.name = true ↔ s.readsFreed x.name = true := by
  obtain ⟨i, k, hat'⟩ := mem_entriesOf_iff.mp hx
  have hat := ((hremoved.at_iff i k x).mp hat').1
  rw [hremoved.wellFormed.readsFreed_iff hat', hwf.readsFreed_iff hat]
  constructor
  · rintro ⟨j, hj, e, he, hfreed⟩
    obtain ⟨he, hout⟩ := (hremoved.at_iff i j e).mp he
    rw [hremoved.freed] at hfreed
    rcases List.mem_append.mp hfreed with hfreed | hin
    · exact ⟨j, hj, e, he, hfreed⟩
    · exact absurd hin hout
  · rintro ⟨j, hj, e, he, hfreed⟩
    refine ⟨j, hj, e, (hremoved.at_iff i j e).mpr ⟨he, fun hin => hgone e hin hfreed⟩, ?_⟩
    rw [hremoved.freed]
    exact List.mem_append_left _ hfreed

theorem WellFormed.removeInstance (hwf : WellFormed s) {rest : List Member}
    (hinstances : s.instances t = x :: rest) :
    ∃ s', Removed s [x] s' ∧ s'.instances t = rest ∧
      (∀ y ∈ rest, s'.readsFreed y.name = s.readsFreed y.name) ∧
      (s.readsFreed x.name = true → ∀ fuel, varScopeRemoveMember fuel s x.name = none) ∧
      varScopeRemoveMember 0 s x.name = none ∧
      ∀ fuel, s.readsFreed x.name = false → varScopeRemoveMember (fuel + 1) s x.name = some s' := by
  have hmem : x ∈ s.instances t := hinstances ▸ List.mem_cons_self
  obtain ⟨hx, hfreed, hkind⟩ := (hwf.instances t x).mp hmem
  obtain ⟨s', hremoved, hremove⟩ := hwf.removeVar hx hfreed hkind
  have hnodup := hwf.nodup t
  rw [hinstances] at hnodup
  obtain ⟨hout, -⟩ := List.nodup_cons.mp hnodup
  have hinstances' : s'.instances t = rest := by
    rw [hremoved.instances, hinstances, List.filter_cons_of_neg (by simp)]
    refine List.filter_eq_self.mpr fun y hy => ?_
    rw [decide_eq_true_eq, List.mem_singleton]
    rintro rfl
    exact hout hy
  refine ⟨s', hremoved, hinstances', ?_, ?_, rfl, hremove⟩
  · intro y hy
    have hy' := ((hremoved.wellFormed.instances t y).mp (hinstances' ▸ hy)).1
    refine Bool.eq_iff_iff.mpr (hremoved.readsFreed_iff hwf ?_ hy')
    intro e he
    rw [List.mem_singleton.mp he]
    exact hfreed
  · intro hreads fuel
    cases fuel with
    | zero => rfl
    | succ fuel => rw [varScopeRemoveMember, if_pos hreads]

theorem invalidateInstances_removed (hwf : WellFormed s)
    (hrun : varTemplateInvalidateInstances (varScopeRemoveMember fuel) t rounds s = some s') :
    Removed s (s.instances t) s' := by
  induction rounds generalizing s with
  | zero => exact nomatch hrun
  | succ rounds ih =>
      simp only [varTemplateInvalidateInstances] at hrun
      cases hinstances : s.instances t with
      | nil =>
          rw [hinstances] at hrun
          obtain rfl := Option.some.inj hrun
          exact .refl hwf
      | cons x rest =>
          rw [hinstances] at hrun
          obtain ⟨s₁, hfirst, hrest⟩ := Option.bind_eq_some_iff.mp hrun
          obtain ⟨s₁', hremoved, hinstances', -, hreads, hzero, hremove⟩ :=
            hwf.removeInstance hinstances
          cases fuel with
          | zero => exact nomatch hzero.symm.trans hfirst
          | succ fuel =>
              cases hfreed : s.readsFreed x.name with
              | true => exact nomatch (hreads hfreed (fuel + 1)).symm.trans hfirst
              | false =>
                  obtain rfl := Option.some.inj ((hremove fuel hfreed).symm.trans hfirst)
                  have hrest' := ih hremoved.wellFormed hrest
                  rw [hinstances'] at hrest'
                  exact hremoved.trans hrest'

theorem invalidateInstances_succeeds (hwf : WellFormed s)
    (hclean : ∀ x ∈ s.instances t, s.readsFreed x.name = false)
    (hrounds : (s.instances t).length < rounds) :
    ∃ s', varTemplateInvalidateInstances (varScopeRemoveMember (fuel + 1)) t rounds s = some s' := by
  induction rounds generalizing s with
  | zero => exact absurd hrounds (Nat.not_lt_zero _)
  | succ rounds ih =>
      simp only [varTemplateInvalidateInstances]
      cases hinstances : s.instances t with
      | nil => exact ⟨s, rfl⟩
      | cons x rest =>
          obtain ⟨s₁, hremoved, hinstances', hsame, -, -, hremove⟩ := hwf.removeInstance hinstances
          rw [hinstances] at hclean hrounds
          dsimp only
          rw [hremove fuel (hclean x List.mem_cons_self), Option.bind_some]
          refine ih hremoved.wellFormed ?_ ?_
          · intro y hy
            rw [hinstances'] at hy
            rw [hsame y hy]
            exact hclean y (List.mem_cons_of_mem x hy)
          · rw [hinstances']
            exact Nat.lt_of_succ_lt_succ hrounds

theorem invalidateInstances_fails (hwf : WellFormed s) (hx : x ∈ s.instances t)
    (hreads : s.readsFreed x.name = true) :
    varTemplateInvalidateInstances (varScopeRemoveMember fuel) t rounds s = none := by
  induction rounds generalizing s with
  | zero => rfl
  | succ rounds ih =>
      simp only [varTemplateInvalidateInstances]
      cases hinstances : s.instances t with
      | nil => rw [hinstances] at hx; exact nomatch hx
      | cons y rest =>
          obtain ⟨s₁, hremoved, hinstances', hsame, hfails, hzero, hremove⟩ :=
            hwf.removeInstance hinstances
          dsimp only
          cases hfreed : s.readsFreed y.name with
          | true => rw [hfails hfreed, Option.bind_none]
          | false =>
              cases fuel with
              | zero => rw [hzero, Option.bind_none]
              | succ fuel =>
                  rw [hremove fuel hfreed, Option.bind_some]
                  rw [hinstances] at hx
                  rcases List.mem_cons.mp hx with rfl | hx
                  · exact nomatch hfreed.symm.trans hreads
                  · exact ih hremoved.wellFormed (hinstances' ▸ hx) ((hsame x hx).trans hreads)

/-- The variables that go with a member. -/
def Members.goneWith (s : Members) (e : Member) : List Member :=
  match e.kind with
  | .var _ => []
  | .template => s.instances e.id

/-- A member has been destroyed in its place, and the variables that go with it have been removed. -/
structure DestroyedInPlace (s : Members) (e : Member) (s' : Members) : Prop where
  wellFormed : WellFormed s'
  at_iff : ∀ i j y, MemberAt s'.members i j y ↔ MemberAt s.members i j y ∧ y ∉ s.goneWith e
  freed : s'.freed = s.freed ++ s.goneWith e ++ [e]
  alloc : ∀ i, (s'.members i).numAllocEntries = (s.members i).numAllocEntries

theorem WellFormed.mem_goneWith (hwf : WellFormed s) (he : e ∈ entriesOf s.members) :
    x ∈ s.goneWith e ↔ x ∈ entriesOf s.members ∧ x ∉ s.freed ∧ x.kind = .var (some e.id) := by
  rw [Members.goneWith]
  cases hkind : e.kind with
  | var template =>
      simp only [List.not_mem_nil, false_iff, not_and]
      exact fun hx _ => hwf.not_owner (.inl he) hkind x hx
  | template => exact hwf.instances e.id x

theorem Removed.afterTemplate {s₀ : Members} (hwf₀ : WellFormed s₀) (hwf : WellFormed s)
    (hknown : ∀ y, s.Known y → s₀.Known y) (hnext : s.next = s₀.next) (he : s₀.Known e)
    (hkind : e.kind = .template) (hremoved : Removed s (s.instances e.id) s') :
    WellFormed { s' with freed := s'.freed ++ [e] } := by
  have hinstances (t : Nat) : (s'.instances t).filter (· ∉ [e]) = s'.instances t := by
    refine filter_instances_eq_self fun hmem => ?_
    exact nomatch hkind.symm.trans ((hremoved.wellFormed.instances t e).mp hmem).2.2
  have hfree : s'.afterFree s'.members e = { s' with freed := s'.freed ++ [e] } := by
    simp only [Members.afterFree, hinstances]
  rw [← hfree]
  refine hwf₀.free hremoved.wellFormed ?_ (hremoved.next.trans hnext) he hremoved.wellFormed.sound
    (fun _ hy => hy) (fun _ hy _ => hy) ?_
  · intro y hy
    refine hknown y (hremoved.known (fun z hz => ?_) hy)
    exact .inl ((hwf.instances e.id z).mp hz).1
  · intro y hy hyfreed hykind
    have hmem : y ∈ s'.instances e.id :=
      (hremoved.wellFormed.instances e.id y).mpr ⟨hy, hyfreed, hykind⟩
    rw [hremoved.instances] at hmem
    simp at hmem

theorem destroyAction_destroys (hwf : WellFormed s) (he : e ∈ entriesOf s.members)
    (hfreed : e ∉ s.freed)
    (hrun : varScopeMemberDestroyAction (varScopeRemoveMember fuel) fuel s e = some s') :
    DestroyedInPlace s e s' := by
  rw [varScopeMemberDestroyAction] at hrun
  cases hkind : e.kind with
  | var template =>
      rw [hkind] at hrun
      have hgone : s.goneWith e = [] := by rw [Members.goneWith, hkind]
      obtain rfl := Option.some.inj ((hwf.varDestroy_eq he hfreed hkind s.members).symm.trans hrun)
      refine ⟨?_, ?_, ?_, fun _ => rfl⟩
      · exact hwf.free hwf (fun _ hy => hy) rfl (.inl he) hwf.sound (fun _ hy => hy)
          (fun _ hy _ => hy) fun y hy _ => hwf.not_owner (.inl he) hkind y hy
      · intro i j y
        simp [hgone, Members.afterFree]
      · rw [hgone, List.append_nil]
        rfl
  | template =>
      rw [hkind] at hrun
      have hgone : s.goneWith e = s.instances e.id := by rw [Members.goneWith, hkind]
      obtain ⟨s₁, hloop, rfl⟩ := Option.map_eq_some_iff.mp hrun
      have hremoved := invalidateInstances_removed hwf hloop
      refine ⟨?_, ?_, ?_, hremoved.alloc⟩
      · exact Removed.afterTemplate hwf hwf (fun _ hy => hy) rfl (.inl he) hkind hremoved
      · intro i j y
        rw [hgone]
        exact hremoved.at_iff i j y
      · rw [hgone, ← hremoved.freed]

theorem destroyAction_succeeds (hwf : WellFormed s) (he : e ∈ entriesOf s.members)
    (hfreed : e ∉ s.freed) (hclean : ∀ x ∈ s.goneWith e, s.readsFreed x.name = false)
    (hfuel : (s.goneWith e).length < fuel) :
    ∃ s', varScopeMemberDestroyAction (varScopeRemoveMember fuel) fuel s e = some s' := by
  rw [varScopeMemberDestroyAction]
  rw [Members.goneWith] at hclean hfuel
  cases hkind : e.kind with
  | var template => exact ⟨_, hwf.varDestroy_eq he hfreed hkind s.members⟩
  | template =>
      rw [hkind] at hclean hfuel
      cases fuel with
      | zero => exact absurd hfuel (Nat.not_lt_zero _)
      | succ fuel =>
          obtain ⟨s', hloop⟩ := invalidateInstances_succeeds hwf hclean hfuel
          exact ⟨_, Option.map_eq_some_iff.mpr ⟨s', hloop, rfl⟩⟩

theorem destroyAction_fails (hwf : WellFormed s) (hx : x ∈ s.goneWith e)
    (hreads : s.readsFreed x.name = true) :
    varScopeMemberDestroyAction (varScopeRemoveMember fuel) fuel s e = none := by
  rw [varScopeMemberDestroyAction]
  rw [Members.goneWith] at hx
  cases hkind : e.kind with
  | var template => rw [hkind] at hx; exact nomatch hx
  | template =>
      rw [hkind] at hx
      dsimp only
      rw [invalidateInstances_fails hwf hx hreads, Option.map_none]

end Removal

/-! ### The scopes that arise -/

section Live

variable {s s' : Members} {fuel : Nat} {e : Member} {name : CString} {kind : MemberKind}
  {regexec : CString → CString → Bool}

/-- Between the things that are done to a scope no destroyed member is in the map. -/
structure Live (s : Members) : Prop where
  wellFormed : WellFormed s
  alive : ∀ e ∈ entriesOf s.members, e ∉ s.freed

theorem live_create : Live varScopeCreate := by
  have hrep := represents_create lawful_scopeParams
  have hempty : ∀ e, e ∉ entriesOf varScopeCreate.members := by
    intro e he
    exact nomatch hrep.mem_iff.mp he
  have hnone : ∀ e, ¬ varScopeCreate.Known e := fun e he => he.elim (hempty e) nofun
  refine ⟨⟨⟨_, hrep⟩, ?_, fun _ => List.nodup_nil, ?_, ?_, ?_, ?_⟩, ?_⟩
  · exact fun x _ hx => absurd hx (hnone x)
  · exact fun t x => ⟨nofun, fun hx => absurd hx.1 (hempty x)⟩
  · exact fun x hx => absurd hx (hempty x)
  · exact fun x _ hx => absurd hx (hnone x)
  · exact fun x hx => absurd hx (hnone x)
  · exact fun x hx => absurd hx (hempty x)

theorem Live.tryGetMember (hlive : Live s) (name : CString) :
    varScopeTryGetMember s name = some (hashmapGet scopeParams s.members name) := by
  rw [varScopeTryGetMember, readsFreed_of_live hlive.alive]
  rfl

theorem Sound.put {map : Hashmap scopeParams} (hsound : Sound map)
    (hget : hashmapGet scopeParams map e.name = none) :
    ∃ map', hashmapPut scopeParams map e = some (map', []) ∧ Sound map' ∧
      ∀ y, y ∈ entriesOf map' ↔ y ∈ entriesOf map ∨ y = e := by
  obtain ⟨m, hrep⟩ := hsound
  have hnone : m (entryClass scopeParams lawful_scopeParams e) = none :=
    (hrep.search e.name).symm.trans hget
  obtain ⟨map', hput, hrep'⟩ := hrep.put e
  rw [hnone] at hput
  refine ⟨map', hput, ⟨_, hrep'⟩, fun y => ?_⟩
  rw [hrep'.mem_iff, hrep.mem_iff]
  by_cases hclass : entryClass scopeParams lawful_scopeParams y =
      entryClass scopeParams lawful_scopeParams e
  · rw [hclass, update_self, hnone]
    simp [eq_comm]
  · rw [update_of_ne hclass]
    have hne : y ≠ e := fun heq => hclass (congrArg _ heq)
    simp [hne]

/-- A new member, which is registered with its template if it has one. -/
theorem Live.put (hlive : Live s) {map' : Hashmap scopeParams} {instances : Nat → List Member}
    (hid : e.id = s.next) (hsound : Sound map')
    (hmem : ∀ y, y ∈ entriesOf map' ↔ y ∈ entriesOf s.members ∨ y = e)
    (hinstances : ∀ t, instances t =
      if e.kind = .var (some t) then s.instances t ++ [e] else s.instances t)
    (htemplate : ∀ t, e.kind = .var (some t) →
      ∃ template ∈ entriesOf s.members, template.id = t ∧ template.kind = .template) :
    Live { members := map', instances, freed := s.freed, next := s.next + 1 } := by
  have hwf := hlive.wellFormed
  have hfresh : ∀ y, s.Known y → y.id ≠ e.id := by
    intro y hy heq
    have := (hwf.bound y hy).1
    omega
  have hnew : e ∉ entriesOf s.members ∧ e ∉ s.freed :=
    ⟨fun he => hfresh e (.inl he) rfl, fun he => hfresh e (.inr he) rfl⟩
  have hknown (y : Member)
      (hy : ({ members := map', instances, freed := s.freed, next := s.next + 1 } : Members).Known y) :
      s.Known y ∨ y = e := by
    rcases hy with hy | hy
    · exact ((hmem y).mp hy).imp_left .inl
    · exact .inl (.inr hy)
  refine ⟨⟨hsound, ?_, ?_, ?_, ?_, ?_, ?_⟩, ?_⟩
  · intro x y hx hy heq
    rcases hknown x hx with hx | rfl <;> rcases hknown y hy with hy | rfl
    · exact hwf.ids x y hx hy heq
    · exact absurd heq (hfresh x hx)
    · exact absurd heq.symm (hfresh y hy)
    · rfl
  · intro t
    simp only [hinstances]
    split
    · refine List.nodup_append.mpr ⟨hwf.nodup t, List.nodup_singleton e, ?_⟩
      rintro x hx y hy rfl
      rw [List.mem_singleton.mp hy] at hx
      exact hnew.1 ((hwf.instances t e).mp hx).1
    · exact hwf.nodup t
  · intro t x
    simp only [hinstances, hmem]
    split
    · next hkind =>
        rw [List.mem_append, List.mem_singleton, hwf.instances]
        constructor
        · rintro (⟨hx, hxfreed, hxkind⟩ | rfl)
          · exact ⟨.inl hx, hxfreed, hxkind⟩
          · exact ⟨.inr rfl, hnew.2, hkind⟩
        · rintro ⟨hx | rfl, hxfreed, hxkind⟩
          · exact .inl ⟨hx, hxfreed, hxkind⟩
          · exact .inr rfl
    · next hkind =>
        rw [hwf.instances]
        constructor
        · rintro ⟨hx, hxfreed, hxkind⟩
          exact ⟨.inl hx, hxfreed, hxkind⟩
        · rintro ⟨hx | rfl, hxfreed, hxkind⟩
          · exact ⟨hx, hxfreed, hxkind⟩
          · exact absurd hxkind hkind
  · intro x hx hxfreed t hxkind y hy
    rcases (hmem x).mp hx with hx | rfl
    · exact hwf.owner x hx hxfreed t hxkind y hy
    · obtain ⟨template, hin, rfl, -⟩ := htemplate t hxkind
      intro heq
      obtain rfl := hwf.ids y template (.inr hy) (.inl hin) heq
      exact hlive.alive y hin hy
  · intro x y hx hy hxkind
    rcases hknown x hx with hx | rfl
    · rcases hknown y hy with hy | rfl
      · exact hwf.template x y hx hy hxkind
      · have := (hwf.bound x hx).2 _ hxkind
        omega
    · obtain ⟨template, hin, heq, hkind⟩ := htemplate _ hxkind
      rcases hknown y hy with hy | rfl
      · obtain rfl := hwf.ids template y (.inl hin) hy heq
        exact hkind
      · exact absurd heq (hfresh template (.inl hin))
  · intro x hx
    rcases hknown x hx with hx | rfl
    · obtain ⟨hlt, hltTemplate⟩ := hwf.bound x hx
      exact ⟨Nat.lt_succ_of_lt hlt, fun t ht => Nat.lt_succ_of_lt (hltTemplate t ht)⟩
    · refine ⟨by simp [hid], fun t ht => ?_⟩
      obtain ⟨template, hin, rfl, -⟩ := htemplate t ht
      exact Nat.lt_succ_of_lt (hwf.bound template (.inl hin)).1
  · intro x hx
    rcases (hmem x).mp hx with hx | rfl
    · exact hlive.alive x hx
    · exact hnew.2

theorem Live.addMember (hlive : Live s) (name : CString) (hkind : ∀ t, kind ≠ .var (some t)) :
    ∃ s', varScopeAddMember s name kind = some s' ∧ Live s' := by
  rw [varScopeAddMember, hlive.tryGetMember, Option.bind_some]
  cases hget : hashmapGet scopeParams s.members name with
  | some old => exact ⟨s, rfl, hlive⟩
  | none =>
      obtain ⟨map', hput, hsound, hmem⟩ :=
        hlive.wellFormed.sound.put (e := ⟨s.next, name, kind⟩) hget
      refine ⟨_, by rw [putMember, hput, Option.map_some], ?_⟩
      exact hlive.put rfl hsound hmem (fun t => (if_neg (hkind t)).symm)
        fun t ht => absurd ht (hkind t)

theorem visitAll_tryDeduceInstantiation (regexec : CString → CString → Bool) (name : CString)
    (L : List Member) (found : Option Member) :
    ∃ template, (visitAll (tryDeduceInstantiation regexec name) L found).2 = template ∧
      (template = found ∨ ∃ e ∈ L, template = some e ∧ e.kind = .template) := by
  induction L with
  | nil => exact ⟨found, rfl, .inl rfl⟩
  | cons e L ih =>
      by_cases he : e.kind = .template ∧ regexec e.name name = true
      · refine ⟨some e, ?_, .inr ⟨e, List.mem_cons_self, rfl, he.1⟩⟩
        simp [visitAll, tryDeduceInstantiation, he]
      · obtain ⟨template, hvisit, hfound⟩ := ih
        refine ⟨template, ?_, ?_⟩
        · simp only [visitAll, tryDeduceInstantiation, if_neg he]
          exact hvisit
        · refine hfound.imp_right ?_
          rintro ⟨y, hy, heq, hkind⟩
          exact ⟨y, List.mem_cons_of_mem e hy, heq, hkind⟩

theorem Live.tryGet (hlive : Live s) (regexec : CString → CString → Bool) (name : CString) :
    ∃ s', varScopeTryGet regexec s name = some s' ∧ Live s' := by
  rw [varScopeTryGet, hlive.tryGetMember, Option.bind_some]
  cases hget : hashmapGet scopeParams s.members name with
  | some old => exact ⟨s, rfl, hlive⟩
  | none =>
      obtain ⟨m, hrep⟩ := hlive.wellFormed.sound
      dsimp only
      rw [hrep.foreach]
      obtain ⟨template, hvisit, hfound⟩ :=
        visitAll_tryDeduceInstantiation regexec name (entriesOf s.members) none
      rw [hvisit]
      rcases hfound with rfl | ⟨template, hin, rfl, hkind⟩
      · exact ⟨s, rfl, hlive⟩
      · obtain ⟨map', hput, hsound, hmem⟩ :=
          hlive.wellFormed.sound.put (e := ⟨s.next, name, .var (some template.id)⟩) hget
        have hinstantiate : varTemplateInstantiate s template name = some
            { members := map'
              instances := update s.instances template.id
                (s.instances template.id ++ [⟨s.next, name, .var (some template.id)⟩])
              freed := s.freed
              next := s.next + 1 } := by
          simp only [varTemplateInstantiate, putMember, hput, Option.map_some]
        refine ⟨_, hinstantiate, ?_⟩
        refine hlive.put (e := ⟨s.next, name, .var (some template.id)⟩) rfl hsound hmem ?_ ?_
        · intro t
          by_cases ht : t = template.id
          · subst ht
            rw [update_self, if_pos rfl]
          · rw [update_of_ne ht, if_neg]
            exact fun heq => ht (Option.some.inj (MemberKind.var.inj heq)).symm
        · intro t ht
          exact ⟨template, hin, Option.some.inj (MemberKind.var.inj ht), hkind⟩

theorem WellFormed.clear (hwf : WellFormed s) (hkind : e.kind = .template)
    {map' : Hashmap scopeParams} (hsound : Sound map')
    (hmem : ∀ y, y ∈ entriesOf map' ↔ y ∈ entriesOf s.members ∧ y ≠ e) :
    WellFormed { s with members := map' } := by
  have hknown (y : Member) (hy : ({ s with members := map' } : Members).Known y) : s.Known y :=
    hy.imp_left fun hy => ((hmem y).mp hy).1
  refine ⟨hsound, ?_, hwf.nodup, ?_, ?_, ?_, ?_⟩
  · exact fun y z hy hz => hwf.ids y z (hknown y hy) (hknown z hz)
  · intro t y
    rw [show ({ s with members := map' } : Members).instances = s.instances from rfl,
      hwf.instances, hmem]
    constructor
    · rintro ⟨hy, hyfreed, hykind⟩
      refine ⟨⟨hy, ?_⟩, hyfreed, hykind⟩
      rintro rfl
      exact nomatch hkind.symm.trans hykind
    · rintro ⟨⟨hy, -⟩, hyfreed, hykind⟩
      exact ⟨hy, hyfreed, hykind⟩
  · exact fun y hy => hwf.owner y ((hmem y).mp hy).1
  · exact fun y z hy hz => hwf.template y z (hknown y hy) (hknown z hz)
  · exact fun y hy => hwf.bound y (hknown y hy)

/-- The removal of a member that is in the map; enough fuel is there from some number on. -/
theorem Live.removePresent (hlive : Live s) (he : e ∈ entriesOf s.members) :
    (∀ fuel s', varScopeRemoveMember fuel s e.name = some s' → Live s') ∧
      ∃ s', varScopeRemoveMember ((s.instances e.id).length + 2) s e.name = some s' := by
  have hwf := hlive.wellFormed
  have hreads := readsFreed_of_live hlive.alive e.name
  cases hkind : e.kind with
  | var template =>
      obtain ⟨s₁, hremoved, hremove⟩ := hwf.removeVar he (hlive.alive e he) hkind
      refine ⟨?_, s₁, hremove _ hreads⟩
      intro fuel s' hrun
      cases fuel with
      | zero => exact nomatch hrun
      | succ fuel =>
          obtain rfl := Option.some.inj ((hremove fuel hreads).symm.trans hrun)
          refine ⟨hremoved.wellFormed, fun y hy hyfreed => ?_⟩
          obtain ⟨hy, hout⟩ := hremoved.mem_iff.mp hy
          rw [hremoved.freed] at hyfreed
          rcases List.mem_append.mp hyfreed with hyfreed | hin
          · exact hlive.alive y hy hyfreed
          · exact hout hin
  | template =>
      obtain ⟨map', hremove, hsound', hat, halloc⟩ := hwf.sound.remove he
      have hmem (y : Member) : y ∈ entriesOf map' ↔ y ∈ entriesOf s.members ∧ y ≠ e := by
        simp only [mem_entriesOf_iff, hat, exists_and_right]
      have hwf₁ := hwf.clear hkind hsound' hmem
      have hrun (fuel : Nat) : varScopeRemoveMember (fuel + 1) s e.name =
          (varTemplateInvalidateInstances (varScopeRemoveMember fuel) e.id fuel
            { s with members := map' }).map fun s' => { s' with freed := s'.freed ++ [e] } := by
        rw [varScopeRemoveMember, hreads, hremove]
        simp only [Bool.false_eq_true, if_false, List.foldlM_cons, List.foldlM_nil,
          varScopeMemberDestroyAction, hkind]
        exact bind_pure _
      have halive₁ : ∀ y ∈ entriesOf map', y ∉ s.freed :=
        fun y hy => hlive.alive y ((hmem y).mp hy).1
      have hreads₁ : ∀ name, ({ s with members := map' } : Members).readsFreed name = false :=
        readsFreed_of_live halive₁
      refine ⟨?_, ?_⟩
      · intro fuel s' hsome
        cases fuel with
        | zero => exact nomatch hsome
        | succ fuel =>
            rw [hrun] at hsome
            obtain ⟨s₂, hloop, rfl⟩ := Option.map_eq_some_iff.mp hsome
            have hremoved := invalidateInstances_removed hwf₁ hloop
            refine ⟨Removed.afterTemplate hwf hwf₁ ?_ rfl (.inl he) hkind hremoved, ?_⟩
            · exact fun y hy => hy.imp_left fun hy => ((hmem y).mp hy).1
            · intro y hy hyfreed
              obtain ⟨hy, hout⟩ := hremoved.mem_iff.mp hy
              rw [hremoved.freed, List.append_assoc, List.mem_append, List.mem_append,
                List.mem_singleton] at hyfreed
              rcases hyfreed with hyfreed | hin | heq
              · exact halive₁ y hy hyfreed
              · exact hout hin
              · exact ((hmem y).mp hy).2 heq
      · obtain ⟨s₂, hloop⟩ : ∃ s₂, varTemplateInvalidateInstances
            (varScopeRemoveMember ((s.instances e.id).length + 1)) e.id
            ((s.instances e.id).length + 1) { s with members := map' } = some s₂ :=
          invalidateInstances_succeeds hwf₁ (fun x _ => hreads₁ x.name) (Nat.lt_succ_self _)
        exact ⟨_, by rw [hrun, hloop, Option.map_some]⟩

theorem hashmapRemove_congr (map : Hashmap scopeParams) {a b : CString}
    (hcmp : scopeParams.cmp a b = true) :
    hashmapRemove scopeParams map a = hashmapRemove scopeParams map b := by
  have hsame : ∀ k, scopeParams.cmp a k = scopeParams.cmp b k := by
    have hlower : a.map Char.toLower = b.map Char.toLower := beq_iff_eq.mp hcmp
    intro k
    show (a.map Char.toLower == k.map Char.toLower) = (b.map Char.toLower == k.map Char.toLower)
    rw [hlower]
  have hsearch : ∀ (entries : List (Option Member)) (i : Nat),
      searchEntries scopeParams a entries i = searchEntries scopeParams b entries i := by
    intro entries
    induction entries with
    | nil => exact fun _ => rfl
    | cons entry entries ih =>
        intro i
        cases entry with
        | none => exact ih (i + 1)
        | some entry => simp only [searchEntries, hsame, ih]
  have hbucket := bucketIndex_eq_of_cmp lawful_scopeParams hcmp
  simp only [hashmapRemove, hashmapSearchBucket, hbucket, hsearch]

theorem Live.remove (hlive : Live s) (name : CString) :
    (∀ fuel s', varScopeRemoveMember fuel s name = some s' → Live s') ∧
      ∃ fuel s', varScopeRemoveMember fuel s name = some s' := by
  obtain ⟨m, hrep⟩ := hlive.wellFormed.sound
  have hreads := readsFreed_of_live hlive.alive name
  cases hsearch : hashmapSearchBucket scopeParams (s.members (bucketIndex scopeParams name)) name with
  | none =>
      have hremove : hashmapRemove scopeParams s.members name = some (s.members, false, []) := by
        simp only [hashmapRemove, hsearch]
      have hrun (fuel : Nat) : varScopeRemoveMember (fuel + 1) s name = some s := by
        rw [varScopeRemoveMember, hreads, hremove]
        rfl
      refine ⟨?_, 1, s, hrun 0⟩
      intro fuel s' hsome
      cases fuel with
      | zero => exact (Option.some_ne_none s' hsome.symm).elim
      | succ fuel =>
          obtain rfl := Option.some.inj ((hrun fuel).symm.trans hsome)
          exact hlive
  | some found =>
      obtain ⟨p, e⟩ := found
      obtain ⟨-, hat, hcmp⟩ := (hrep.exact _).search_some hsearch
      have he : e ∈ entriesOf s.members := mem_entriesOf_of_place hat
      have hsame (fuel : Nat) : varScopeRemoveMember fuel s name =
          varScopeRemoveMember fuel s e.name := by
        cases fuel with
        | zero => rfl
        | succ fuel =>
            rw [varScopeRemoveMember, varScopeRemoveMember, hreads,
              readsFreed_of_live hlive.alive, hashmapRemove_congr s.members hcmp]
            rfl
      simp only [hsame]
      obtain ⟨hkeeps, s', hrun⟩ := hlive.removePresent he
      exact ⟨hkeeps, _, s', hrun⟩

theorem Reaches.live (hreach : Reaches regexec s) : Live s := by
  induction hreach with
  | create => exact live_create
  | @step s s' fuel op hreach hstep ih =>
      cases op with
      | addVar name =>
          obtain ⟨s₁, hadd, hlive⟩ := ih.addMember name
            (fun t (h : MemberKind.var none = .var (some t)) => nomatch h)
          obtain rfl := Option.some.inj (hadd.symm.trans hstep)
          exact hlive
      | addTemplate name =>
          obtain ⟨s₁, hadd, hlive⟩ := ih.addMember name
            (fun t (h : MemberKind.template = .var (some t)) => nomatch h)
          obtain rfl := Option.some.inj (hadd.symm.trans hstep)
          exact hlive
      | tryGet name =>
          obtain ⟨s₁, hget, hlive⟩ := ih.tryGet regexec name
          obtain rfl := Option.some.inj (hget.symm.trans hstep)
          exact hlive
      | remove name => exact (ih.remove name).1 fuel s' hstep

/-- Nothing that is done to a scope fails. -/
theorem Reaches.step_succeeds (hreach : Reaches regexec s) (op : Op) :
    ∃ fuel s', scopeStep regexec fuel s op = some s' := by
  cases op with
  | addVar name =>
      obtain ⟨s', hadd, -⟩ := hreach.live.addMember name
            (fun t (h : MemberKind.var none = .var (some t)) => nomatch h)
      exact ⟨0, s', hadd⟩
  | addTemplate name =>
      obtain ⟨s', hadd, -⟩ := hreach.live.addMember name
            (fun t (h : MemberKind.template = .var (some t)) => nomatch h)
      exact ⟨0, s', hadd⟩
  | tryGet name =>
      obtain ⟨s', hget, -⟩ := hreach.live.tryGet regexec name
      exact ⟨0, s', hget⟩
  | remove name => exact (hreach.live.remove name).2

/-- What is done to a scope, one thing after the other. -/
def scopeRun (regexec : CString → CString → Bool) (fuel : Nat) (s : Members) (ops : List Op) :
    Option Members :=
  ops.foldlM (scopeStep regexec fuel) s

theorem Reaches.run {fuel : Nat} {ops : List Op}
    (hreach : Reaches regexec s) (hrun : scopeRun regexec fuel s ops = some s') :
    Reaches regexec s' := by
  induction ops generalizing s with
  | nil =>
      obtain rfl := Option.some.inj hrun
      exact hreach
  | cons op ops ih =>
      rw [scopeRun, List.foldlM_cons] at hrun
      obtain ⟨s₁, hfirst, hrest⟩ := Option.bind_eq_some_iff.mp hrun
      exact ih (hreach.step hfirst) hrest

/-- Matching with the regular expression `A.*`. -/
def sampleRegexec (template name : CString) : Bool :=
  template == "A.*".toList && name.head? == some 'A'

/-- The removal of a template that has an instance, after another member has been removed. -/
theorem step_succeeds_removeTemplate :
    ∃ s, scopeRun sampleRegexec 5 varScopeCreate [.addTemplate "A.*".toList, .tryGet "AB".toList,
        .addVar "FK".toList, .remove "fk".toList] = some s ∧
      s.instances 0 = [⟨1, "AB".toList, .var (some 0)⟩] ∧
      ∃ fuel s', scopeStep sampleRegexec fuel s (.remove "A.*".toList) = some s' := by
  have hsome : (scopeRun sampleRegexec 5 varScopeCreate [.addTemplate "A.*".toList, .tryGet "AB".toList,
      .addVar "FK".toList, .remove "fk".toList]).map (fun s => s.instances 0) =
        some [⟨1, "AB".toList, .var (some 0)⟩] := by
    decide +kernel
  obtain ⟨s, hrun, hinstances⟩ := Option.map_eq_some_iff.mp hsome
  exact ⟨s, hrun, hinstances, Reaches.step_succeeds (Reaches.create.run hrun) _⟩

end Live

end Scope
end Mkfli4l
