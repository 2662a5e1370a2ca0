import Mkfli4l.Container.HashMap

/-!
# Traversals during which the map changes

The visitor of `hashmap_foreach()` may put entries into the map and remove others while it is being
called; a visitor that evaluates the condition of a variable does, when the evaluation creates an
instance of a variable template.  The traversal keeps a pointer into the entries array of the
present bucket.  The array moves when `hashmap_put()` makes it longer, and then the pointer names a
place in memory that is not the array's any more.

The model takes the traversal step by step.  A step is one round of the inner loop, or the way from
one bucket to the next.
-/

namespace Mkfli4l

open Lib Function

variable {K E σ : Type} [DecidableEq E]

/-- What a visitor may do to the map. -/
inductive MapChange (K E : Type) where
  | put (entry : E)
  | remove (key : K)
deriving DecidableEq, Repr

/-- The map after a change, with the entries that are destroyed. -/
def applyChange (P : MapParams K E) (map : Hashmap P) : MapChange K E → Option (Hashmap P × List E)
  | .put entry => hashmapPut P map entry
  | .remove key => (hashmapRemove P map key).map fun result => (result.1, result.2.2)

/-- The map and what has happened to it: the entries destroyed so far, all maps so far, the entries
that have been put into the map and those that have been visited, each with the map and the
destroyed entries of that moment. -/
structure Course (P : MapParams K E) where
  map : Hashmap P
  destroyed : List E
  maps : List (Hashmap P)
  puts : List (E × List E)
  visits : List (E × Hashmap P × List E)

/-- A change in the course of a traversal. -/
def Course.change {P : MapParams K E} (c : Course P) (change : MapChange K E) :
    Option (Course P) :=
  (applyChange P c.map change).map fun result =>
    { map := result.1
      destroyed := c.destroyed ++ result.2
      maps := c.maps ++ [result.1]
      puts :=
        match change with
        | .put entry => c.puts ++ [(entry, c.destroyed)]
        | .remove _ => c.puts
      visits := c.visits }

/-- The changes that one call of the visitor makes. -/
def Course.changes {P : MapParams K E} (c : Course P) : List (MapChange K E) → Option (Course P)
  | [] => some c
  | change :: changes => (c.change change).bind fun c => c.changes changes

/-- A visitor: from the entry, its own data and the map it gets the changes it makes, its answer and
its new data. -/
abbrev Visitor (P : MapParams K E) (σ : Type) :=
  E → σ → Hashmap P → List (MapChange K E) × Bool × σ

/-- The local variables of `hashmap_foreach()`: the buckets that are left, the present one first, and
the pointer `p`, which names the block that `entries` had when the bucket was begun, and `j`. -/
structure ForeachState (P : MapParams K E) (σ : Type) where
  course : Course P
  data : σ
  buckets : List (Fin P.numBuckets)
  block : Nat
  position : Nat

/-- What a step leads to: a read through a pointer that does not point into the array, the end of
the function, or the next step. -/
inductive ForeachResult (P : MapParams K E) (σ : Type) where
  | stale
  | stop (result : Bool) (course : Course P)
  | next (state : ForeachState P σ)

/-- The beginning of a bucket. -/
def beginBucket {P : MapParams K E} (course : Course P) (data : σ)
    (buckets : List (Fin P.numBuckets)) : ForeachState P σ :=
  { course, data, buckets
    block := (buckets.head?.map fun i => (course.map i).block).getD 0
    position := 0 }

/-- The call of the visitor for an entry. -/
def callVisitor {P : MapParams K E} (visitor : Visitor P σ) (state : ForeachState P σ) (entry : E) :
    ForeachResult P σ :=
  let course := { state.course with
    visits := state.course.visits ++ [(entry, state.course.map, state.course.destroyed)] }
  let answer := visitor entry state.data course.map
  match course.changes answer.1 with
  | none => .stale
  | some course =>
      if answer.2.1 then
        .next { state with course, data := answer.2.2, position := state.position + 1 }
      else .stop false course

/-- One step of `hashmap_foreach()`. -/
def foreachStep {P : MapParams K E} (visitor : Visitor P σ) (state : ForeachState P σ) :
    ForeachResult P σ :=
  match state.buckets with
  | [] => .stop true state.course
  | i :: rest =>
      let bucket := state.course.map i
      if state.position < bucket.numAllocEntries then
        if state.block = bucket.block then
          match bucket.entries[state.position]? with
          | none => .stale
          | some none => .next { state with position := state.position + 1 }
          | some (some entry) => callVisitor visitor state entry
        else .stale
      else .next (beginBucket state.course state.data rest)

/-- The course of a traversal before its first step. -/
def Course.start {P : MapParams K E} (map : Hashmap P) : Course P :=
  { map, destroyed := [], maps := [map], puts := [], visits := [] }

/-- The first state of a traversal. -/
def foreachBegin {P : MapParams K E} (map : Hashmap P) (data : σ) : ForeachState P σ :=
  beginBucket (Course.start map) data (List.finRange P.numBuckets)

/-- `hashmap_foreach()` with at most `fuel` steps. -/
def foreachRun {P : MapParams K E} (visitor : Visitor P σ) :
    Nat → ForeachState P σ → Option (ForeachResult P σ)
  | 0, _ => none
  | fuel + 1, state =>
      match foreachStep visitor state with
      | .next state => foreachRun visitor fuel state
      | result => some result

/-- The states of a traversal. -/
inductive ForeachReaches {P : MapParams K E} (visitor : Visitor P σ) (map : Hashmap P) (data : σ) :
    ForeachState P σ → Prop
  | start : ForeachReaches visitor map data (foreachBegin map data)
  | step {state state' : ForeachState P σ} (h : ForeachReaches visitor map data state)
      (hstep : foreachStep visitor state = .next state') : ForeachReaches visitor map data state'

/-! ### What the visitor does in its calls -/

/-- A change that makes the entries array of a bucket longer: an entry with a new key for a bucket
without free places. -/
def Extends (P : MapParams K E) (map : Hashmap P) (i : Fin P.numBuckets) : MapChange K E → Prop
  | .put entry =>
      bucketIndex P (P.keyOf entry) = i ∧ hashmapSearchBucket P (map i) (P.keyOf entry) = none ∧
        (map i).numFreeEntries = 0
  | .remove _ => False

/-- Some change of a list makes the entries array of a bucket longer. -/
def ExtendsIn (P : MapParams K E) (i : Fin P.numBuckets) : Hashmap P → List (MapChange K E) → Prop
  | _, [] => False
  | map, change :: changes =>
      Extends P map i change ∨
        ∃ result, applyChange P map change = some result ∧ ExtendsIn P i result.1 changes

/-- The visitor is called in this state, makes the array of the present bucket longer and wants to
be called again. -/
def ExtendsPresentBucket {P : MapParams K E} (visitor : Visitor P σ) (state : ForeachState P σ) :
    Prop :=
  ∃ i rest entry, state.buckets = i :: rest ∧
    (state.course.map i).entries[state.position]? = some (some entry) ∧
    (visitor entry state.data state.course.map).2.1 = true ∧
    ExtendsIn P i state.course.map (visitor entry state.data state.course.map).1

/-- What is promised about the course of a traversal with this result: it visits entries of the map
only, and none that has been destroyed unless the visitor puts a destroyed entry into the map; and an
entry that is in the map all the time is visited once, or not at all if the visitor ends the
traversal. -/
def Course.Promised {P : MapParams K E} (c : Course P) (result : Bool) : Prop :=
  (∀ visit ∈ c.visits, visit.1 ∈ entriesOf visit.2.1) ∧
    ((∀ put ∈ c.puts, put.1 ∉ put.2) → ∀ visit ∈ c.visits, visit.1 ∉ visit.2.2) ∧
    ∀ entry, (∀ map ∈ c.maps, entry ∈ entriesOf map) →
      (c.visits.map Prod.fst).count entry ≤ 1 ∧
        (result = true → (c.visits.map Prod.fst).count entry = 1)

/-- A traversal ends without having read anything but the arrays of the map, and keeps what is
promised. -/
def ForeachSafe {P : MapParams K E} (visitor : Visitor P σ) (map : Hashmap P) (data : σ) : Prop :=
  ∃ fuel result course, foreachRun visitor fuel (foreachBegin map data) = some (.stop result course) ∧
    course.Promised result

/-! ### What a change does to the entries arrays -/

section Changes

variable {P : MapParams K E} {h : P.Lawful} {map map' : Hashmap P} {m : EntryMap P h}
  {change : MapChange K E} {destroyed : List E} {i : Fin P.numBuckets} {entry e : E} {key : K}

/-- What a change does to the bucket it is for. -/
inductive BucketChange (P : MapParams K E) (bucket bucket' : HashmapBucket E) :
    MapChange K E → Prop
  | same {change : MapChange K E} (hsame : bucket' = bucket) : BucketChange P bucket bucket' change
  | exchange {entry old : E} {j : Nat} (hat : bucket.entries[j]? = some (some old))
      (hcmp : P.cmp (P.keyOf entry) (P.keyOf old) = true) (hne : old ≠ entry)
      (hentries : bucket'.entries = bucket.entries.set j (some entry))
      (hblock : bucket'.block = bucket.block) : BucketChange P bucket bucket' (.put entry)
  | fill {entry : E} {j : Nat} (hgap : bucket.entries[j]? = some none)
      (hentries : bucket'.entries = bucket.entries.set j (some entry))
      (hblock : bucket'.block = bucket.block) : BucketChange P bucket bucket' (.put entry)
  | grow {entry : E} (hentries : bucket'.entries = bucket.entries ++ [some entry])
      (hblock : bucket'.block = bucket.block + 1) : BucketChange P bucket bucket' (.put entry)
  | release {key : K} {old : E} {j : Nat} (hat : bucket.entries[j]? = some (some old))
      (hcmp : P.cmp key (P.keyOf old) = true)
      (hentries : bucket'.entries = bucket.entries.set j none)
      (hblock : bucket'.block = bucket.block) : BucketChange P bucket bucket' (.remove key)

/-- The bucket that a change is for. -/
def changedBucket (P : MapParams K E) : MapChange K E → Fin P.numBuckets
  | .put entry => bucketIndex P (P.keyOf entry)
  | .remove key => bucketIndex P key

omit [DecidableEq E] in
theorem HashmapBucket.store_cases {bucket bucket' : HashmapBucket E} {p : EntryPointer}
    {value : Option E} (hstore : bucket.store p value = some bucket') :
    bucket' = { bucket with entries := bucket.entries.set p.position value } := by
  unfold HashmapBucket.store at hstore
  split at hstore
  · exact (Option.some.inj hstore).symm
  · exact nomatch hstore

theorem bucketPut_cases {bucket bucket' : HashmapBucket E} (hexact : bucket.FreeListExact)
    (hput : bucketPut P bucket entry = some (bucket', destroyed)) :
    BucketChange P bucket bucket' (.put entry) ∧
      (bucket'.block = bucket.block + 1 ↔
        hashmapSearchBucket P bucket (P.keyOf entry) = none ∧ bucket.numFreeEntries = 0) := by
  unfold bucketPut at hput
  cases hsearch : hashmapSearchBucket P bucket (P.keyOf entry) with
  | some found =>
      obtain ⟨p, old⟩ := found
      obtain ⟨-, hat, hcmp⟩ := hexact.search_some hsearch
      rw [hsearch] at hput
      dsimp only at hput
      split at hput
      · next hne =>
          obtain ⟨bucket₁, hstore, hresult⟩ := Option.map_eq_some_iff.mp hput
          obtain ⟨rfl, -⟩ := Prod.mk.inj hresult
          obtain rfl := HashmapBucket.store_cases hstore
          refine ⟨.exchange hat hcmp hne rfl rfl, ?_⟩
          simp
      · obtain ⟨rfl, -⟩ := Prod.mk.inj (Option.some.inj hput)
        refine ⟨.same rfl, ?_⟩
        simp
  | none =>
      rw [hsearch] at hput
      dsimp only at hput
      split at hput
      · next hfree =>
          split at hput
          · exact nomatch hput
          · next p free hfreeEntries =>
              obtain ⟨bucket₁, hstore, hresult⟩ := Option.map_eq_some_iff.mp hput
              obtain ⟨rfl, -⟩ := Prod.mk.inj hresult
              obtain rfl := HashmapBucket.store_cases hstore
              have hgap := ((hexact.mem_iff p).mp (by rw [hfreeEntries]; exact List.mem_cons_self)).2
              refine ⟨.fill hgap rfl rfl, ?_⟩
              simp only [Nat.left_eq_add, one_ne_zero, true_and, false_iff]
              omega
      · next hfree =>
          obtain ⟨rfl, -⟩ := Prod.mk.inj (Option.some.inj hput)
          refine ⟨.grow ?_ rfl, ?_⟩
          · rw [hexact.alloc, List.take_length]
          · simp only [true_and, true_iff]
            omega

theorem applyChange_cases (hexact : ∀ i, (map i).FreeListExact)
    (happly : applyChange P map change = some (map', destroyed)) :
    ∃ bucket', map' = update map (changedBucket P change) bucket' ∧
      BucketChange P (map (changedBucket P change)) bucket' change ∧
      (bucket'.block = (map (changedBucket P change)).block + 1 ↔
        Extends P map (changedBucket P change) change) := by
  cases change with
  | put entry =>
      obtain ⟨⟨bucket', taken⟩, hbucket, hresult⟩ := Option.map_eq_some_iff.mp happly
      obtain ⟨rfl, -⟩ := Prod.mk.inj hresult
      obtain ⟨hchange, hblock⟩ := bucketPut_cases (hexact _) hbucket
      refine ⟨bucket', rfl, hchange, hblock.trans ?_⟩
      exact ⟨fun hnew => ⟨rfl, hnew⟩, fun hextends => hextends.2⟩
  | remove key =>
      obtain ⟨⟨map₁, found, taken⟩, hremove, hresult⟩ := Option.map_eq_some_iff.mp happly
      obtain ⟨rfl, -⟩ := Prod.mk.inj hresult
      unfold hashmapRemove at hremove
      dsimp only at hremove
      split at hremove
      · next p old hsearch =>
          obtain ⟨bucket₁, hstore, hresult⟩ := Option.map_eq_some_iff.mp hremove
          obtain ⟨rfl, -⟩ := Prod.mk.inj hresult
          obtain ⟨-, hat, hcmp⟩ := (hexact _).search_some hsearch
          obtain rfl := HashmapBucket.store_cases hstore
          refine ⟨_, rfl, .release hat hcmp rfl rfl, ?_⟩
          simp [Extends, changedBucket]
      · obtain ⟨rfl, -⟩ := Prod.mk.inj (Option.some.inj hremove)
        refine ⟨map (bucketIndex P key), (update_eq_self _ _).symm, .same rfl, ?_⟩
        simp [Extends, changedBucket]

omit [DecidableEq E] in
theorem Extends.changedBucket_eq (hextends : Extends P map i change) :
    changedBucket P change = i := by
  cases change with
  | put entry => exact hextends.1
  | remove key => exact hextends.elim

theorem applyChange_block (hexact : ∀ i, (map i).FreeListExact)
    (happly : applyChange P map change = some (map', destroyed)) (i : Fin P.numBuckets) :
    Extends P map i change ∧ (map i).block < (map' i).block ∧
        (map i).entries.length < (map' i).entries.length ∨
      ¬ Extends P map i change ∧ (map' i).block = (map i).block ∧
        (map' i).entries.length = (map i).entries.length := by
  obtain ⟨bucket', rfl, hchange, hblock⟩ := applyChange_cases hexact happly
  by_cases hi : i = changedBucket P change
  · subst hi
    rw [update_self]
    have hkept {n : Nat} (hsame : bucket'.block = n) (hn : (map (changedBucket P change)).block = n) :
        ¬ Extends P map (changedBucket P change) change := by
      intro hextends
      have := hblock.mpr hextends
      omega
    cases hchange with
    | same hsame =>
        exact .inr ⟨hkept rfl (congrArg _ hsame.symm), congrArg _ hsame,
          congrArg (fun b => b.entries.length) hsame⟩
    | exchange _ _ _ hentries hsame =>
        exact .inr ⟨hkept hsame rfl, hsame, by rw [hentries, List.length_set]⟩
    | fill _ hentries hsame =>
        exact .inr ⟨hkept hsame rfl, hsame, by rw [hentries, List.length_set]⟩
    | grow hentries hgrown =>
        refine .inl ⟨hblock.mp hgrown, by omega, ?_⟩
        rw [hentries, List.length_append, List.length_singleton]
        omega
    | release _ _ hentries hsame =>
        exact .inr ⟨hkept hsame rfl, hsame, by rw [hentries, List.length_set]⟩
  · rw [update_of_ne hi]
    refine .inr ⟨?_, rfl, rfl⟩
    exact fun hextends => hi hextends.changedBucket_eq.symm

/-- What a change does to the map from key classes to entries. -/
def EntryMap.afterChange (m : EntryMap P h) : MapChange K E → EntryMap P h
  | .put entry => update m (entryClass P h entry) (some entry)
  | .remove key => update m (keyClass P h key) none

/-- The entries that a change destroys. -/
def EntryMap.destroyedBy (m : EntryMap P h) : MapChange K E → List E
  | .put entry => destroyedByPut P (m (entryClass P h entry)) entry
  | .remove key => destroyedByRemove P (m (keyClass P h key))

theorem Represents.applyChange (hrep : Represents h map m) (change : MapChange K E) :
    ∃ map', Mkfli4l.applyChange P map change = some (map', m.destroyedBy change) ∧
      Represents h map' (m.afterChange change) := by
  cases change with
  | put entry => exact hrep.put entry
  | remove key =>
      obtain ⟨map', hremove, hrep'⟩ := hrep.remove key
      refine ⟨map', ?_, hrep'⟩
      rw [Mkfli4l.applyChange, hremove]
      rfl

omit [DecidableEq E] in
theorem Represents.mem_iff (hrep : Represents h map m) :
    e ∈ entriesOf map ↔ m (entryClass P h e) = some e := by
  rw [hrep.lists.mem_iff]
  exact ⟨fun hmem => ⟨hmem, rfl⟩, fun hmem => hmem.1⟩

theorem Represents.destroyedBy_not_mem (hrep : Represents h map m)
    (hrep' : Represents h map' (m.afterChange change)) (he : e ∈ m.destroyedBy change) :
    e ∉ entriesOf map' := by
  rw [hrep'.mem_iff]
  cases change with
  | put entry =>
      have hold : m (entryClass P h entry) = some e ∧ e ≠ entry := by
        simp only [EntryMap.destroyedBy, destroyedByPut] at he
        split at he
        · simpa using he
        · exact absurd he List.not_mem_nil
      have hclass : entryClass P h e = entryClass P h entry :=
        ((hrep.lists.mem_iff e _).mp hold.1).2
      rw [EntryMap.afterChange, hclass, update_self]
      exact fun heq => hold.2 (Option.some.inj heq).symm
  | remove key =>
      have hold : m (keyClass P h key) = some e := by
        simp only [EntryMap.destroyedBy, destroyedByRemove] at he
        split at he
        · simpa using he
        · exact absurd he List.not_mem_nil
      have hclass : entryClass P h e = keyClass P h key :=
        ((hrep.lists.mem_iff e _).mp hold).2
      rw [EntryMap.afterChange, hclass, update_self]
      exact (Option.some_ne_none e).symm

omit [DecidableEq E] in
theorem Represents.mem_of_mem_after (hrep : Represents h map m)
    (hrep' : Represents h map' (m.afterChange change)) (he : e ∈ entriesOf map') :
    e ∈ entriesOf map ∨ change = .put e := by
  rw [hrep'.mem_iff] at he
  rw [hrep.mem_iff]
  cases change with
  | put entry =>
      by_cases hclass : entryClass P h e = entryClass P h entry
      · rw [EntryMap.afterChange, hclass, update_self] at he
        rw [Option.some.inj he]
        exact .inr rfl
      · rw [EntryMap.afterChange, update_of_ne hclass] at he
        exact .inl he
  | remove key =>
      by_cases hclass : entryClass P h e = keyClass P h key
      · rw [EntryMap.afterChange, hclass, update_self] at he
        exact nomatch he
      · rw [EntryMap.afterChange, update_of_ne hclass] at he
        exact .inl he

theorem Represents.place (hrep : Represents h map m)
    (hrep' : Represents h map' (m.afterChange change))
    (happly : Mkfli4l.applyChange P map change = some (map', destroyed)) {j : Nat}
    (hplace : (map i).entries[j]? = some (some e)) (he : e ∈ entriesOf map') :
    (map' i).entries[j]? = some (some e) := by
  have hafter := hrep'.mem_iff.mp he
  obtain ⟨bucket', hmap', hchange, -⟩ := applyChange_cases hrep.exact happly
  by_cases hi : i = changedBucket P change
  · subst hi
    rw [hmap', update_self]
    cases hchange with
    | same hsame => rw [hsame, hplace]
    | @exchange entry old j' hat hcmp hne hentries hblock =>
        have hj : j' ≠ j := by
          rintro rfl
          obtain rfl := Option.some.inj (Option.some.inj (hat.symm.trans hplace))
          -- the entry has made way for another one of its key
          have hclass : entryClass P h old = entryClass P h entry := (keyClass_eq_iff.mpr hcmp).symm
          rw [EntryMap.afterChange, hclass, update_self] at hafter
          exact hne (Option.some.inj hafter).symm
        rw [hentries, List.getElem?_set_ne hj, hplace]
    | @fill entry j' hgap hentries hblock =>
        have hj : j' ≠ j := by
          rintro rfl
          exact nomatch hgap.symm.trans hplace
        rw [hentries, List.getElem?_set_ne hj, hplace]
    | grow hentries hblock =>
        rw [hentries, List.getElem?_append_left (List.getElem?_eq_some_iff.mp hplace).1, hplace]
    | @release key old j' hat hcmp hentries hblock =>
        have hj : j' ≠ j := by
          rintro rfl
          obtain rfl := Option.some.inj (Option.some.inj (hat.symm.trans hplace))
          have hclass : entryClass P h old = keyClass P h key := (keyClass_eq_iff.mpr hcmp).symm
          rw [EntryMap.afterChange, hclass, update_self] at hafter
          exact nomatch hafter
        rw [hentries, List.getElem?_set_ne hj, hplace]
  · rw [hmap', update_of_ne hi, hplace]

omit [DecidableEq E] in
theorem Represents.place_unique (hrep : Represents h map m) {i' : Fin P.numBuckets} {j j' : Nat}
    (hplace : (map i).entries[j]? = some (some e))
    (hplace' : (map i').entries[j']? = some (some e)) : i = i' ∧ j = j' := by
  have hi : i = i' :=
    (hrep.home i e (List.mem_of_getElem? hplace)).symm.trans
      (hrep.home i' e (List.mem_of_getElem? hplace'))
  subst hi
  refine ⟨rfl, ?_⟩
  by_contra hj
  have hnodup := (List.nodup_flatMap.mp hrep.lists.nodup).1 i (List.mem_finRange i)
  rw [(reduceOption_perm hplace).nodup_iff, Option.toList_some, List.singleton_append,
    List.nodup_cons] at hnodup
  have hrest := reduceOption_set_perm none (List.getElem?_eq_some_iff.mp hplace).1
  rw [Option.toList_none, List.nil_append] at hrest
  apply hnodup.1
  rw [← hrest.mem_iff, List.reduceOption_mem_iff]
  exact List.mem_of_getElem? ((List.getElem?_set_ne hj).trans hplace')

omit [DecidableEq E] in
theorem mem_entriesOf_of_place {j : Nat} (hplace : (map i).entries[j]? = some (some e)) :
    e ∈ entriesOf map :=
  List.mem_flatMap.mpr ⟨i, List.mem_finRange i,
    List.reduceOption_mem_iff.mpr (List.mem_of_getElem? hplace)⟩

omit [DecidableEq E] in
theorem exists_place (he : e ∈ entriesOf map) :
    ∃ (i : Fin P.numBuckets) (j : Nat), (map i).entries[j]? = some (some e) := by
  obtain ⟨i, -, hmem⟩ := List.mem_flatMap.mp he
  obtain ⟨j, hplace⟩ := List.mem_iff_getElem?.mp (List.reduceOption_mem_iff.mp hmem)
  exact ⟨i, j, hplace⟩

end Changes

/-! ### The course of a traversal -/

section Courses

variable {P : MapParams K E} {c c' : Course P} {change : MapChange K E}
  {changes : List (MapChange K E)} {e : E}

/-- What holds of the map at any time, and of what has happened to it. -/
structure Course.Sound (h : P.Lawful) (c : Course P) : Prop where
  represents : ∃ m, Represents h c.map m
  present : c.map ∈ c.maps
  visited : ∀ visit ∈ c.visits, visit.1 ∈ entriesOf visit.2.1
  gone : (∀ put ∈ c.puts, put.1 ∉ put.2) → ∀ e ∈ c.destroyed, e ∉ entriesOf c.map
  alive : (∀ put ∈ c.puts, put.1 ∉ put.2) → ∀ visit ∈ c.visits, visit.1 ∉ visit.2.2

/-- What changes leave as it is: the visits so far, and the places of the entries that stay. -/
structure Course.Leads (c c' : Course P) : Prop where
  visits : c'.visits = c.visits
  maps : ∀ map ∈ c.maps, map ∈ c'.maps
  place : ∀ e, (∀ map ∈ c'.maps, e ∈ entriesOf map) → ∀ (i : Fin P.numBuckets) (j : Nat),
    (c.map i).entries[j]? = some (some e) → (c'.map i).entries[j]? = some (some e)

theorem Course.change_sound {h : P.Lawful} (hsound : c.Sound h) (change : MapChange K E) :
    ∃ c' destroyed, c.change change = some c' ∧
      applyChange P c.map change = some (c'.map, destroyed) ∧ c'.Sound h ∧ c.Leads c' := by
  obtain ⟨m, hrep⟩ := hsound.represents
  obtain ⟨map', happly, hrep'⟩ := hrep.applyChange change
  have hputs : ∀ put ∈ c.puts, put ∈
      (match change with | .put entry => c.puts ++ [(entry, c.destroyed)] | .remove _ => c.puts) := by
    intro put hput
    cases change with
    | put entry => exact List.mem_append_left _ hput
    | remove key => exact hput
  refine ⟨_, _, congrArg _ happly, happly, ?_, ?_⟩
  · refine ⟨⟨_, hrep'⟩, List.mem_append_right _ (List.mem_singleton_self _), hsound.visited, ?_, ?_⟩
    · intro hfresh e he hmem
      have hfresh' := fun put hput => hfresh put (hputs put hput)
      rcases List.mem_append.mp he with hold | hnew
      · rcases hrep.mem_of_mem_after hrep' hmem with hmem | rfl
        · exact hsound.gone hfresh' e hold hmem
        · exact hfresh (e, c.destroyed) (List.mem_append_right _ (List.mem_singleton_self _)) hold
      · exact hrep.destroyedBy_not_mem hrep' hnew hmem
    · exact fun hfresh => hsound.alive fun put hput => hfresh put (hputs put hput)
  · refine ⟨rfl, fun map hmap => List.mem_append_left _ hmap, ?_⟩
    intro e hall i j hplace
    exact hrep.place hrep' happly hplace
      (hall map' (List.mem_append_right _ (List.mem_singleton_self _)))

omit [DecidableEq E] in
theorem Course.Leads.refl (c : Course P) : c.Leads c :=
  ⟨rfl, fun _ hmap => hmap, fun _ _ _ _ hplace => hplace⟩

omit [DecidableEq E] in
theorem Course.Leads.trans {c₁ c₂ c₃ : Course P} (h₁ : c₁.Leads c₂) (h₂ : c₂.Leads c₃) :
    c₁.Leads c₃ := by
  refine ⟨h₂.visits.trans h₁.visits, fun map hmap => h₂.maps map (h₁.maps map hmap), ?_⟩
  intro e hall i j hplace
  exact h₂.place e hall i j (h₁.place e (fun map hmap => hall map (h₂.maps map hmap)) i j hplace)

theorem Course.changes_sound {h : P.Lawful} (hsound : c.Sound h) (changes : List (MapChange K E)) :
    ∃ c', c.changes changes = some c' ∧ c'.Sound h ∧ c.Leads c' ∧ ∀ i,
      ExtendsIn P i c.map changes ∧ (c.map i).block < (c'.map i).block ∧
          (c.map i).entries.length < (c'.map i).entries.length ∨
        ¬ ExtendsIn P i c.map changes ∧ (c'.map i).block = (c.map i).block ∧
          (c'.map i).entries.length = (c.map i).entries.length := by
  induction changes generalizing c with
  | nil => exact ⟨c, rfl, hsound, .refl c, fun i => .inr ⟨fun hextends => hextends, rfl, rfl⟩⟩
  | cons change changes ih =>
      obtain ⟨c₁, destroyed, hchange, happly, hsound₁, hleads₁⟩ := c.change_sound hsound change
      obtain ⟨c₂, hchanges, hsound₂, hleads₂, hblocks⟩ := ih hsound₁
      refine ⟨c₂, by rw [Course.changes, hchange, Option.bind_some, hchanges], hsound₂,
        hleads₁.trans hleads₂, fun i => ?_⟩
      have hextends : ExtendsIn P i c.map (change :: changes) ↔
          Extends P c.map i change ∨ ExtendsIn P i c₁.map changes := by
        simp only [ExtendsIn, happly, Option.some.injEq, exists_eq_left']
      obtain ⟨m, hrep⟩ := hsound.represents
      rw [hextends]
      rcases applyChange_block hrep.exact happly i with ⟨h₁, hb₁, hl₁⟩ | ⟨h₁, hb₁, hl₁⟩
      · refine .inl ⟨.inl h₁, ?_⟩
        rcases hblocks i with ⟨-, hb₂, hl₂⟩ | ⟨-, hb₂, hl₂⟩ <;> omega
      · rcases hblocks i with ⟨h₂, hb₂, hl₂⟩ | ⟨h₂, hb₂, hl₂⟩
        · exact .inl ⟨.inr h₂, by omega, by omega⟩
        · refine .inr ⟨fun hor => hor.elim h₁ h₂, by omega, by omega⟩

end Courses

/-! ### The traversal -/

section Traversal

variable {P : MapParams K E} {visitor : Visitor P σ} {map : Hashmap P} {data : σ}
  {state state' : ForeachState P σ} {i : Fin P.numBuckets} {rest : List (Fin P.numBuckets)} {e : E}

/-- The traversal has passed a place. -/
def ForeachState.Passed (state : ForeachState P σ) (i : Fin P.numBuckets) (j : Nat) : Prop :=
  i ∉ state.buckets ∨ state.buckets.head? = some i ∧ j < state.position

/-- How often an entry has been visited. -/
def Course.timesVisited (c : Course P) (e : E) : Nat := (c.visits.map Prod.fst).count e

/-- The invariant of the traversal: the entries that stay in the map have been visited once if
their place has been passed, and have not been visited otherwise. -/
structure ForeachState.Sound (h : P.Lawful) (state : ForeachState P σ) : Prop where
  course : state.course.Sound h
  nodup : state.buckets.Nodup
  once : ∀ e, (∀ map ∈ state.course.maps, e ∈ entriesOf map) →
    ∀ (i : Fin P.numBuckets) (j : Nat), (state.course.map i).entries[j]? = some (some e) →
      state.Passed i j ∧ state.course.timesVisited e = 1 ∨
        ¬ state.Passed i j ∧ state.course.timesVisited e = 0

/-- The pointer `p` points into the present bucket, or just behind it. -/
def ForeachState.Current (state : ForeachState P σ) : Prop :=
  ∀ i rest, state.buckets = i :: rest →
    state.block = (state.course.map i).block ∧
      state.position ≤ (state.course.map i).entries.length

/-- The entries of the present bucket that are left. -/
def ForeachState.left (state : ForeachState P σ) : Nat :=
  match state.buckets with
  | [] => 0
  | i :: _ => (state.course.map i).entries.length - state.position

theorem foreachBegin_sound {h : P.Lawful} {m : EntryMap P h} (hrep : Represents h map m)
    (data : σ) : (foreachBegin map data).Sound h := by
  refine ⟨⟨⟨m, hrep⟩, List.mem_singleton_self _, ?_, ?_, ?_⟩, List.nodup_finRange _, ?_⟩
  · exact nofun
  · exact fun _ => nofun
  · exact fun _ => nofun
  · intro e _ i j _
    refine .inr ⟨?_, rfl⟩
    rintro (hnot | ⟨-, hlt⟩)
    · exact hnot (List.mem_finRange i)
    · exact Nat.not_lt_zero j hlt

omit [DecidableEq E] in
theorem beginBucket_current (course : Course P) (data : σ) (buckets : List (Fin P.numBuckets)) :
    (beginBucket course data buckets).Current := by
  intro i rest hbuckets
  obtain rfl : buckets = i :: rest := hbuckets
  exact ⟨rfl, Nat.zero_le _⟩

theorem ForeachState.Sound.advance {h : P.Lawful} (hsound : state.Sound h)
    (hbuckets : state.buckets = i :: rest)
    (hend : (state.course.map i).entries.length ≤ state.position) :
    (beginBucket state.course state.data rest).Sound h := by
  obtain ⟨hout, hnodup⟩ := List.nodup_cons.mp (hbuckets ▸ hsound.nodup)
  refine ⟨hsound.course, hnodup, ?_⟩
  intro e hall i' j hplace
  have hpassed : (beginBucket state.course state.data rest).Passed i' j ↔ state.Passed i' j := by
    simp only [ForeachState.Passed, beginBucket, hbuckets, List.mem_cons, List.head?_cons,
      Nat.not_lt_zero, and_false, or_false, Option.some.injEq, not_or]
    constructor
    · intro hnot
      by_cases hi : i' = i
      · subst hi
        have hlt : j < (state.course.map i').entries.length := (List.getElem?_eq_some_iff.mp hplace).1
        exact .inr ⟨rfl, by omega⟩
      · exact .inl ⟨hi, hnot⟩
    · rintro (⟨-, hnot⟩ | ⟨rfl, -⟩)
      · exact hnot
      · exact hout
  rw [hpassed]
  exact hsound.once e hall i' j hplace

theorem ForeachState.Sound.skip {h : P.Lawful} (hsound : state.Sound h)
    (hbuckets : state.buckets = i :: rest)
    (hgap : (state.course.map i).entries[state.position]? = some none) :
    ({ state with position := state.position + 1 } : ForeachState P σ).Sound h := by
  refine ⟨hsound.course, hsound.nodup, ?_⟩
  intro e hall i' j hplace
  have hpassed : ({ state with position := state.position + 1 } : ForeachState P σ).Passed i' j ↔
      state.Passed i' j := by
    have hne : i = i' → j ≠ state.position := by
      rintro rfl rfl
      exact nomatch hgap.symm.trans hplace
    simp only [ForeachState.Passed, hbuckets, List.head?_cons, Option.some.injEq]
    refine or_congr_right (and_congr_right fun hi => ?_)
    have := hne hi
    omega
  rw [hpassed]
  exact hsound.once e hall i' j hplace

theorem ForeachState.Sound.call {h : P.Lawful} (hsound : state.Sound h)
    (hbuckets : state.buckets = i :: rest)
    (hplace : (state.course.map i).entries[state.position]? = some (some e)) {course : Course P}
    (hcourse : course.Sound h) (data : σ)
    (hleads : Course.Leads { state.course with
      visits := state.course.visits ++ [(e, state.course.map, state.course.destroyed)] } course) :
    ({ state with course, data, position := state.position + 1 } : ForeachState P σ).Sound h := by
  refine ⟨hcourse, hsound.nodup, ?_⟩
  intro e' hall i' j hplace'
  obtain ⟨m, hrep⟩ := hsound.course.represents
  obtain ⟨m', hrep'⟩ := hcourse.represents
  have hall' : ∀ map ∈ state.course.maps, e' ∈ entriesOf map :=
    fun map hmap => hall map (hleads.maps map hmap)
  -- the entry was in the same place before the call
  obtain ⟨i₀, j₀, hplace₀⟩ := exists_place (hall' _ hsound.course.present)
  obtain ⟨rfl, rfl⟩ := hrep'.place_unique (hleads.place e' hall i₀ j₀ hplace₀) hplace'
  have htimes : course.timesVisited e' =
      state.course.timesVisited e' + if e = e' then 1 else 0 := by
    simp only [Course.timesVisited, hleads.visits, List.map_append, List.map_cons, List.map_nil,
      List.count_append, List.count_singleton, beq_iff_eq]
  have hbefore := hsound.once e' hall' i₀ j₀ hplace₀
  simp only [ForeachState.Passed, hbuckets, List.mem_cons, List.head?_cons, Option.some.injEq,
    htimes] at hbefore ⊢
  have hnot : i ∉ rest := (List.nodup_cons.mp (hbuckets ▸ hsound.nodup)).1
  by_cases he : e = e'
  · subst he
    obtain ⟨rfl, rfl⟩ := hrep.place_unique hplace hplace₀
    simp at hbefore ⊢
    exact hbefore
  · have hne : i = i₀ → j₀ ≠ state.position := by
      rintro rfl rfl
      exact he (Option.some.inj (Option.some.inj (hplace.symm.trans hplace₀)))
    have hlt : (i = i₀ ∧ j₀ < state.position + 1) ↔ (i = i₀ ∧ j₀ < state.position) := by
      refine and_congr_right fun hi => ?_
      have := hne hi
      omega
    rw [if_neg he, Nat.add_zero, hlt]
    exact hbefore

theorem ForeachState.Sound.promised {h : P.Lawful} (hsound : state.Sound h) {result : Bool}
    (hend : result = true → state.buckets = []) : state.course.Promised result := by
  refine ⟨hsound.course.visited, hsound.course.alive, ?_⟩
  intro e hall
  obtain ⟨i, j, hplace⟩ := exists_place (hall _ hsound.course.present)
  have honce := hsound.once e hall i j hplace
  rw [Course.timesVisited] at honce
  refine ⟨by omega, fun hresult => ?_⟩
  have hpassed : state.Passed i j := .inl (by rw [hend hresult]; exact List.not_mem_nil)
  rcases honce with ⟨-, htimes⟩ | ⟨hnot, -⟩
  · exact htimes
  · exact absurd hpassed hnot

/-- A call in the course of a sound traversal: the visitor gets an entry of the map, and the next
state is as sound as this one.  The pointer stays good unless the call makes the array longer. -/
theorem callVisitor_sound {h : P.Lawful} (hsound : state.Sound h)
    (hbuckets : state.buckets = i :: rest)
    (hplace : (state.course.map i).entries[state.position]? = some (some e)) :
    ∃ state', state'.Sound h ∧ state'.buckets = state.buckets ∧ state'.block = state.block ∧
      state'.position = state.position + 1 ∧
      callVisitor visitor state e =
        (if (visitor e state.data state.course.map).2.1 then .next state'
          else .stop false state'.course) ∧
      (ExtendsIn P i state.course.map (visitor e state.data state.course.map).1 ∧
          (state.course.map i).block < (state'.course.map i).block ∧
          (state.course.map i).entries.length < (state'.course.map i).entries.length ∨
        ¬ ExtendsIn P i state.course.map (visitor e state.data state.course.map).1 ∧
          (state'.course.map i).block = (state.course.map i).block ∧
          (state'.course.map i).entries.length = (state.course.map i).entries.length) := by
  let visited : Course P := { state.course with
    visits := state.course.visits ++ [(e, state.course.map, state.course.destroyed)] }
  have hvisited : visited.Sound h := by
    have hmem := mem_entriesOf_of_place hplace
    refine ⟨hsound.course.represents, hsound.course.present, ?_, hsound.course.gone, ?_⟩
    · intro visit hvisit
      rcases List.mem_append.mp hvisit with hvisit | hvisit
      · exact hsound.course.visited visit hvisit
      · rw [List.mem_singleton.mp hvisit]
        exact hmem
    · intro hfresh visit hvisit
      rcases List.mem_append.mp hvisit with hvisit | hvisit
      · exact hsound.course.alive hfresh visit hvisit
      · rw [List.mem_singleton.mp hvisit]
        exact fun hgone => hsound.course.gone hfresh e hgone hmem
  obtain ⟨course, hchanges, hcourse, hleads, hblocks⟩ :=
    visited.changes_sound hvisited (visitor e state.data state.course.map).1
  refine ⟨_, hsound.call hbuckets hplace hcourse (visitor e state.data state.course.map).2.2 hleads,
    rfl, rfl, rfl, ?_, hblocks i⟩
  simp only [callVisitor]
  rw [show Course.changes _ _ = some course from hchanges]

theorem foreachStep_end (hbuckets : state.buckets = i :: rest)
    (hend : (state.course.map i).numAllocEntries ≤ state.position) :
    foreachStep visitor state = .next (beginBucket state.course state.data rest) := by
  obtain ⟨course, data, buckets, block, position⟩ := state
  obtain rfl : buckets = i :: rest := hbuckets
  exact if_neg (Nat.not_lt.mpr hend)

theorem foreachStep_stale (hbuckets : state.buckets = i :: rest)
    (hlt : state.position < (state.course.map i).numAllocEntries)
    (hblock : state.block ≠ (state.course.map i).block) :
    foreachStep visitor state = .stale := by
  obtain ⟨course, data, buckets, block, position⟩ := state
  obtain rfl : buckets = i :: rest := hbuckets
  exact (if_pos hlt).trans (if_neg hblock)

theorem foreachStep_gap (hbuckets : state.buckets = i :: rest)
    (hlt : state.position < (state.course.map i).numAllocEntries)
    (hblock : state.block = (state.course.map i).block)
    (hgap : (state.course.map i).entries[state.position]? = some none) :
    foreachStep visitor state = .next { state with position := state.position + 1 } := by
  obtain ⟨course, data, buckets, block, position⟩ := state
  obtain rfl : buckets = i :: rest := hbuckets
  dsimp only at hlt hblock hgap
  simp only [foreachStep, hgap, if_pos hlt, if_pos hblock]

theorem foreachStep_entry (hbuckets : state.buckets = i :: rest)
    (hlt : state.position < (state.course.map i).numAllocEntries)
    (hblock : state.block = (state.course.map i).block)
    (hplace : (state.course.map i).entries[state.position]? = some (some e)) :
    foreachStep visitor state = callVisitor visitor state e := by
  obtain ⟨course, data, buckets, block, position⟩ := state
  obtain rfl : buckets = i :: rest := hbuckets
  dsimp only at hlt hblock hplace
  simp only [foreachStep, hplace, if_pos hlt, if_pos hblock]

/-- One step of a traversal whose pointer is good and whose visitor does not make the array of the
present bucket longer. -/
theorem foreachStep_sound {h : P.Lawful} (hsound : state.Sound h) (hcurrent : state.Current)
    (hkeeps : ¬ ExtendsPresentBucket visitor state) :
    (∃ result course, foreachStep visitor state = .stop result course ∧ course.Promised result) ∨
      ∃ state', foreachStep visitor state = .next state' ∧ state'.Sound h ∧ state'.Current ∧
        (state'.buckets.length < state.buckets.length ∨
          state'.buckets.length = state.buckets.length ∧ state'.left < state.left) := by
  cases hbuckets : state.buckets with
  | nil =>
      refine .inl ⟨true, state.course, ?_, hsound.promised fun _ => hbuckets⟩
      simp only [foreachStep, hbuckets]
  | cons i rest =>
      obtain ⟨hblock, hposition⟩ := hcurrent i rest hbuckets
      obtain ⟨m, hrep⟩ := hsound.course.represents
      have halloc := (hrep.exact i).alloc
      by_cases hlt : state.position < (state.course.map i).numAllocEntries
      · obtain ⟨place, hplace⟩ :
            ∃ place, (state.course.map i).entries[state.position]? = some place :=
          ⟨_, List.getElem?_eq_getElem (halloc ▸ hlt)⟩
        cases place with
        | none =>
            refine .inr ⟨_, foreachStep_gap hbuckets hlt hblock hplace,
              hsound.skip hbuckets hplace, ?_, .inr ⟨congrArg _ hbuckets, ?_⟩⟩
            · intro i' rest' hbuckets'
              obtain ⟨rfl, -⟩ := List.cons.inj (hbuckets.symm.trans hbuckets')
              exact ⟨hblock, by simp only; omega⟩
            · simp only [ForeachState.left, hbuckets]
              omega
        | some e =>
            obtain ⟨state', hsound', hbuckets', hblock', hposition', hcall, hextends⟩ :=
              callVisitor_sound hsound hbuckets hplace
            rw [foreachStep_entry hbuckets hlt hblock hplace, hcall]
            by_cases hanswer : (visitor e state.data state.course.map).2.1 = true
            · rw [if_pos hanswer]
              obtain ⟨hext, -⟩ | ⟨-, hblock'', hlength⟩ := hextends
              · exact absurd ⟨i, rest, e, hbuckets, hplace, hanswer, hext⟩ hkeeps
              refine .inr ⟨state', rfl, hsound', ?_, .inr ⟨by rw [hbuckets', hbuckets], ?_⟩⟩
              · intro i' rest' hcons
                obtain ⟨rfl, -⟩ := List.cons.inj ((hbuckets'.trans hbuckets).symm.trans hcons)
                rw [hblock', hblock'', hposition', hlength]
                exact ⟨hblock, by omega⟩
              · simp only [ForeachState.left, hbuckets', hbuckets, hposition', hlength]
                omega
            · rw [if_neg hanswer]
              exact .inl ⟨false, _, rfl, hsound'.promised nofun⟩
      · refine .inr ⟨_, foreachStep_end hbuckets (by omega), hsound.advance hbuckets (by omega),
          beginBucket_current _ _ _, .inl ?_⟩
        simp [beginBucket]

theorem ForeachReaches.sound_or {h : P.Lawful} {m : EntryMap P h} (hrep : Represents h map m)
    (hreach : ForeachReaches visitor map data state) :
    (state.Sound h ∧ state.Current) ∨
      ∃ state₀, ForeachReaches visitor map data state₀ ∧ state₀.Sound h ∧ state₀.Current ∧
        ExtendsPresentBucket visitor state₀ := by
  induction hreach with
  | start => exact .inl ⟨foreachBegin_sound hrep data, beginBucket_current _ _ _⟩
  | @step state state' hreach hstep ih =>
      rcases ih with ⟨hsound, hcurrent⟩ | hextended
      · by_cases hextends : ExtendsPresentBucket visitor state
        · exact .inr ⟨state, hreach, hsound, hcurrent, hextends⟩
        · rcases foreachStep_sound hsound hcurrent hextends with
            ⟨_, _, hstop, -⟩ | ⟨_, hnext, hsound', hcurrent', -⟩
          · exact nomatch hstop.symm.trans hstep
          · obtain rfl := ForeachResult.next.inj (hnext.symm.trans hstep)
            exact .inl ⟨hsound', hcurrent'⟩
      · exact .inr hextended

theorem ForeachReaches.ends {state : ForeachState P σ} {h : P.Lawful} {m : EntryMap P h}
    (hrep : Represents h map m)
    (hkeeps : ∀ state, ForeachReaches visitor map data state →
      ¬ ExtendsPresentBucket visitor state)
    (hreach : ForeachReaches visitor map data state) :
    ∃ fuel result course, foreachRun visitor fuel state = some (.stop result course) ∧
      course.Promised result := by
  obtain ⟨hsound, hcurrent⟩ | ⟨state₀, hreach₀, -, -, hextends⟩ := hreach.sound_or hrep
  case inr => exact absurd hextends (hkeeps state₀ hreach₀)
  rcases foreachStep_sound hsound hcurrent (hkeeps _ hreach) with
    ⟨result, course, hstop, hpromised⟩ | ⟨state', hstep, -, -, hless⟩
  · exact ⟨1, result, course, by simp only [foreachRun, hstop], hpromised⟩
  · obtain ⟨fuel, result, course, hrun, hpromised⟩ :=
      ForeachReaches.ends hrep hkeeps (hreach.step hstep)
    exact ⟨fuel + 1, result, course, by simp only [foreachRun, hstep, hrun], hpromised⟩
termination_by (state.buckets.length, state.left)
decreasing_by
  rcases hless with hless | ⟨heq, hless⟩
  · exact .left _ _ hless
  · rw [heq]
    exact .right _ hless

theorem ForeachReaches.run {fuel : Nat} {result : ForeachResult P σ}
    (hrun : foreachRun visitor fuel (foreachBegin map data) = some result)
    (hreach : ForeachReaches visitor map data state) :
    ∃ fuel, foreachRun visitor fuel state = some result := by
  induction hreach with
  | start => exact ⟨fuel, hrun⟩
  | step hreach hstep ih =>
      obtain ⟨_ | fuel, hrun⟩ := ih
      · exact nomatch hrun
      · simp only [foreachRun, hstep] at hrun
        exact ⟨fuel, hrun⟩

theorem foreachStep_extends {h : P.Lawful} (hsound : state.Sound h) (hcurrent : state.Current)
    (hextends : ExtendsPresentBucket visitor state) :
    ∃ state', foreachStep visitor state = .next state' ∧ foreachStep visitor state' = .stale := by
  obtain ⟨i, rest, e, hbuckets, hplace, hanswer, hextends⟩ := hextends
  obtain ⟨m, hrep⟩ := hsound.course.represents
  obtain ⟨hblock, -⟩ := hcurrent i rest hbuckets
  have hlength := (List.getElem?_eq_some_iff.mp hplace).1
  have hlt : state.position < (state.course.map i).numAllocEntries := by
    rw [(hrep.exact i).alloc]
    exact hlength
  obtain ⟨state', hsound', hbuckets', hblock', hposition', hcall, hlonger⟩ :=
    callVisitor_sound hsound hbuckets hplace
  obtain ⟨-, hmoved, hlonger⟩ | ⟨hnot, -⟩ := hlonger
  case inr => exact absurd hextends hnot
  rw [if_pos hanswer] at hcall
  refine ⟨state', (foreachStep_entry hbuckets hlt hblock hplace).trans hcall, ?_⟩
  obtain ⟨m', hrep'⟩ := hsound'.course.represents
  refine foreachStep_stale (hbuckets'.trans hbuckets) ?_ ?_
  · rw [(hrep'.exact i).alloc, hposition']
    omega
  · rw [hblock', hblock]
    exact hmoved.ne

/-- When a traversal is safe although the visitor changes the map: no call that wants to be followed
by another one puts an entry with a new key into the bucket that is being traversed while this
bucket has no free place.  Then the traversal reads nothing but the entries arrays of the map, gives
the visitor entries of the map only, and every entry that stays in the map once. -/
theorem hashmapForeach_safe_iff (h : P.Lawful) {τ : Type} {ops : List (MapOp K E τ)}
    {outs : List (MapAnswer E τ × List E)}
    (hops : hashmapRun P (hashmapCreate P) ops = some (outs, map)) (visitor : Visitor P σ)
    (data : σ) :
    ForeachSafe visitor map data ↔
      ∀ state, ForeachReaches visitor map data state → ¬ ExtendsPresentBucket visitor state := by
  obtain ⟨outs', map', m, hops', -, hrep⟩ := (represents_create h).run ops
  obtain ⟨-, rfl⟩ := Prod.mk.inj (Option.some.inj (hops'.symm.trans hops))
  constructor
  · rintro ⟨fuel, result, course, hrun, -⟩ state hreach hextends
    obtain ⟨state₀, hreach₀, hsound, hcurrent, hextends⟩ :
        ∃ state₀, ForeachReaches visitor map' data state₀ ∧ state₀.Sound h ∧ state₀.Current ∧
          ExtendsPresentBucket visitor state₀ := by
      rcases hreach.sound_or hrep with ⟨hsound, hcurrent⟩ | hextended
      · exact ⟨state, hreach, hsound, hcurrent, hextends⟩
      · exact hextended
    obtain ⟨state₁, hstep, hstale⟩ := foreachStep_extends hsound hcurrent hextends
    obtain ⟨_ | fuel, hrun⟩ := (hreach₀.step hstep).run hrun
    · exact nomatch hrun
    · simp only [foreachRun, hstale] at hrun
      exact nomatch Option.some.inj hrun
  · intro hkeeps
    exact ForeachReaches.ends hrep hkeeps .start

end Traversal

/-- A scope of variables with an identification of their own. -/
def sampleScope : MapParams CString (CString × Nat) :=
  ciStringParams Prod.fst true 1024 (by decide)

/-- The member `AZ`, and three others. -/
def sampleScopeOps : List (MapOp CString (CString × Nat) Nat) :=
  [.put ("AZ".toList, 1), .put ("X".toList, 2), .put ("Y".toList, 3), .put ("Z".toList, 4)]

theorem hashmapForeach_safe_iff_sample :
    ∃ outs map, hashmapRun sampleScope (hashmapCreate sampleScope) sampleScopeOps =
        some (outs, map) ∧
      ForeachSafe (fun _ n _ => ([.remove "X".toList, .remove "AZ".toList], true, n + 1)) map 0 := by
  have hlawful : sampleScope.Lawful := lawful_ciStringParams Prod.fst true 1024 (by decide)
  obtain ⟨outs, map, -, hops, -⟩ := (represents_create hlawful).run sampleScopeOps
  refine ⟨outs, map, hops, (hashmapForeach_safe_iff hlawful hops _ 0).mpr ?_⟩
  rintro state - ⟨i, rest, e, -, -, -, hextends⟩
  simp [ExtendsIn, Extends] at hextends

/-- Whether a traversal has read through a stale pointer. -/
def ForeachResult.isStale {P : MapParams K E} : ForeachResult P σ → Bool
  | .stale => true
  | .stop _ _ => false
  | .next _ => false

theorem foreachRun_add {P : MapParams K E} {visitor : Visitor P σ} {fuel : Nat}
    {state : ForeachState P σ} {result : ForeachResult P σ}
    (hrun : foreachRun visitor fuel state = some result) (more : Nat) :
    foreachRun visitor (fuel + more) state = some result := by
  induction fuel generalizing state with
  | zero => exact nomatch hrun
  | succ fuel ih =>
      rw [Nat.succ_add]
      simp only [foreachRun] at hrun ⊢
      split at hrun
      · next hnext => exact ih hrun
      · exact hrun

/-- The visitor of a scope whose one member is `AZ`, when it is called, creates `B5`.  This name is
one for the same bucket, whose array is full. -/
theorem hashmapForeach_stale :
    ∃ outs map, hashmapRun sampleScope (hashmapCreate sampleScope)
        ([.put ("AZ".toList, 1)] : List (MapOp CString (CString × Nat) Nat)) = some (outs, map) ∧
      ¬ ForeachSafe (fun _ (_ : Unit) _ => ([.put ("B5".toList, 2)], true, ())) map () := by
  have hlawful : sampleScope.Lawful := lawful_ciStringParams Prod.fst true 1024 (by decide)
  obtain ⟨outs, map, -, hops, -⟩ := (represents_create hlawful).run
    ([.put ("AZ".toList, 1)] : List (MapOp CString (CString × Nat) Nat))
  refine ⟨outs, map, hops, ?_⟩
  rintro ⟨fuel, result, course, hrun, -⟩
  have hstale : ((hashmapRun sampleScope (hashmapCreate sampleScope)
      ([.put ("AZ".toList, 1)] : List (MapOp CString (CString × Nat) Nat))).bind fun r =>
        (foreachRun (fun _ (_ : Unit) _ => ([.put ("B5".toList, 2)], true, ())) 500
          (foreachBegin r.2 ())).map ForeachResult.isStale) = some true := by
    decide +kernel
  rw [hops, Option.bind_some] at hstale
  obtain ⟨result', hrun', hisStale⟩ := Option.map_eq_some_iff.mp hstale
  have hsame := (foreachRun_add hrun 500).symm.trans
    (Nat.add_comm 500 fuel ▸ foreachRun_add hrun' fuel)
  rw [← Option.some.inj hsame] at hisStale
  exact nomatch hisStale

end Mkfli4l
