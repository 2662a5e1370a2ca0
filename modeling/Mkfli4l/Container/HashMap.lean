import Mathlib
import Mkfli4l.Lib.Listing
import Mkfli4l.Var.GraphMoves

/-!
# Hash maps

The hash map of `container/hashmap.c`: an array of buckets, each with an array of entries that has
gaps and a list of pointers to these gaps.  The pointers are raw: they name a place in the block of
memory which held the array when they were taken, and a reallocation of the array ends the life of
that block.  The model numbers the blocks of a bucket and lets every reallocation begin a new one,
so that an access through a pointer of an earlier block is an error that the model reports.

Against it stands what the map is for: a partial map from the classes of keys to entries.
-/

namespace Mkfli4l

open Lib Function

/-- What `hashmap_create()` fixes for the life of a map.  `keyOf` is the member at `key_offset`,
and `destroy` tells whether there is an entry destructor. -/
structure MapParams (K E : Type) where
  keyOf : E → K
  hash : K → UInt32
  cmp : K → K → Bool
  destroy : Bool
  numBuckets : Nat
  numBuckets_ne_zero : numBuckets ≠ 0

/-- A pointer into the entries array of a bucket. -/
structure EntryPointer where
  block : Nat
  position : Nat
deriving DecidableEq, Repr

/-- `struct hashmap_bucket_t`; `block` numbers the allocations of `entries`. -/
structure HashmapBucket (E : Type) where
  numAllocEntries : Nat
  numEntries : Nat
  numFreeEntries : Nat
  block : Nat
  entries : List (Option E)
  freeEntries : List EntryPointer
deriving DecidableEq, Repr

variable {K E σ : Type}

/-- The buckets of a map; their number never changes. -/
abbrev Hashmap (P : MapParams K E) := Fin P.numBuckets → HashmapBucket E

def hashmapCreate (P : MapParams K E) : Hashmap P :=
  fun _ => ⟨0, 0, 0, 0, [], []⟩

/-- `&map->buckets[hash % map->num_buckets]` -/
def bucketIndex (P : MapParams K E) (key : K) : Fin P.numBuckets :=
  ⟨(P.hash key).toNat % P.numBuckets,
    Nat.mod_lt _ (Nat.pos_of_ne_zero P.numBuckets_ne_zero)⟩

/-- The loop of `hashmap_search_bucket()` from position `i` on. -/
def searchEntries (P : MapParams K E) (key : K) : List (Option E) → Nat → Option (Nat × E)
  | [], _ => none
  | none :: rest, i => searchEntries P key rest (i + 1)
  | some entry :: rest, i =>
      if P.cmp key (P.keyOf entry) then some (i, entry) else searchEntries P key rest (i + 1)

/-- `hashmap_search_bucket()`: the place found together with the entry that is there. -/
def hashmapSearchBucket (P : MapParams K E) (bucket : HashmapBucket E) (key : K) :
    Option (EntryPointer × E) :=
  (searchEntries P key (bucket.entries.take bucket.numAllocEntries) 0).map
    fun found => (⟨bucket.block, found.1⟩, found.2)

/-- `*p = value`, an error if `p` does not point into the entries array. -/
def HashmapBucket.store (bucket : HashmapBucket E) (p : EntryPointer) (value : Option E) :
    Option (HashmapBucket E) :=
  if p.block = bucket.block ∧ p.position < bucket.entries.length then
    some { bucket with entries := bucket.entries.set p.position value }
  else
    none

/-- What `hashmap_put()` does to the bucket of the entry, with the entries it destroys. -/
def bucketPut [DecidableEq E] (P : MapParams K E) (bucket : HashmapBucket E) (entry : E) :
    Option (HashmapBucket E × List E) :=
  match hashmapSearchBucket P bucket (P.keyOf entry) with
  | some (p, old) =>
      if old ≠ entry then
        (bucket.store p (some entry)).map
          fun bucket => (bucket, if P.destroy then [old] else [])
      else
        some (bucket, [])
  | none =>
      if bucket.numFreeEntries > 0 then
        match bucket.freeEntries with
        | [] => none
        | p :: freeEntries =>
            (bucket.store p (some entry)).map fun bucket =>
              ({ bucket with
                  numEntries := bucket.numEntries + 1
                  numFreeEntries := bucket.numFreeEntries - 1
                  freeEntries := freeEntries }, [])
      else
        some ({ bucket with
          -- the reallocation copies the old elements and may move the array
          block := bucket.block + 1
          entries := bucket.entries.take bucket.numAllocEntries ++ [some entry]
          numAllocEntries := bucket.numAllocEntries + 1
          numEntries := bucket.numEntries + 1 }, [])

def hashmapPut [DecidableEq E] (P : MapParams K E) (map : Hashmap P) (entry : E) :
    Option (Hashmap P × List E) :=
  let i := bucketIndex P (P.keyOf entry)
  (bucketPut P (map i) entry).map fun result => (update map i result.1, result.2)

def hashmapRemove (P : MapParams K E) (map : Hashmap P) (key : K) :
    Option (Hashmap P × Bool × List E) :=
  let i := bucketIndex P key
  match hashmapSearchBucket P (map i) key with
  | some (p, entry) =>
      ((map i).store p none).map fun bucket =>
        (update map i { bucket with
          freeEntries := bucket.freeEntries ++ [p]
          numFreeEntries := bucket.numFreeEntries + 1
          numEntries := bucket.numEntries - 1 }, true, if P.destroy then [entry] else [])
  | none => some (map, false, [])

def hashmapGet (P : MapParams K E) (map : Hashmap P) (key : K) : Option E :=
  (hashmapSearchBucket P (map (bucketIndex P key)) key).map Prod.snd

def hashmapSize (P : MapParams K E) (map : Hashmap P) : Nat :=
  (List.finRange P.numBuckets).foldl (fun numEntries i => numEntries + (map i).numEntries) 0

/-- The inner loop of `hashmap_foreach()`; `result` is the visitor's last answer. -/
def foreachEntry (visitor : E → σ → Bool × σ) : List (Option E) → Bool → σ → Bool × σ
  | [], result, data => (result, data)
  | p :: rest, result, data =>
      if result then
        match p with
        | none => foreachEntry visitor rest result data
        | some entry =>
            foreachEntry visitor rest (visitor entry data).1 (visitor entry data).2
      else
        (result, data)

/-- The outer loop of `hashmap_foreach()`. -/
def foreachBucket (visitor : E → σ → Bool × σ) : List (HashmapBucket E) → Bool → σ → Bool × σ
  | [], result, data => (result, data)
  | bucket :: rest, result, data =>
      if result then
        let visited :=
          foreachEntry visitor (bucket.entries.take bucket.numAllocEntries) result data
        foreachBucket visitor rest visited.1 visited.2
      else
        (result, data)

def hashmapForeach (P : MapParams K E) (map : Hashmap P) (visitor : E → σ → Bool × σ)
    (data : σ) : Bool × σ :=
  foreachBucket visitor ((List.finRange P.numBuckets).map map) true data

/-- `struct array`: the number of elements memory is allocated for, and the elements in use. -/
structure DynamicArray (E : Type) where
  elemNumber : Nat
  elems : List E
deriving DecidableEq, Repr

/-- `append_new_elem()`, an error if it writes behind the memory of the array.  A full array is
doubled, which is no help to an array without any elements. -/
def appendNewElem (array : DynamicArray E) (elem : E) : Option (DynamicArray E) :=
  let elemNumber :=
    if array.elems.length = array.elemNumber then array.elemNumber + array.elemNumber
    else array.elemNumber
  if array.elems.length < elemNumber then some ⟨elemNumber, array.elems ++ [elem]⟩ else none

/-- `hashmap_to_array()`: `put_entry_into_array()` is the visitor. -/
def hashmapToArray (P : MapParams K E) (map : Hashmap P) : Option (DynamicArray E) :=
  (hashmapForeach P map
    (fun entry (array : Option (DynamicArray E)) => (true, array.bind (appendNewElem · entry)))
    (some ⟨hashmapSize P map, []⟩)).2

/-! ### The invariant of a bucket -/

/-- The counters of a bucket agree with its arrays, and the list of free entries names the gaps of
the present entries array, each of them once. -/
structure HashmapBucket.FreeListExact (bucket : HashmapBucket E) : Prop where
  counts : bucket.numEntries + bucket.numFreeEntries = bucket.numAllocEntries
  alloc : bucket.numAllocEntries = bucket.entries.length
  present : bucket.numEntries = bucket.entries.reduceOption.length
  free : bucket.numFreeEntries = bucket.freeEntries.length
  nodup : bucket.freeEntries.Nodup
  mem_iff : ∀ p : EntryPointer, p ∈ bucket.freeEntries ↔
    p.block = bucket.block ∧ bucket.entries[p.position]? = some none

theorem searchEntries_some {P : MapParams K E} {key : K} {entries : List (Option E)} {i j : Nat}
    {entry : E} (h : searchEntries P key entries i = some (j, entry)) :
    i ≤ j ∧ entries[j - i]? = some (some entry) ∧ P.cmp key (P.keyOf entry) = true := by
  fun_induction searchEntries P key entries i with
  | case1 => exact nomatch h
  | case2 rest i ih =>
      obtain ⟨hle, hat, hcmp⟩ := ih h
      have hshift : j - i = (j - (i + 1)) + 1 := by omega
      exact ⟨by omega, by rw [hshift]; simpa using hat, hcmp⟩
  | case3 e rest i hcmp =>
      obtain ⟨rfl, rfl⟩ := Prod.mk.inj (Option.some.inj h)
      exact ⟨Nat.le_refl _, by simp, hcmp⟩
  | case4 e rest i hcmp ih =>
      obtain ⟨hle, hat, hcmp'⟩ := ih h
      have hshift : j - i = (j - (i + 1)) + 1 := by omega
      exact ⟨by omega, by rw [hshift]; simpa using hat, hcmp'⟩

theorem searchEntries_none {P : MapParams K E} {key : K} {entries : List (Option E)} {i : Nat}
    (h : searchEntries P key entries i = none) {entry : E} (hmem : some entry ∈ entries) :
    P.cmp key (P.keyOf entry) = false := by
  fun_induction searchEntries P key entries i with
  | case1 => exact nomatch hmem
  | case2 rest i ih =>
      rcases List.mem_cons.mp hmem with heq | hmem
      · exact nomatch heq
      · exact ih h hmem
  | case3 => exact nomatch h
  | case4 e rest i hcmp ih =>
      rcases List.mem_cons.mp hmem with heq | hmem
      · rw [Option.some.inj heq]
        simpa using hcmp
      · exact ih h hmem

namespace HashmapBucket.FreeListExact

variable {P : MapParams K E} {bucket : HashmapBucket E}

theorem search_some (hexact : bucket.FreeListExact) {key : K} {p : EntryPointer} {entry : E}
    (h : hashmapSearchBucket P bucket key = some (p, entry)) :
    p.block = bucket.block ∧ bucket.entries[p.position]? = some (some entry) ∧
      P.cmp key (P.keyOf entry) = true := by
  simp only [hashmapSearchBucket, hexact.alloc, List.take_length, Option.map_eq_some_iff] at h
  obtain ⟨⟨j, entry'⟩, hsearch, heq⟩ := h
  obtain ⟨rfl, rfl⟩ := Prod.mk.inj heq
  obtain ⟨-, hat, hcmp⟩ := searchEntries_some hsearch
  exact ⟨rfl, by simpa using hat, hcmp⟩

theorem search_none (hexact : bucket.FreeListExact) {key : K}
    (h : hashmapSearchBucket P bucket key = none) {entry : E} (hmem : some entry ∈ bucket.entries) :
    P.cmp key (P.keyOf entry) = false := by
  simp only [hashmapSearchBucket, hexact.alloc, List.take_length, Option.map_eq_none_iff] at h
  exact searchEntries_none h hmem

theorem exchange (hexact : bucket.FreeListExact) (entry : E) {i : Nat} {old : E}
    (hold : bucket.entries[i]? = some (some old)) :
    ({ bucket with entries := bucket.entries.set i (some entry) } :
      HashmapBucket E).FreeListExact := by
  obtain ⟨hi, -⟩ := List.getElem?_eq_some_iff.mp hold
  refine ⟨hexact.counts, by simpa using hexact.alloc, ?_, hexact.free, hexact.nodup, ?_⟩
  · have hbefore := (reduceOption_perm hold).length_eq
    have hafter := (reduceOption_set_perm (some entry) hi).length_eq
    simp only [Option.toList_some, List.length_append, List.length_singleton] at hbefore hafter
    have := hexact.present
    simp only
    omega
  · intro p
    rw [hexact.mem_iff]
    by_cases hp : p.position = i
    · rw [hp, hold, List.getElem?_set_self hi]
      simp
    · rw [List.getElem?_set_ne (Ne.symm hp)]

theorem fill (hexact : bucket.FreeListExact) (entry : E) {p : EntryPointer}
    {rest : List EntryPointer} (hfree : bucket.freeEntries = p :: rest) :
    ({ bucket with
        entries := bucket.entries.set p.position (some entry)
        numEntries := bucket.numEntries + 1
        numFreeEntries := bucket.numFreeEntries - 1
        freeEntries := rest } : HashmapBucket E).FreeListExact := by
  obtain ⟨hblock, hgap⟩ := (hexact.mem_iff p).mp (by rw [hfree]; exact List.mem_cons_self)
  obtain ⟨hi, -⟩ := List.getElem?_eq_some_iff.mp hgap
  have hnodup := hexact.nodup
  rw [hfree] at hnodup
  obtain ⟨hout, hrest⟩ := List.nodup_cons.mp hnodup
  have hcount : bucket.numFreeEntries = rest.length + 1 := by
    rw [hexact.free, hfree, List.length_cons]
  refine ⟨?_, by simpa using hexact.alloc, ?_, by simp [hcount], hrest, ?_⟩
  · have := hexact.counts
    simp only
    omega
  · have hbefore := (reduceOption_perm hgap).length_eq
    have hafter := (reduceOption_set_perm (some entry) hi).length_eq
    simp only [Option.toList_some, Option.toList_none, List.length_append, List.length_singleton,
      List.length_nil] at hbefore hafter
    have := hexact.present
    simp only
    omega
  · intro q
    have hmem := hexact.mem_iff q
    rw [hfree, List.mem_cons] at hmem
    by_cases hq : q.position = p.position
    · have hnot : q ∉ rest := by
        intro hq'
        have hqblock := (hmem.mp (.inr hq')).1
        have heq : q = p := by
          cases q
          cases p
          simp_all
        exact hout (heq ▸ hq')
      simp [hq, hi, hnot]
    · have hne : q ≠ p := fun heq => hq (by rw [heq])
      rw [List.getElem?_set_ne (Ne.symm hq)]
      simpa [hne] using hmem

/-- A longer entries array when there is no gap: no pointer is left that the reallocation could
make stale. -/
theorem grow (hexact : bucket.FreeListExact) (entry : E) (hfree : bucket.numFreeEntries = 0) :
    ({ bucket with
        block := bucket.block + 1
        entries := bucket.entries.take bucket.numAllocEntries ++ [some entry]
        numAllocEntries := bucket.numAllocEntries + 1
        numEntries := bucket.numEntries + 1 } : HashmapBucket E).FreeListExact := by
  have hnil : bucket.freeEntries = [] := List.length_eq_zero_iff.mp (hexact.free ▸ hfree)
  have htake : bucket.entries.take bucket.numAllocEntries = bucket.entries := by
    rw [hexact.alloc, List.take_length]
  simp only [htake]
  refine ⟨?_, by simp [hexact.alloc], ?_, hexact.free, hexact.nodup, ?_⟩
  · have := hexact.counts
    simp only
    omega
  · simp [List.reduceOption_append, hexact.present]
  · intro p
    have hgap : ∀ i : Nat, bucket.entries[i]? ≠ some none := by
      intro i hi
      have := (hexact.mem_iff ⟨bucket.block, i⟩).mpr ⟨rfl, hi⟩
      rw [hnil] at this
      exact nomatch this
    simp only [hnil, List.not_mem_nil, false_iff, not_and]
    intro _ hp
    rcases Nat.lt_trichotomy p.position bucket.entries.length with hlt | heq | hgt
    · rw [List.getElem?_append_left hlt] at hp
      exact hgap _ hp
    · simp [heq] at hp
    · rw [List.getElem?_eq_none (by simp; omega)] at hp
      exact nomatch hp

theorem release (hexact : bucket.FreeListExact) {p : EntryPointer} {entry : E}
    (hblock : p.block = bucket.block) (hat : bucket.entries[p.position]? = some (some entry)) :
    ({ bucket with
        entries := bucket.entries.set p.position none
        freeEntries := bucket.freeEntries ++ [p]
        numFreeEntries := bucket.numFreeEntries + 1
        numEntries := bucket.numEntries - 1 } : HashmapBucket E).FreeListExact := by
  obtain ⟨hi, -⟩ := List.getElem?_eq_some_iff.mp hat
  have hbefore := (reduceOption_perm hat).length_eq
  have hafter := (reduceOption_set_perm none hi).length_eq
  simp only [Option.toList_some, Option.toList_none, List.length_append, List.length_singleton,
    List.length_nil] at hbefore hafter
  have hpresent := hexact.present
  have hcounts := hexact.counts
  have hp : p ∉ bucket.freeEntries := by
    intro hp
    have := ((hexact.mem_iff p).mp hp).2
    rw [hat] at this
    exact nomatch this
  refine ⟨by simp only; omega, by simpa using hexact.alloc, by simp only; omega,
    by simp [hexact.free], ?_, ?_⟩
  · refine List.nodup_append.mpr ⟨hexact.nodup, List.nodup_singleton p, ?_⟩
    rintro q hq q' hq' rfl
    exact hp (List.mem_singleton.mp hq' ▸ hq)
  · intro q
    rw [List.mem_append, hexact.mem_iff, List.mem_singleton]
    by_cases hq : q.position = p.position
    · have hiff : q = p ↔ q.block = bucket.block := by
        cases q
        cases p
        simp_all
      rw [hq, hat, hiff, List.getElem?_set_self hi]
      simp
    · have hne : q ≠ p := fun heq => hq (by rw [heq])
      rw [List.getElem?_set_ne (Ne.symm hq)]
      simp [hne]

end HashmapBucket.FreeListExact

/-! ### What a map is for -/

/-- The compare function is an equivalence, and equivalent keys have one hash value. -/
structure MapParams.Lawful (P : MapParams K E) : Prop where
  equivalence : Equivalence fun a b => P.cmp a b = true
  compatible : ∀ a b, P.cmp a b = true → P.hash a = P.hash b

/-- The keys that the compare function does not tell apart. -/
def MapParams.classes (P : MapParams K E) (h : P.Lawful) : Setoid K :=
  ⟨fun a b => P.cmp a b = true, h.equivalence⟩

/-- A class of keys. -/
abbrev KeyClass (P : MapParams K E) (h : P.Lawful) := Quotient (P.classes h)

instance {P : MapParams K E} {h : P.Lawful} : DecidableEq (KeyClass P h) :=
  @Quotient.decidableEq K (P.classes h) fun a b => inferInstanceAs (Decidable (P.cmp a b = true))

/-- The class of a key. -/
def keyClass (P : MapParams K E) (h : P.Lawful) (key : K) : KeyClass P h :=
  Quotient.mk (P.classes h) key

/-- The class of an entry's key. -/
def entryClass (P : MapParams K E) (h : P.Lawful) (entry : E) : KeyClass P h :=
  keyClass P h (P.keyOf entry)

theorem keyClass_eq_iff {P : MapParams K E} {h : P.Lawful} {a b : K} :
    keyClass P h a = keyClass P h b ↔ P.cmp a b = true :=
  @Quotient.eq K (P.classes h) a b

/-- A map from key classes to entries. -/
abbrev EntryMap (P : MapParams K E) (h : P.Lawful) := KeyClass P h → Option E

/-- A visitor is shown one entry after the other until it answers FALSE. -/
def visitAll (visitor : E → σ → Bool × σ) : List E → σ → Bool × σ
  | [], data => (true, data)
  | entry :: rest, data =>
      if (visitor entry data).1 then visitAll visitor rest (visitor entry data).2
      else visitor entry data

/-- The operations of a map. -/
inductive MapOp (K E σ : Type) where
  | put (entry : E)
  | remove (key : K)
  | get (key : K)
  | size
  | foreach (visitor : E → σ → Bool × σ) (data : σ)
  | toArray

/-- What an operation returns. -/
inductive MapAnswer (E σ : Type) where
  | done
  | removed (found : Bool)
  | entry (entry : Option E)
  | count (number : Nat)
  | visited (result : Bool) (data : σ)
  | array (elems : List E)
deriving DecidableEq, Repr

/-- The entries destroyed by putting `entry` in the place of what was there. -/
def destroyedByPut [DecidableEq E] (P : MapParams K E) (before : Option E) (entry : E) : List E :=
  if P.destroy then before.toList.filter (· ≠ entry) else []

/-- The entries destroyed by removing what was there. -/
def destroyedByRemove (P : MapParams K E) (before : Option E) : List E :=
  if P.destroy then before.toList else []

/-- One operation on a map from key classes to entries: its answer, the entries it destroys and
the map afterwards.  In which order the entries are visited is left open, but it is one order of
all entries that are present. -/
def EntryMap.Step [DecidableEq E] {P : MapParams K E} {h : P.Lawful} (m : EntryMap P h) :
    MapOp K E σ → MapAnswer E σ × List E → EntryMap P h → Prop
  | .put entry, out, m' =>
      out = (.done, destroyedByPut P (m (entryClass P h entry)) entry) ∧
        m' = update m (entryClass P h entry) (some entry)
  | .remove key, out, m' =>
      out = (.removed (m (keyClass P h key)).isSome, destroyedByRemove P (m (keyClass P h key))) ∧
        m' = update m (keyClass P h key) none
  | .get key, out, m' => out = (.entry (m (keyClass P h key)), []) ∧ m' = m
  | .size, out, m' =>
      (∃ L, Lists (entryClass P h) L m ∧ out = (.count L.length, [])) ∧ m' = m
  | .foreach visitor data, out, m' =>
      (∃ L, Lists (entryClass P h) L m ∧
        out = (.visited (visitAll visitor L data).1 (visitAll visitor L data).2, [])) ∧ m' = m
  | .toArray, out, m' => (∃ L, Lists (entryClass P h) L m ∧ out = (.array L, [])) ∧ m' = m

/-- A sequence of operations. -/
inductive EntryMap.Run [DecidableEq E] {P : MapParams K E} {h : P.Lawful} :
    EntryMap P h → List (MapOp K E σ) → List (MapAnswer E σ × List E) → EntryMap P h → Prop
  | nil (m : EntryMap P h) : Run m [] [] m
  | cons {m m' m'' : EntryMap P h} {op : MapOp K E σ} {ops : List (MapOp K E σ)}
      {out : MapAnswer E σ × List E} {outs : List (MapAnswer E σ × List E)}
      (step : m.Step op out m') (rest : Run m' ops outs m'') : Run m (op :: ops) (out :: outs) m''

/-- One operation on a hash map: its answer and the entries it destroys.  `none` stands for an
access outside the memory of the map. -/
def hashmapStep [DecidableEq E] (P : MapParams K E) (map : Hashmap P) :
    MapOp K E σ → Option ((MapAnswer E σ × List E) × Hashmap P)
  | .put entry =>
      (hashmapPut P map entry).map fun result => ((.done, result.2), result.1)
  | .remove key =>
      (hashmapRemove P map key).map fun result => ((.removed result.2.1, result.2.2), result.1)
  | .get key => some ((.entry (hashmapGet P map key), []), map)
  | .size => some ((.count (hashmapSize P map), []), map)
  | .foreach visitor data =>
      some ((.visited (hashmapForeach P map visitor data).1 (hashmapForeach P map visitor data).2,
        []), map)
  | .toArray => (hashmapToArray P map).map fun array => ((.array array.elems, []), map)

/-- A sequence of operations on a hash map. -/
def hashmapRun [DecidableEq E] (P : MapParams K E) (map : Hashmap P) :
    List (MapOp K E σ) → Option (List (MapAnswer E σ × List E) × Hashmap P)
  | [] => some ([], map)
  | op :: ops => do
      let (out, map) ← hashmapStep P map op
      let (outs, map) ← hashmapRun P map ops
      pure (out :: outs, map)

/-! ### The simulation -/

/-- The entries of a map in the order in which they are visited. -/
def entriesOf {P : MapParams K E} (map : Hashmap P) : List E :=
  (List.finRange P.numBuckets).flatMap fun i => (map i).entries.reduceOption

/-- The hash map `map` holds what `m` says. -/
structure Represents {P : MapParams K E} (h : P.Lawful) (map : Hashmap P) (m : EntryMap P h) :
    Prop where
  lists : Lists (entryClass P h) (entriesOf map) m
  exact : ∀ i, (map i).FreeListExact
  home : ∀ i entry, some entry ∈ (map i).entries → bucketIndex P (P.keyOf entry) = i

section Simulation

variable {P : MapParams K E} {h : P.Lawful} {map : Hashmap P} {m : EntryMap P h}

theorem bucketIndex_eq_of_cmp (h : P.Lawful) {a b : K} (hcmp : P.cmp a b = true) :
    bucketIndex P a = bucketIndex P b := by
  simp only [bucketIndex, h.compatible a b hcmp]

theorem represents_create (h : P.Lawful) :
    Represents h (hashmapCreate P) fun _ => none := by
  have hempty : entriesOf (hashmapCreate P) = [] := by
    simp [entriesOf, hashmapCreate, List.reduceOption]
  refine ⟨hempty ▸ Lists.empty _, fun i => ?_, fun i entry hentry => ?_⟩
  · exact ⟨rfl, rfl, rfl, rfl, List.nodup_nil, fun p => by simp [hashmapCreate]⟩
  · exact nomatch hentry

theorem entriesOf_update (map : Hashmap P) (i : Fin P.numBuckets) {bucket : HashmapBucket E}
    {before after rest : List E} (hbefore : (map i).entries.reduceOption.Perm (before ++ rest))
    (hafter : bucket.entries.reduceOption.Perm (after ++ rest)) :
    ∃ others, (entriesOf map).Perm (before ++ others) ∧
      (entriesOf (update map i bucket)).Perm (after ++ others) := by
  refine ⟨rest ++ ((List.finRange P.numBuckets).erase i).flatMap
    fun j => (map j).entries.reduceOption, ?_, ?_⟩
  · rw [← List.append_assoc]
    exact (flatMap_finRange_perm _ i).trans (hbefore.append_right _)
  · have hupdate : (fun j => (update map i bucket j).entries.reduceOption) =
        update (fun j => (map j).entries.reduceOption) i bucket.entries.reduceOption := by
      funext j
      by_cases hj : j = i
      · subst hj
        simp
      · simp [update_of_ne hj]
    rw [← List.append_assoc, entriesOf, hupdate]
    have hperm := flatMap_finRange_perm
      (update (fun j => (map j).entries.reduceOption) i bucket.entries.reduceOption) i
    rw [flatMap_erase_update, update_self] at hperm
    exact hperm.trans (hafter.append_right _)

namespace Represents

theorem search (hrep : Represents h map m) (key : K) :
    (hashmapSearchBucket P (map (bucketIndex P key)) key).map Prod.snd = m (keyClass P h key) := by
  have hexact := hrep.exact (bucketIndex P key)
  cases hsearch : hashmapSearchBucket P (map (bucketIndex P key)) key with
  | some found =>
      obtain ⟨p, entry⟩ := found
      obtain ⟨-, hat, hcmp⟩ := hexact.search_some hsearch
      have hmem : entry ∈ entriesOf map := by
        refine List.mem_flatMap.mpr ⟨bucketIndex P key, List.mem_finRange _, ?_⟩
        exact List.reduceOption_mem_iff.mpr (List.mem_of_getElem? hat)
      exact ((hrep.lists.mem_iff entry _).mpr
        ⟨hmem, (keyClass_eq_iff.mpr hcmp).symm⟩).symm
  | none =>
      cases hm : m (keyClass P h key) with
      | none => rfl
      | some entry =>
          -- the entry is in the bucket of its own key, which is the bucket searched
          obtain ⟨hmem, hcls⟩ := (hrep.lists.mem_iff entry _).mp hm
          have hcmp : P.cmp key (P.keyOf entry) = true := keyClass_eq_iff.mp hcls.symm
          obtain ⟨i, -, hi⟩ := List.mem_flatMap.mp hmem
          have hi := List.reduceOption_mem_iff.mp hi
          obtain rfl : i = bucketIndex P key :=
            (hrep.home i entry hi).symm.trans (bucketIndex_eq_of_cmp h hcmp).symm
          rw [hexact.search_none hsearch hi] at hcmp
          exact nomatch hcmp

theorem change (hrep : Represents h map m) {m' : EntryMap P h} {i : Fin P.numBuckets}
    {bucket : HashmapBucket E} (before after : List E) {rest : List E}
    (hexact : bucket.FreeListExact)
    (hbefore : (map i).entries.reduceOption.Perm (before ++ rest))
    (hafter : bucket.entries.reduceOption.Perm (after ++ rest))
    (hhome : ∀ entry ∈ after, bucketIndex P (P.keyOf entry) = i)
    (hlists : ∀ L, Lists (entryClass P h) (before ++ L) m →
      Lists (entryClass P h) (after ++ L) m') :
    Represents h (update map i bucket) m' := by
  obtain ⟨others, hmap, hupdated⟩ := entriesOf_update map i hbefore hafter
  refine ⟨(hlists others (hrep.lists.perm hmap)).perm hupdated.symm, fun j => ?_, fun j => ?_⟩
  · by_cases hj : j = i
    · subst hj
      rwa [update_self]
    · rw [update_of_ne hj]
      exact hrep.exact j
  · by_cases hj : j = i
    · subst hj
      rw [update_self]
      intro entry hentry
      have hentry := hafter.mem_iff.mp (List.reduceOption_mem_iff.mpr hentry)
      rcases List.mem_append.mp hentry with hentry | hentry
      · exact hhome entry hentry
      · have hold := hbefore.mem_iff.mpr (List.mem_append_right before hentry)
        exact hrep.home j entry (List.reduceOption_mem_iff.mp hold)
    · rw [update_of_ne hj]
      exact hrep.home j

theorem remove (hrep : Represents h map m) (key : K) :
    ∃ map', hashmapRemove P map key =
        some (map', (m (keyClass P h key)).isSome, destroyedByRemove P (m (keyClass P h key))) ∧
      Represents h map' (update m (keyClass P h key) none) := by
  have hexact := hrep.exact (bucketIndex P key)
  have hm := hrep.search key
  cases hsearch : hashmapSearchBucket P (map (bucketIndex P key)) key with
  | some found =>
      obtain ⟨p, entry⟩ := found
      obtain ⟨hblock, hat, hcmp⟩ := hexact.search_some hsearch
      obtain ⟨hi, -⟩ := List.getElem?_eq_some_iff.mp hat
      rw [hsearch] at hm
      replace hm : m (keyClass P h key) = some entry := hm.symm
      refine ⟨_, ?_, hrep.change [entry] [] (hexact.release hblock hat) (reduceOption_perm hat)
        (reduceOption_set_perm none hi) (by simp) ?_⟩
      · simp [hashmapRemove, hsearch, hm, destroyedByRemove, HashmapBucket.store, hblock, hi]
      · intro L hL
        have hcls : keyClass P h key = entryClass P h entry := keyClass_eq_iff.mpr hcmp
        exact hcls ▸ hL.remove
  | none =>
      rw [hsearch] at hm
      replace hm : m (keyClass P h key) = none := hm.symm
      refine ⟨map, ?_, ?_⟩
      · simp [hashmapRemove, hsearch, hm, destroyedByRemove]
      · rwa [← hm, update_eq_self]

theorem put [DecidableEq E] (hrep : Represents h map m) (entry : E) :
    ∃ map', hashmapPut P map entry =
        some (map', destroyedByPut P (m (entryClass P h entry)) entry) ∧
      Represents h map' (update m (entryClass P h entry) (some entry)) := by
  have hexact := hrep.exact (bucketIndex P (P.keyOf entry))
  have hm := hrep.search (P.keyOf entry)
  have hentry : ∀ e ∈ [entry], bucketIndex P (P.keyOf e) = bucketIndex P (P.keyOf entry) := by
    intro e he
    rw [List.mem_singleton.mp he]
  change _ = m (entryClass P h entry) at hm
  cases hsearch : hashmapSearchBucket P (map (bucketIndex P (P.keyOf entry))) (P.keyOf entry) with
  | some found =>
      obtain ⟨p, old⟩ := found
      obtain ⟨hblock, hat, hcmp⟩ := hexact.search_some hsearch
      obtain ⟨hi, -⟩ := List.getElem?_eq_some_iff.mp hat
      rw [hsearch] at hm
      replace hm : m (entryClass P h entry) = some old := hm.symm
      by_cases hne : old = entry
      · subst hne
        refine ⟨map, ?_, ?_⟩
        · simp [hashmapPut, bucketPut, hsearch, hm, destroyedByPut]
        · rwa [← hm, update_eq_self]
      · refine ⟨_, ?_, hrep.change [old] [entry] (hexact.exchange entry hat)
          (reduceOption_perm hat) (reduceOption_set_perm (some entry) hi) hentry ?_⟩
        · simp [hashmapPut, bucketPut, hsearch, hne, hm, destroyedByPut, HashmapBucket.store,
            hblock, hi]
        · intro L hL
          exact hL.replace (keyClass_eq_iff.mpr hcmp).symm
  | none =>
      rw [hsearch] at hm
      replace hm : m (entryClass P h entry) = none := hm.symm
      have hnothing : destroyedByPut P (m (entryClass P h entry)) entry = [] := by
        simp [destroyedByPut, hm]
      by_cases hfree : (map (bucketIndex P (P.keyOf entry))).numFreeEntries = 0
      · refine ⟨_, ?_, hrep.change [] [entry]
          (hexact.grow entry hfree) (List.Perm.refl _) ?_ hentry ?_⟩
        · simp [hashmapPut, bucketPut, hsearch, hfree, hnothing]
        · simp only [hexact.alloc, List.take_length, List.reduceOption_append]
          exact List.perm_append_comm
        · intro L hL
          exact hL.insert hm
      · obtain ⟨p, free, hfreeEntries⟩ := List.exists_cons_of_ne_nil
          (fun hnil => hfree (by rw [hexact.free, hnil]; rfl) :
            (map (bucketIndex P (P.keyOf entry))).freeEntries ≠ [])
        obtain ⟨hblock, hgap⟩ := (hexact.mem_iff p).mp
          (by rw [hfreeEntries]; exact List.mem_cons_self)
        obtain ⟨hi, -⟩ := List.getElem?_eq_some_iff.mp hgap
        refine ⟨_, ?_, hrep.change [] [entry] (hexact.fill entry hfreeEntries)
          (reduceOption_perm hgap) (reduceOption_set_perm (some entry) hi) hentry ?_⟩
        · simp [hashmapPut, bucketPut, hsearch, Nat.pos_of_ne_zero hfree, hfreeEntries,
            HashmapBucket.store, hblock, hi, hnothing]
        · intro L hL
          exact hL.insert hm

theorem size (hrep : Represents h map m) : hashmapSize P map = (entriesOf map).length := by
  have hsum : ∀ (l : List (Fin P.numBuckets)) (n : Nat),
      l.foldl (fun numEntries i => numEntries + (map i).numEntries) n =
        n + (l.flatMap fun i => (map i).entries.reduceOption).length := by
    intro l
    induction l with
    | nil => simp
    | cons i l ih =>
        intro n
        rw [List.foldl_cons, ih, List.flatMap_cons, List.length_append, (hrep.exact i).present,
          Nat.add_assoc]
  rw [hashmapSize, hsum, Nat.zero_add]
  rfl

end Represents

/-! ### Visiting the entries -/

theorem visitAll_append (visitor : E → σ → Bool × σ) (L L' : List E) (data : σ) :
    visitAll visitor (L ++ L') data =
      if (visitAll visitor L data).1 then visitAll visitor L' (visitAll visitor L data).2
      else visitAll visitor L data := by
  induction L generalizing data with
  | nil => rfl
  | cons entry L ih =>
      simp only [List.cons_append, visitAll]
      by_cases hgo : (visitor entry data).1 = true
      · simp only [hgo, if_true, ih]
      · simp [hgo]

theorem foreachEntry_eq (visitor : E → σ → Bool × σ) (entries : List (Option E)) (data : σ) :
    foreachEntry visitor entries true data = visitAll visitor entries.reduceOption data := by
  have hstop : ∀ (entries : List (Option E)) (data : σ),
      foreachEntry visitor entries false data = (false, data) := by
    intro entries data
    cases entries <;> rfl
  induction entries generalizing data with
  | nil => rfl
  | cons p entries ih =>
      cases p with
      | none => simpa [foreachEntry] using ih data
      | some entry =>
          simp only [foreachEntry, if_true, List.reduceOption_cons_of_some, visitAll]
          cases hgo : (visitor entry data).1 with
          | true => simp [ih]
          | false =>
              rw [hstop]
              simp [← hgo]

theorem foreachBucket_eq (visitor : E → σ → Bool × σ) {buckets : List (HashmapBucket E)}
    (hexact : ∀ bucket ∈ buckets, bucket.FreeListExact) (data : σ) :
    foreachBucket visitor buckets true data =
      visitAll visitor (buckets.flatMap fun bucket => bucket.entries.reduceOption) data := by
  have hstop : ∀ (buckets : List (HashmapBucket E)) (data : σ),
      foreachBucket visitor buckets false data = (false, data) := by
    intro buckets data
    cases buckets <;> rfl
  induction buckets generalizing data with
  | nil => rfl
  | cons bucket buckets ih =>
      have hbucket := hexact bucket List.mem_cons_self
      have ih := ih fun b hb => hexact b (List.mem_cons_of_mem _ hb)
      simp only [foreachBucket, if_true, hbucket.alloc, List.take_length, foreachEntry_eq,
        List.flatMap_cons, visitAll_append]
      cases hgo : (visitAll visitor bucket.entries.reduceOption data).1 with
      | true => simp [ih]
      | false =>
          rw [hstop]
          simp [← hgo]

theorem Represents.foreach (hrep : Represents h map m) (visitor : E → σ → Bool × σ) (data : σ) :
    hashmapForeach P map visitor data = visitAll visitor (entriesOf map) data := by
  have hexact : ∀ bucket ∈ (List.finRange P.numBuckets).map map, bucket.FreeListExact := by
    intro bucket hbucket
    obtain ⟨i, -, rfl⟩ := List.mem_map.mp hbucket
    exact hrep.exact i
  rw [hashmapForeach, foreachBucket_eq visitor hexact, List.flatMap_map]
  rfl

theorem visitAll_appendNewElem {L elems : List E} {n : Nat}
    (hroom : elems.length + L.length ≤ n) :
    visitAll (fun entry (array : Option (DynamicArray E)) =>
        (true, array.bind (appendNewElem · entry))) L (some ⟨n, elems⟩) =
      (true, some ⟨n, elems ++ L⟩) := by
  induction L generalizing elems with
  | nil => simp [visitAll]
  | cons entry L ih =>
      simp only [List.length_cons] at hroom
      have happend : appendNewElem ⟨n, elems⟩ entry = some ⟨n, elems ++ [entry]⟩ := by
        have hne : elems.length ≠ n := by omega
        have hlt : elems.length < n := by omega
        simp [appendNewElem, hne, hlt]
      simp only [visitAll, if_true, Option.bind_some, happend]
      rw [ih (by simp; omega)]
      simp

theorem Represents.toArray (hrep : Represents h map m) :
    hashmapToArray P map = some ⟨(entriesOf map).length, entriesOf map⟩ := by
  rw [hashmapToArray, hrep.foreach, hrep.size, visitAll_appendNewElem (by simp)]
  rfl

/-! ### Whole runs -/

theorem Represents.step [DecidableEq E] (hrep : Represents h map m) (op : MapOp K E σ) :
    ∃ out map' m', hashmapStep P map op = some (out, map') ∧ m.Step op out m' ∧
      Represents h map' m' := by
  cases op with
  | put entry =>
      obtain ⟨map', hput, hrep'⟩ := hrep.put entry
      exact ⟨_, map', _, by rw [hashmapStep, hput]; rfl, ⟨rfl, rfl⟩, hrep'⟩
  | remove key =>
      obtain ⟨map', hremove, hrep'⟩ := hrep.remove key
      exact ⟨_, map', _, by rw [hashmapStep, hremove]; rfl, ⟨rfl, rfl⟩, hrep'⟩
  | get key =>
      have hget : hashmapGet P map key = m (keyClass P h key) := hrep.search key
      exact ⟨_, map, m, rfl, ⟨by rw [hget], rfl⟩, hrep⟩
  | size => exact ⟨_, map, m, rfl, ⟨⟨_, hrep.lists, by rw [hrep.size]⟩, rfl⟩, hrep⟩
  | foreach visitor data =>
      exact ⟨_, map, m, rfl, ⟨⟨_, hrep.lists, by rw [hrep.foreach]⟩, rfl⟩, hrep⟩
  | toArray =>
      exact ⟨_, map, m, by rw [hashmapStep, hrep.toArray]; rfl,
        ⟨⟨_, hrep.lists, rfl⟩, rfl⟩, hrep⟩

theorem Represents.run [DecidableEq E] (hrep : Represents h map m) (ops : List (MapOp K E σ)) :
    ∃ outs map' m', hashmapRun P map ops = some (outs, map') ∧ m.Run ops outs m' ∧
      Represents h map' m' := by
  induction ops generalizing map m with
  | nil => exact ⟨[], map, m, rfl, .nil m, hrep⟩
  | cons op ops ih =>
      obtain ⟨out, map₁, m₁, hstep, hspec, hrep₁⟩ := hrep.step op
      obtain ⟨outs, map₂, m₂, hrun, hspecs, hrep₂⟩ := ih hrep₁
      refine ⟨out :: outs, map₂, m₂, ?_, .cons hspec hspecs, hrep₂⟩
      simp [hashmapRun, hstep, hrun]

end Simulation

/-! ### Names as keys -/

/-- The value of a `char` that is added to a hash value; `char` is signed. -/
def charValue (c : Char) : UInt32 :=
  if c.toNat < 128 then c.toNat.toUInt32 else c.toNat.toUInt32 - 256

def hashCiString (s : CString) : UInt32 :=
  s.foldl (fun hash c => hash * 37 + charValue c.toUpper) 0

def compareCiStringKeys (key₁ key₂ : CString) : Bool := sameName key₁ key₂

/-- A map whose keys are names. -/
def ciStringParams (keyOf : E → CString) (destroy : Bool) (numBuckets : Nat)
    (hbuckets : numBuckets ≠ 0) : MapParams CString E :=
  ⟨keyOf, hashCiString, compareCiStringKeys, destroy, numBuckets, hbuckets⟩

theorem hashCiString_eq_of_sameName {a b : CString} (hsame : sameName a b = true) :
    hashCiString a = hashCiString b := by
  have hfold : ∀ (s : CString) (hash : UInt32),
      s.foldl (fun hash c => hash * 37 + charValue c.toUpper) hash =
        (s.map Char.toLower).foldl (fun hash c => hash * 37 + charValue c.toUpper) hash := by
    intro s
    induction s with
    | nil => exact fun _ => rfl
    | cons c s ih =>
        intro hash
        simp only [List.foldl_cons, List.map_cons, Char.toUpper_toLower_eq_toUpper]
        exact ih _
  simp only [sameName, beq_iff_eq] at hsame
  rw [hashCiString, hfold, hsame, ← hfold, hashCiString]

theorem lawful_ciStringParams (keyOf : E → CString) (destroy : Bool) (numBuckets : Nat)
    (hbuckets : numBuckets ≠ 0) : (ciStringParams keyOf destroy numBuckets hbuckets).Lawful :=
  ⟨⟨sameName_refl, sameName_symm, sameName_trans⟩, fun _ _ => hashCiString_eq_of_sameName⟩

/-- A hash map is a map from key classes to entries.  Whatever sequence of operations is applied
to a new map, none of them leaves the memory of the map, their answers and the entries they destroy
are those of the map from key classes to entries, and afterwards the bucket entries are the entries
of that map and the free list of every bucket is exact.  Names are among the keys this holds for. -/
theorem hashmap_refines_entryMap :
    (∀ {E : Type} (keyOf : E → CString) (destroy : Bool) (numBuckets : Nat)
      (hbuckets : numBuckets ≠ 0), (ciStringParams keyOf destroy numBuckets hbuckets).Lawful) ∧
    ∀ {K E σ : Type} [DecidableEq E] (P : MapParams K E) (h : P.Lawful)
      (ops : List (MapOp K E σ)),
      ∃ outs map m, hashmapRun P (hashmapCreate P) ops = some (outs, map) ∧
        EntryMap.Run (fun _ : KeyClass P h => none) ops outs m ∧
        Lists (entryClass P h) (entriesOf map) m ∧ ∀ i, (map i).FreeListExact := by
  refine ⟨lawful_ciStringParams, ?_⟩
  intro K E σ _ P h ops
  obtain ⟨outs, map, m, hrun, hspec, hrep⟩ := (represents_create h).run ops
  exact ⟨outs, map, m, hrun, hspec, hrep.lists, hrep.exact⟩

/-- Numbers under names, in a map of sixteen buckets that destroys its entries. -/
def sampleMap : MapParams CString (CString × Nat) := ciStringParams Prod.fst true 16 (by decide)

/-- An entry replaced by another one of its key, the gap of a removed entry, and its reuse. -/
def sampleMapOps : List (MapOp CString (CString × Nat) Nat) :=
  [.put ("Q".toList, 1), .put ("a".toList, 2), .put ("q".toList, 3), .remove "A".toList,
    .get "Q".toList, .put ("A".toList, 4), .foreach (fun entry n => (true, n + entry.2)) 0, .toArray]

theorem hashmap_refines_entryMap_sample :
    sampleMap.Lawful ∧ ∃ map, ∃ (h : sampleMap.Lawful) (m : EntryMap sampleMap h),
      hashmapRun sampleMap (hashmapCreate sampleMap) sampleMapOps =
        some ([(.done, []), (.done, []), (.done, [("Q".toList, 1)]),
          (.removed true, [("a".toList, 2)]), (.entry (some ("q".toList, 3)), []), (.done, []),
          (.visited true 7, []), (.array [("q".toList, 3), ("A".toList, 4)], [])], map) ∧
        Lists (entryClass sampleMap h) (entriesOf map) m ∧ ∀ i, (map i).FreeListExact := by
  have hlawful : sampleMap.Lawful := hashmap_refines_entryMap.1 Prod.fst true 16 (by decide)
  obtain ⟨outs, map, m, hrun, -, hlists, hexact⟩ :=
    hashmap_refines_entryMap.2 sampleMap hlawful sampleMapOps
  refine ⟨hlawful, map, hlawful, m, ?_, hlists, hexact⟩
  have houts : (hashmapRun sampleMap (hashmapCreate sampleMap) sampleMapOps).map Prod.fst =
      some [(.done, []), (.done, []), (.done, [("Q".toList, 1)]),
        (.removed true, [("a".toList, 2)]), (.entry (some ("q".toList, 3)), []), (.done, []),
        (.visited true 7, []), (.array [("q".toList, 3), ("A".toList, 4)], [])] := by
    decide +kernel
  rw [hrun, Option.map_some] at houts
  rw [hrun, ← Option.some.inj houts]

end Mkfli4l
