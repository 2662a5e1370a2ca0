import Mkfli4l.Var.Model

/-!
# Resizing array slots

The functions of `var/slot_write.c` that create slots: `var_slot_resize`,
`var_slot_expand`, `var_slot_expand_clients`, `var_slot_get_or_create` and
`var_slot_get_priority`.

`unsigned` arithmetic wraps: the new size of an array is `index + 1`, which is `0`
for the largest index.  Resizing an array to fewer entries than it has makes
`add_num_slots` wrap too, and the loop that initialises the new slots then
overruns the array; this is the fault `outOfBounds`.

The results of this module say once what creating slots can do.  `Slots.Grows`
relates the slots before and after: no allocated slot is lost or changed, no array
shrinks, and a new entry slot is a fresh one.
-/

namespace Mkfli4l

open Lib Exec

/-- Is `q` a sub-slot of `p` with an index in the given range? -/
def isSubslotIn (p : List UInt32) (first last : UInt32) (q : List UInt32) : Bool :=
  match q.getLast? with
  | some i => decide (q.dropLast = p ∧ first ≤ i ∧ i < last)
  | none => false

/-- The loop of `var_slot_resize` over the new sub-slots, each of which is passed to
`var_slot_init`. -/
def Slots.initSubslots (s : Slots) (v : VarId) (p : List UInt32) (maxlevel : Nat)
    (first last : UInt32) : Slots :=
  if p.length + 1 = maxlevel then
    { s with entry := fun u q =>
        if u = v ∧ isSubslotIn p first last q = true then SlotEntry.init else s.entry u q }
  else
    { s with numSlots := fun u q =>
        if u = v ∧ isSubslotIn p first last q = true then 0 else s.numSlots u q }

def varSlotResize (v : VarId) (p : List UInt32) (maxlevel : Nat) (totNumSlots : UInt32) :
    SlotExec Unit := do
  let s ← get
  if totNumSlots < s.numSlots v p then
    -- `add_num_slots` wraps and the initialisation overruns the array
    throw .outOfBounds
  else
    modify fun s =>
      (s.initSubslots v p maxlevel (s.numSlots v p) totNumSlots).setNumSlots v p totNumSlots

/-- One level of the loops of `var_slot_expand` and `var_slot_get_or_create`: enlarge
the array slot `(v, done)` if it has no entry `i` and tell the clients about it. -/
def growSlot (v : VarId) (maxlevel : Nat) (expandClients : List UInt32 → SlotExec Unit)
    (done : List UInt32) (i : UInt32) : SlotExec Unit := do
  let s ← get
  if s.numSlots v done ≤ i then do
    varSlotResize v done maxlevel (i + 1)
    expandClients (done ++ [i])
  else
    pure ()

/-- The loop over the levels.  Each round dereferences the slot the previous round
has stepped to. -/
def growPath (v : VarId) (maxlevel : Nat) (expandClients : List UInt32 → SlotExec Unit) :
    List UInt32 → List UInt32 → SlotExec Unit
  | _, [] => pure ()
  | done, i :: rest => do
      derefSlot v done
      growSlot v maxlevel expandClients done i
      growPath v maxlevel expandClients (done ++ [i]) rest

/-- `var_slot_expand`, with the depth of the remaining call stack. -/
def varSlotExpand (D : Defs) : Nat → VarInstance → SlotExec Unit
  | 0, _ => throw .stackOverflow
  | depth + 1, inst => do
      let var ← D.deref inst.var
      growPath inst.var var.level
        (fun _ => forM var.varNClients fun client => varSlotExpand D depth ⟨client, inst.indices⟩)
        [] (inst.indices.take var.level)

def varSlotExpandClients (D : Defs) (depth : Nat) (v : VarId) (indices : List UInt32) :
    SlotExec Unit := do
  let var ← D.deref v
  forM var.varNClients fun client => varSlotExpand D depth ⟨client, indices⟩

/-- The array `var_n_array` of `var_slot_get_or_create`: the array bound variables of
levels `0`, `1`, ... below the given one. -/
def varNArray (D : Defs) : Nat → Option VarId → SlotExec (List VarId)
  | 0, _ => pure []
  | _ + 1, none => throw .nullPointer
  | level + 1, some b => do
      let varN ← D.deref b
      let lower ← varNArray D level varN.varN
      pure (lower ++ [b])

/-- The expansion in `var_slot_get_or_create`: that of the clients of the array bound
variable for the level of the last index. -/
def expandBoundClients (D : Defs) (depth : Nat) (bounds : List VarId) (indices : List UInt32) :
    SlotExec Unit :=
  match bounds[indices.length - 1]? with
  | some b => varSlotExpandClients D depth b indices
  | none => throw .nullPointer

/-- `var_slot_get_or_create`.  The slot it returns is the one at the address of the
instance. -/
def varSlotGetOrCreate (D : Defs) (depth : Nat) (inst : VarInstance) : SlotExec Unit := do
  let var ← D.deref inst.var
  let bounds ← varNArray D var.level var.varN
  growPath inst.var var.level (expandBoundClients D depth bounds) []
    (inst.indices.take var.level)

/-- `var_slot_get_priority` of the slot at `(v, p)`, `height` levels above the entries. -/
def varSlotGetPriority (s : Slots) (v : VarId) : Nat → List UInt32 → Priority
  | 0, p => (s.entry v p).priority
  | height + 1, p =>
      (List.range (s.numSlots v p).toNat).foldl
        (fun priority i =>
          let subprio := varSlotGetPriority s v height (p ++ [UInt32.ofNat i])
          if priority < subprio then subprio else priority)
        .undefined

/-! ### What creating slots does -/

/-- The effect of creating slots. -/
structure Slots.Grows (D : Defs) (s s' : Slots) : Prop where
  numSlots_le : ∀ v p, s.has v p = true → s.numSlots v p ≤ s'.numSlots v p
  entry_eq : ∀ v p, s.has v p = true → s'.entry v p = s.entry v p
  entry_new : ∀ v var p, D.vars v = some var → p.length = var.level →
    s.has v p = false → s'.has v p = true → s'.entry v p = SlotEntry.init
  cycles_eq : s'.cycles = s.cycles
  clears_eq : s'.clears = s.clears

variable {u : Unit} {q : List UInt32} {i : UInt32}

namespace Slots.Grows

variable {D : Defs} {s s' s'' : Slots}

protected theorem refl (s : Slots) : s.Grows D s where
  numSlots_le := fun _ _ _ => UInt32.le_refl _
  entry_eq := fun _ _ _ => rfl
  entry_new := by
    intro v var p _ _ hnot hhas
    rw [hnot] at hhas
    contradiction
  cycles_eq := rfl
  clears_eq := rfl

theorem has (h : s.Grows D s') {v : VarId} {p : List UInt32} (hp : s.has v p = true) :
    s'.has v p = true :=
  Slots.has_of_numSlots_le (h.numSlots_le v) hp

protected theorem trans (h : s.Grows D s') (h' : s'.Grows D s'') : s.Grows D s'' where
  numSlots_le := fun v p hp => UInt32.le_trans (h.numSlots_le v p hp) (h'.numSlots_le v p (h.has hp))
  entry_eq := fun v p hp => (h'.entry_eq v p (h.has hp)).trans (h.entry_eq v p hp)
  entry_new := by
    intro v var p hvar hlen hnot hhas
    by_cases hmid : s'.has v p = true
    · exact (h'.entry_eq v p hmid).trans (h.entry_new v var p hvar hlen hnot hmid)
    · exact h'.entry_new v var p hvar hlen (Bool.eq_false_iff.mpr hmid) hhas
  cycles_eq := h'.cycles_eq.trans h.cycles_eq
  clears_eq := h'.clears_eq.trans h.clears_eq

theorem updateEntry (h : s.Grows D s') {u : VarId} (hq : s.has u q = true)
    (f : SlotEntry → SlotEntry) : (s.updateEntry u q f).Grows D (s'.updateEntry u q f) where
  numSlots_le := by
    intro v p hp
    rw [Slots.updateEntry_has] at hp
    exact h.numSlots_le v p hp
  entry_eq := by
    intro v p hp
    rw [Slots.updateEntry_has] at hp
    rw [Slots.updateEntry_entry, Slots.updateEntry_entry, h.entry_eq u q hq, h.entry_eq v p hp]
  entry_new := by
    intro v var p hvar hlen hnot hhas
    rw [Slots.updateEntry_has] at hnot hhas
    have hne : ¬ (v = u ∧ p = q) := by
      rintro ⟨rfl, rfl⟩
      rw [hnot] at hq
      contradiction
    rw [Slots.updateEntry_entry, if_neg hne]
    exact h.entry_new v var p hvar hlen hnot hhas
  cycles_eq := h.cycles_eq
  clears_eq := h.clears_eq

end Slots.Grows

theorem isSubslotIn_concat {p : List UInt32} {first last : UInt32} :
    isSubslotIn p first last (q ++ [i]) = true ↔ q = p ∧ first ≤ i ∧ i < last := by
  simp [isSubslotIn]

theorem not_isSubslotIn_of_has {s : Slots} {v : VarId} {p : List UInt32} {last : UInt32}
    (hq : s.has v q = true) : isSubslotIn p (s.numSlots v p) last q = false := by
  induction q using List.reverseRecOn with
  | nil => rfl
  | append_singleton r i _ =>
      rw [Bool.eq_false_iff]
      intro hin
      obtain ⟨rfl, hle, -⟩ := isSubslotIn_concat.mp hin
      have hlt := (Slots.has_concat_iff r i).mp hq
      exact absurd hlt.2 (UInt32.not_lt.mpr hle)

section resize

variable {s : Slots} {v : VarId} {p : List UInt32} {maxlevel : Nat} {tot : UInt32}

/-- The slots after resizing the array slot `(v, p)`. -/
def Slots.resized (s : Slots) (v : VarId) (p : List UInt32) (maxlevel : Nat) (tot : UInt32) :
    Slots :=
  (s.initSubslots v p maxlevel (s.numSlots v p) tot).setNumSlots v p tot

theorem Slots.resized_numSlots_of_has {u : VarId} (hq : s.has u q = true) :
    (s.resized v p maxlevel tot).numSlots u q =
      if u = v ∧ q = p then tot else s.numSlots u q := by
  simp only [Slots.resized, Slots.setNumSlots_numSlots, Slots.initSubslots]
  by_cases hhere : u = v ∧ q = p
  · rw [if_pos hhere, if_pos hhere]
  · rw [if_neg hhere, if_neg hhere]
    split
    · rfl
    · by_cases hu : u = v
      · subst hu
        simp [not_isSubslotIn_of_has hq]
      · simp [hu]

theorem Slots.resized_numSlots_of_ne {u : VarId} (hu : u ≠ v) (q : List UInt32) :
    (s.resized v p maxlevel tot).numSlots u q = s.numSlots u q := by
  simp only [Slots.resized, Slots.setNumSlots_numSlots, Slots.initSubslots]
  rw [if_neg (fun h => hu h.1)]
  split
  · rfl
  · simp [hu]

theorem Slots.resized_entry_of_has {u : VarId} (hq : s.has u q = true) :
    (s.resized v p maxlevel tot).entry u q = s.entry u q := by
  simp only [Slots.resized, Slots.setNumSlots_entry, Slots.initSubslots]
  split
  · by_cases hu : u = v
    · subst hu
      simp [not_isSubslotIn_of_has hq]
    · simp [hu]
  · rfl

theorem Slots.resized_has_cases (hlen : q.length ≤ maxlevel)
    (hq : (s.resized v p maxlevel tot).has v q = true) :
    s.has v q = true ∨ isSubslotIn p (s.numSlots v p) tot q = true := by
  induction q using List.reverseRecOn with
  | nil => exact Or.inl Slots.has_nil
  | append_singleton r i ih =>
      rw [List.length_append, List.length_singleton] at hlen
      rw [Slots.has_concat_iff] at hq
      obtain ⟨hr, hi⟩ := hq
      rcases ih (by omega) hr with hold | hnew
      · rw [Slots.resized_numSlots_of_has hold] at hi
        by_cases hrp : r = p
        · subst hrp
          simp only [and_self, if_true] at hi
          by_cases hlt : i < s.numSlots v r
          · exact Or.inl ((Slots.has_concat_iff r i).mpr ⟨hold, hlt⟩)
          · exact Or.inr (isSubslotIn_concat.mpr ⟨rfl, UInt32.not_lt.mp hlt, hi⟩)
        · rw [if_neg (fun h => hrp h.2)] at hi
          exact Or.inl ((Slots.has_concat_iff r i).mpr ⟨hold, hi⟩)
      · -- a new sub-slot on an array level starts without entries
        exfalso
        have hrlen : r.length = p.length + 1 := by
          cases r using List.reverseRecOn with
          | nil => simp [isSubslotIn] at hnew
          | append_singleton r' j =>
              obtain ⟨rfl, -, -⟩ := isSubslotIn_concat.mp hnew
              simp
        have hrp : r ≠ p := by
          intro h
          rw [h] at hrlen
          omega
        have hdeep : ¬ p.length + 1 = maxlevel := by omega
        have hzero : (s.resized v p maxlevel tot).numSlots v r = 0 := by
          simp [Slots.resized, Slots.initSubslots, hdeep, hrp, hnew]
        rw [hzero] at hi
        exact absurd hi UInt32.not_lt_zero

theorem Slots.resized_grows {D : Defs} {var : Var} (hvar : D.vars v = some var)
    (hle : s.numSlots v p ≤ tot) :
    s.Grows D (s.resized v p var.level tot) where
  numSlots_le := by
    intro u q hq
    rw [Slots.resized_numSlots_of_has hq]
    split
    · next h =>
        obtain ⟨rfl, rfl⟩ := h
        exact hle
    · exact UInt32.le_refl _
  entry_eq := fun u q hq => Slots.resized_entry_of_has hq
  entry_new := by
    intro u uvar q huvar hlen hnot hhas
    by_cases hu : u = v
    · subst hu
      obtain rfl : var = uvar := by rw [hvar] at huvar; exact Option.some.inj huvar
      rcases Slots.resized_has_cases (le_of_eq hlen) hhas with hold | hnew
      · rw [hnot] at hold
        contradiction
      · cases q using List.reverseRecOn with
        | nil => simp [isSubslotIn] at hnew
        | append_singleton r i =>
            obtain ⟨rfl, -, -⟩ := isSubslotIn_concat.mp hnew
            rw [List.length_append, List.length_singleton] at hlen
            simp [Slots.resized, Slots.initSubslots, hlen, hnew]
    · have hsame : (s.resized v p var.level tot).has u q = s.has u q :=
        Slots.has_congr (Slots.resized_numSlots_of_ne hu) q
      rw [hsame, hnot] at hhas
      contradiction
  cycles_eq := by
    simp only [Slots.resized, Slots.setNumSlots_cycles, Slots.initSubslots]
    split <;> rfl
  clears_eq := by
    simp only [Slots.resized, Slots.setNumSlots_clears, Slots.initSubslots]
    split <;> rfl

theorem varSlotResize_ok_iff {s' : Slots} :
    varSlotResize v p maxlevel tot s = .ok (u, s') ↔
      s.numSlots v p ≤ tot ∧ s.resized v p maxlevel tot = s' := by
  simp only [varSlotResize, bind_ok_iff, get_ok_iff]
  constructor
  · rintro ⟨t, s₁, ⟨rfl, rfl⟩, hrun⟩
    split at hrun
    · exact (throw_ok_iff.mp hrun).elim
    · next hlt => exact ⟨UInt32.not_lt.mp hlt, modify_ok_iff.mp hrun⟩
  · rintro ⟨hle, rfl⟩
    refine ⟨s, s, ⟨rfl, rfl⟩, ?_⟩
    rw [if_neg (UInt32.not_lt.mpr hle)]
    rfl

end resize

section growing

variable {D : Defs}

/-- Computations that do nothing but create slots. -/
abbrev CreatesOnly (D : Defs) {α : Type} (x : SlotExec α) : Prop := Exec.Steps (Slots.Grows D) x

namespace CreatesOnly

variable {α β : Type}

theorem pure (a : α) : CreatesOnly D (pure a) := Exec.Steps.pure Slots.Grows.refl a

theorem throw (e : Fault) : CreatesOnly D (throw e : SlotExec α) := Exec.Steps.throw e

theorem bind {x : SlotExec α} {f : α → SlotExec β} (hx : CreatesOnly D x)
    (hf : ∀ a, CreatesOnly D (f a)) : CreatesOnly D (x >>= f) :=
  Exec.Steps.bind (fun _ _ _ h h' => h.trans h') hx hf

theorem forM {f : α → SlotExec Unit} (l : List α) (hf : ∀ a ∈ l, CreatesOnly D (f a)) :
    CreatesOnly D (forM l f) :=
  Exec.Steps.forM Slots.Grows.refl (fun _ _ _ h h' => h.trans h') l hf

end CreatesOnly

theorem Defs.deref_ok_iff {v : VarId} {var : Var} {s s' : Slots} :
    D.deref v s = .ok (var, s') ↔ D.vars v = some var ∧ s = s' := by
  unfold Defs.deref
  cases hv : D.vars v with
  | none => simp
  | some u => simp

theorem Defs.deref_creates (v : VarId) : CreatesOnly D (D.deref v) := by
  intro s var s' h
  obtain ⟨-, rfl⟩ := Defs.deref_ok_iff.mp h
  exact Slots.Grows.refl s

theorem derefSlot_ok_iff {v : VarId} {p : List UInt32} {s s' : Slots} :
    derefSlot v p s = .ok (u, s') ↔ s.has v p = true ∧ s = s' := by
  simp only [derefSlot, bind_ok_iff, get_ok_iff]
  constructor
  · rintro ⟨t, s₁, ⟨rfl, rfl⟩, hrun⟩
    split at hrun
    · next h => exact ⟨h, (pure_ok_iff.mp hrun).2⟩
    · exact (throw_ok_iff.mp hrun).elim
  · rintro ⟨hhas, rfl⟩
    refine ⟨s, s, ⟨rfl, rfl⟩, ?_⟩
    rw [if_pos hhas]
    rfl

theorem derefSlot_creates (v : VarId) (p : List UInt32) : CreatesOnly D (derefSlot v p) := by
  intro s u s' h
  obtain ⟨-, rfl⟩ := derefSlot_ok_iff.mp h
  exact Slots.Grows.refl s

variable {v : VarId} {var : Var} {expandClients : List UInt32 → SlotExec Unit}

variable {done rest : List UInt32} {inst : VarInstance}

theorem growSlot_ok_cases {maxlevel : Nat}
    {s s' : Slots} (h : growSlot v maxlevel expandClients done i s = .ok (u, s')) :
    (i < s.numSlots v done ∧ s' = s) ∨
      (s.numSlots v done ≤ i ∧ s.numSlots v done ≤ i + 1 ∧
        expandClients (done ++ [i]) (s.resized v done maxlevel (i + 1)) = .ok ((), s')) := by
  obtain ⟨t, s₁, hget, hrun⟩ := bind_ok_iff.mp h
  obtain ⟨rfl, rfl⟩ := get_ok_iff.mp hget
  split at hrun
  · next hle =>
      obtain ⟨_, s₂, hresize, hexpand⟩ := bind_ok_iff.mp hrun
      obtain ⟨hgrow, rfl⟩ := varSlotResize_ok_iff.mp hresize
      exact Or.inr ⟨hle, hgrow, hexpand⟩
  · next hlt =>
      obtain ⟨-, rfl⟩ := pure_ok_iff.mp hrun
      exact Or.inl ⟨UInt32.not_le.mp hlt, rfl⟩

theorem growSlot_creates (hvar : D.vars v = some var)
    (hclients : ∀ q, CreatesOnly D (expandClients q)) (done : List UInt32) (i : UInt32) :
    CreatesOnly D (growSlot v var.level expandClients done i) := by
  intro s u s' h
  rcases growSlot_ok_cases h with ⟨-, rfl⟩ | ⟨-, hgrow, hexpand⟩
  · exact Slots.Grows.refl s'
  · exact (Slots.resized_grows hvar hgrow).trans (hclients _ hexpand)

theorem growPath_creates (hvar : D.vars v = some var)
    (hclients : ∀ q, CreatesOnly D (expandClients q)) (done rest : List UInt32) :
    CreatesOnly D (growPath v var.level expandClients done rest) := by
  induction rest generalizing done with
  | nil => exact CreatesOnly.pure ()
  | cons i rest ih =>
      refine CreatesOnly.bind (derefSlot_creates v done) fun _ => ?_
      exact CreatesOnly.bind (growSlot_creates hvar hclients done i) fun _ => ih (done ++ [i])

theorem varSlotExpand_creates (depth : Nat) (inst : VarInstance) :
    CreatesOnly D (varSlotExpand D depth inst) := by
  induction depth generalizing inst with
  | zero => exact CreatesOnly.throw _
  | succ depth ih =>
      intro s u s' h
      obtain ⟨var, s₁, hderef, hrun⟩ := bind_ok_iff.mp h
      obtain ⟨hvar, rfl⟩ := Defs.deref_ok_iff.mp hderef
      refine growPath_creates hvar ?_ [] _ hrun
      intro _
      exact CreatesOnly.forM var.varNClients fun client _ => ih ⟨client, inst.indices⟩

theorem varSlotExpandClients_creates (depth : Nat) (v : VarId) (indices : List UInt32) :
    CreatesOnly D (varSlotExpandClients D depth v indices) := by
  refine CreatesOnly.bind (Defs.deref_creates v) fun var => ?_
  exact CreatesOnly.forM var.varNClients fun client _ => varSlotExpand_creates depth _

theorem varNArray_creates (level : Nat) (b : Option VarId) :
    CreatesOnly D (varNArray D level b) := by
  induction level generalizing b with
  | zero => exact CreatesOnly.pure []
  | succ level ih =>
      cases b with
      | none => exact CreatesOnly.throw _
      | some b =>
          refine CreatesOnly.bind (Defs.deref_creates b) fun varN => ?_
          exact CreatesOnly.bind (ih varN.varN) fun lower => CreatesOnly.pure _

theorem varNArray_state {level : Nat} {b : Option VarId} {bounds : List VarId} {s s' : Slots}
    (h : varNArray D level b s = .ok (bounds, s')) : s' = s := by
  induction level generalizing b bounds s' with
  | zero => exact (pure_ok_iff.mp h).2.symm
  | succ level ih =>
      cases b with
      | none => exact (throw_ok_iff.mp h).elim
      | some b =>
          obtain ⟨varN, s₁, hderef, hrun⟩ := bind_ok_iff.mp h
          obtain ⟨-, rfl⟩ := Defs.deref_ok_iff.mp hderef
          obtain ⟨lower, s₂, hlower, hrun⟩ := bind_ok_iff.mp hrun
          obtain ⟨-, rfl⟩ := pure_ok_iff.mp hrun
          exact ih hlower

theorem expandBoundClients_creates (depth : Nat) (bounds : List VarId) (indices : List UInt32) :
    CreatesOnly D (expandBoundClients D depth bounds indices) := by
  unfold expandBoundClients
  split
  · exact varSlotExpandClients_creates depth _ indices
  · exact CreatesOnly.throw _

theorem varSlotGetOrCreate_creates (depth : Nat) (inst : VarInstance) :
    CreatesOnly D (varSlotGetOrCreate D depth inst) := by
  intro s u s' h
  obtain ⟨var, s₁, hderef, hrun⟩ := bind_ok_iff.mp h
  obtain ⟨hvar, rfl⟩ := Defs.deref_ok_iff.mp hderef
  obtain ⟨bounds, s₂, hbounds, hrun⟩ := bind_ok_iff.mp hrun
  have hgrow := growPath_creates hvar (expandBoundClients_creates depth bounds) [] _ hrun
  exact (varNArray_creates _ _ hbounds).trans hgrow

/-- The largest index: the one whose successor wraps to zero. -/
def uintMax : UInt32 := 4294967295

theorem lt_add_one_of_ne_uintMax (hi : i ≠ uintMax) : i < i + 1 := by
  have hne : i.toNat ≠ 4294967295 := fun h => hi (UInt32.toNat_inj.mp h)
  have hlt : i.toNat < 4294967296 := i.toNat_lt
  rw [UInt32.lt_iff_toNat_lt, UInt32.toNat_add, UInt32.toNat_one]
  omega

theorem uintMax_add_one : uintMax + 1 = 0 := by decide

theorem Slots.ne_uintMax_of_has {s : Slots} {p : List UInt32} (hp : s.has v p = true) :
    ∀ i ∈ p, i ≠ uintMax := by
  induction p using List.reverseRecOn with
  | nil => simp
  | append_singleton p j ih =>
      obtain ⟨hhas, hlt⟩ := (Slots.has_concat_iff p j).mp hp
      intro i hi
      rcases List.mem_append.mp hi with hi | hi
      · exact ih hhas i hi
      · obtain rfl := List.mem_singleton.mp hi
        rintro rfl
        have hbound : (s.numSlots v p).toNat < 4294967296 := (s.numSlots v p).toNat_lt
        have : (4294967295 : Nat) < (s.numSlots v p).toNat := hlt
        omega

theorem growSlot_has (hvar : D.vars v = some var) (hclients : ∀ q, CreatesOnly D (expandClients q))
    {s s' : Slots} (hdone : s.has v done = true) (hi : i ≠ uintMax)
    (h : growSlot v var.level expandClients done i s = .ok (u, s')) :
    s'.has v (done ++ [i]) = true := by
  rcases growSlot_ok_cases h with ⟨hlt, rfl⟩ | ⟨-, hgrow, hexpand⟩
  · exact (Slots.has_concat_iff done i).mpr ⟨hdone, hlt⟩
  · refine (hclients _ hexpand).has ((Slots.has_concat_iff done i).mpr ⟨?_, ?_⟩)
    · exact (Slots.resized_grows hvar hgrow).has hdone
    · rw [Slots.resized_numSlots_of_has hdone, if_pos ⟨rfl, rfl⟩]
      exact lt_add_one_of_ne_uintMax hi

theorem growPath_has (hvar : D.vars v = some var)
    (hclients : ∀ q, CreatesOnly D (expandClients q))
    {s s' : Slots} (hdone : s.has v done = true) (hrest : ∀ i ∈ rest, i ≠ uintMax)
    (h : growPath v var.level expandClients done rest s = .ok (u, s')) :
    s'.has v (done ++ rest) = true := by
  induction rest generalizing done s with
  | nil =>
      obtain ⟨-, rfl⟩ := pure_ok_iff.mp h
      rwa [List.append_nil]
  | cons i rest ih =>
      obtain ⟨_, s₁, hderef, hrun⟩ := bind_ok_iff.mp h
      obtain ⟨-, rfl⟩ := derefSlot_ok_iff.mp hderef
      obtain ⟨_, s₂, hgrow, hrun⟩ := bind_ok_iff.mp hrun
      have hhas := growSlot_has hvar hclients hdone (hrest i List.mem_cons_self) hgrow
      have := ih hhas (fun j hj => hrest j (List.mem_cons_of_mem i hj)) hrun
      rwa [List.append_assoc] at this

theorem varSlotGetOrCreate_has {depth : Nat} {s s' : Slots}
    (hvar : D.vars inst.var = some var) (hlen : inst.indices.length ≤ var.level)
    (hmax : ∀ i ∈ inst.indices, i ≠ uintMax) (h : varSlotGetOrCreate D depth inst s = .ok (u, s')) :
    s'.has inst.var inst.indices = true := by
  obtain ⟨var', s₁, hderef, hrun⟩ := bind_ok_iff.mp h
  obtain ⟨hvar', rfl⟩ := Defs.deref_ok_iff.mp hderef
  obtain rfl : var = var' := Option.some.inj (hvar.symm.trans hvar')
  obtain ⟨bounds, s₂, -, hrun⟩ := bind_ok_iff.mp hrun
  rw [List.take_of_length_le hlen] at hrun
  exact growPath_has hvar (expandBoundClients_creates depth bounds) Slots.has_nil hmax hrun

theorem growPath_of_has {maxlevel : Nat} {s s' : Slots} (hhas : s.has v (done ++ rest) = true)
    (h : growPath v maxlevel expandClients done rest s = .ok (u, s')) : s' = s := by
  induction rest generalizing done s with
  | nil => exact (pure_ok_iff.mp h).2.symm
  | cons i rest ih =>
      have hnext : s.has v ((done ++ [i]) ++ rest) = true := by
        rwa [List.append_assoc]
      obtain ⟨_, s₁, hderef, hrun⟩ := bind_ok_iff.mp h
      obtain ⟨-, rfl⟩ := derefSlot_ok_iff.mp hderef
      obtain ⟨_, s₂, hgrow, hrest⟩ := bind_ok_iff.mp hrun
      rcases growSlot_ok_cases hgrow with ⟨-, rfl⟩ | ⟨hle, -, -⟩
      · exact ih hnext hrest
      · have hlt := ((Slots.has_concat_iff done i).mp (Slots.has_of_append hnext)).2
        exact absurd hlt (UInt32.not_lt.mpr hle)

theorem varSlotGetOrCreate_of_has {depth : Nat} {s s' : Slots}
    (hhas : s.has inst.var inst.indices = true)
    (h : varSlotGetOrCreate D depth inst s = .ok (u, s')) : s' = s := by
  obtain ⟨var, s₁, hderef, hrun⟩ := bind_ok_iff.mp h
  obtain ⟨-, rfl⟩ := Defs.deref_ok_iff.mp hderef
  obtain ⟨bounds, s₂, hbounds, hgrow⟩ := bind_ok_iff.mp hrun
  have hstate := varNArray_state hbounds
  subst hstate
  exact growPath_of_has (Slots.has_take hhas _) hgrow

/-! ### When creating slots stays within the arrays -/

theorem growSlot_spares {maxlevel : Nat} (hi : i ≠ uintMax)
    (hclients : Exec.Spares .outOfBounds (expandClients (done ++ [i]))) :
    Exec.Spares .outOfBounds (growSlot v maxlevel expandClients done i) := by
  intro s h
  rcases bind_error_iff.mp h with h | ⟨t, s₁, hget, h⟩
  · exact get_error_iff.mp h
  · obtain ⟨rfl, rfl⟩ := get_ok_iff.mp hget
    split at h
    · next hle =>
        have hgrow : s.numSlots v done ≤ i + 1 :=
          UInt32.le_of_lt (UInt32.lt_of_le_of_lt hle (lt_add_one_of_ne_uintMax hi))
        have hresize : varSlotResize v done maxlevel (i + 1) s =
            .ok ((), s.resized v done maxlevel (i + 1)) :=
          varSlotResize_ok_iff.mpr ⟨hgrow, rfl⟩
        rw [bind_of_ok hresize] at h
        exact hclients _ h
    · exact pure_error_iff.mp h

theorem derefSlot_error_iff {p : List UInt32} {s : Slots} {e : Fault} :
    derefSlot v p s = .error e ↔ s.has v p = false ∧ e = .outOfBounds := by
  simp only [derefSlot, bind_error_iff, get_error_iff, get_ok_iff, false_or]
  constructor
  · rintro ⟨t, s₁, ⟨rfl, rfl⟩, hrun⟩
    split at hrun
    · exact (pure_error_iff.mp hrun).elim
    · next h => exact ⟨Bool.eq_false_iff.mpr h, (throw_error_iff.mp hrun).symm⟩
  · rintro ⟨hhas, rfl⟩
    refine ⟨s, s, ⟨rfl, rfl⟩, ?_⟩
    rw [hhas]
    rfl

theorem growPath_spares (hvar : D.vars v = some var)
    (hclients : ∀ q, CreatesOnly D (expandClients q))
    (hspares : ∀ q, (∀ i ∈ q, i ≠ uintMax) → Exec.Spares .outOfBounds (expandClients q))
    {s : Slots} (hdone : s.has v done = true) (hrest : ∀ i ∈ rest, i ≠ uintMax) :
    growPath v var.level expandClients done rest s ≠ .error .outOfBounds := by
  induction rest generalizing done s with
  | nil => exact fun h => pure_error_iff.mp h
  | cons i rest ih =>
      intro h
      have hi : i ≠ uintMax := hrest i List.mem_cons_self
      rcases bind_error_iff.mp h with h | ⟨_, s₁, hderef, h⟩
      · rw [derefSlot_error_iff, hdone] at h
        exact Bool.noConfusion h.1
      · obtain ⟨-, rfl⟩ := derefSlot_ok_iff.mp hderef
        rcases bind_error_iff.mp h with h | ⟨_, s₂, hgrow, h⟩
        · refine growSlot_spares hi (hspares _ ?_) s h
          intro j hj
          rcases List.mem_append.mp hj with hj | hj
          · exact Slots.ne_uintMax_of_has hdone j hj
          · rwa [List.mem_singleton.mp hj]
        · exact ih (growSlot_has hvar hclients hdone hi hgrow)
            (fun j hj => hrest j (List.mem_cons_of_mem i hj)) h

theorem Defs.deref_spares (v : VarId) : Exec.Spares .outOfBounds (D.deref v) := by
  intro s h
  unfold Defs.deref at h
  cases hv : D.vars v with
  | none => rw [hv] at h; simp at h
  | some var => rw [hv] at h; simp at h

theorem varSlotExpand_spares (depth : Nat) (hmax : ∀ i ∈ inst.indices, i ≠ uintMax) :
    Exec.Spares .outOfBounds (varSlotExpand D depth inst) := by
  induction depth generalizing inst with
  | zero => exact Exec.Spares.throw (by decide)
  | succ depth ih =>
      intro s h
      rcases bind_error_iff.mp h with h | ⟨var, s₁, hderef, h⟩
      · exact Defs.deref_spares _ s h
      · obtain ⟨hvar, rfl⟩ := Defs.deref_ok_iff.mp hderef
        refine growPath_spares hvar ?_ ?_ Slots.has_nil ?_ h
        · intro _
          exact CreatesOnly.forM var.varNClients fun client _ => varSlotExpand_creates depth _
        · intro _ _
          exact Exec.Spares.forM var.varNClients fun client _ => ih hmax
        · intro i hi
          exact hmax i (List.mem_of_mem_take hi)

theorem varSlotExpandClients_spares (depth : Nat) (v : VarId) {indices : List UInt32}
    (hmax : ∀ i ∈ indices, i ≠ uintMax) :
    Exec.Spares .outOfBounds (varSlotExpandClients D depth v indices) := by
  refine Exec.Spares.bind (Defs.deref_spares v) fun var => ?_
  exact Exec.Spares.forM var.varNClients fun client _ => varSlotExpand_spares depth hmax

theorem varNArray_spares (level : Nat) (b : Option VarId) :
    Exec.Spares .outOfBounds (varNArray D level b) := by
  induction level generalizing b with
  | zero => exact Exec.Spares.pure []
  | succ level ih =>
      cases b with
      | none => exact Exec.Spares.throw (by decide)
      | some b =>
          refine Exec.Spares.bind (Defs.deref_spares b) fun varN => ?_
          exact Exec.Spares.bind (ih varN.varN) fun lower => Exec.Spares.pure _

theorem expandBoundClients_spares (depth : Nat) (bounds : List VarId) {indices : List UInt32}
    (hmax : ∀ i ∈ indices, i ≠ uintMax) :
    Exec.Spares .outOfBounds (expandBoundClients D depth bounds indices) := by
  unfold expandBoundClients
  split
  · exact varSlotExpandClients_spares depth _ hmax
  · exact Exec.Spares.throw (by decide)

theorem varSlotGetOrCreate_spares (depth : Nat) (hmax : ∀ i ∈ inst.indices, i ≠ uintMax) :
    Exec.Spares .outOfBounds (varSlotGetOrCreate D depth inst) := by
  intro s h
  rcases bind_error_iff.mp h with h | ⟨var, s₁, hderef, h⟩
  · exact Defs.deref_spares _ s h
  · obtain ⟨hvar, rfl⟩ := Defs.deref_ok_iff.mp hderef
    rcases bind_error_iff.mp h with h | ⟨bounds, s₂, -, h⟩
    · exact varNArray_spares _ _ _ h
    · refine growPath_spares hvar (expandBoundClients_creates depth bounds)
        (fun indices => expandBoundClients_spares depth bounds) Slots.has_nil ?_ h
      intro i hi
      exact hmax i (List.mem_of_mem_take hi)

end growing

end Mkfli4l
