import Mkfli4l.Var.Condition
import Mkfli4l.Var.IndexSafety

/-!
# The arrays of check scripts

The statements of check scripts that produce arrays (`split`, `=~`, `fgrep` and `set` with an index)
define them with the priority `VAR_PRIORITY_SCRIPT_TRANSIENT`, without a condition and without a
default value; the bound is made along with the array.  This module tells what reading the bound, and
writing an element or clearing the array, does to the slots of such an array and its bound.
-/

namespace Mkfli4l

open Lib Exec

/-- An array with one index as the statements of check scripts define it, with its bound. -/
structure TransientArray (D : Defs) (v b : VarId) (var varN : Var) : Prop where
  array : D.vars v = some var
  level : var.level = 1
  link : var.varN = some b
  clients : var.varNClients = []
  priority : var.priority = .scriptTransient
  bound : D.vars b = some varN
  boundLevel : varN.level = 0
  boundClients : varN.varNClients = [v]
  boundType : varN.type = D.types.arrayBoundType
  condition : D.condition v = exprTrue
  boundCondition : D.condition b = exprTrue
  defValue : D.defValue v = none
  boundDefValue : D.defValue b = some (.literal (.integer 0))

/-- The bound reads as a number, and it can be overwritten by bound updates. -/
structure Slots.BoundHolds (s : Slots) (b : VarId) (n : ℕ) : Prop where
  small : n ≤ 2147483647
  value : (s.entry b []).value = some (formatInt n) ∨ (s.entry b []).value = none ∧ n = 0
  cached : (s.entry b []).defValue = none ∨ (s.entry b []).defValue = some ['0']
  idle : (s.entry b []).readActive = false
  priority : (s.entry b []).priority ≤ .arrayBound

section array

variable {D : Defs} {v b : VarId} {var varN : Var} {s : Slots} {n : ℕ} {texts : List CString}

theorem TransientArray.ne (h : TransientArray D v b var varN) : v ≠ b := by
  rintro rfl
  have hsame : var = varN := Option.some.inj (h.array.symm.trans h.bound)
  have hlevel := h.level
  rw [hsame, h.boundLevel] at hlevel
  omega

/-! ### Reading the bound -/

variable {inst : VarInstance} {w : VarId} {i j : UInt32} {s' : Slots} {m d : ℕ} {text : CString}
  {r : WriteResult} {c : Callees}

theorem varInstanceIsEnabled_true (hcondition : D.condition inst.var = exprTrue)
    (d : ℕ) : varInstanceIsEnabled D (calls D (d + 1)) inst s = .ok (true, s) := by
  unfold varInstanceIsEnabled
  rw [hcondition]
  rfl

theorem Defs.deref_of_some {wvar : Var} (h : D.vars w = some wvar) :
    D.deref w s = .ok (wvar, s) := by
  unfold Defs.deref
  rw [h]
  rfl

@[simp] theorem Slots.setEntry_self (s : Slots) (w : VarId) (p : List UInt32) :
    s.setEntry w p (s.entry w p) = s := by
  have hentry : (fun u q => if u = w ∧ q = p then s.entry w p else s.entry u q) = s.entry := by
    funext u q
    split
    · next h => rw [h.1, h.2]
    · rfl
  unfold Slots.setEntry
  rw [hentry]

@[simp] theorem Slots.setEntry_setEntry (s : Slots) (w : VarId) (p : List UInt32) (e e' : SlotEntry) :
    (s.setEntry w p e).setEntry w p e' = s.setEntry w p e' := by
  have hentry : (fun u q => if u = w ∧ q = p then e' else (s.setEntry w p e).entry u q) =
      fun u q => if u = w ∧ q = p then e' else s.entry u q := by
    funext u q
    rw [Slots.setEntry_entry]
    split
    · rfl
    · rfl
  unfold Slots.setEntry at hentry ⊢
  rw [hentry]

theorem varSlotGetValue_bound (h : TransientArray D v b var varN) (d : ℕ)
    (hheld : (s.entry b []).value = some (formatInt n) ∨ (s.entry b []).value = none ∧ n = 0)
    (hcache : (s.entry b []).defValue = none ∨ (s.entry b []).defValue = some ['0']) :
    ∃ value e, varSlotGetValue D (calls D (d + 1)) ⟨b, []⟩ s = .ok (value, s.setEntry b [] e) ∧
      value.value = some (formatInt n) ∧ e.value = (s.entry b []).value ∧
      e.priority = (s.entry b []).priority ∧ (e.defValue = none ∨ e.defValue = some ['0']) := by
  rcases hheld with hvalue | ⟨hvalue, rfl⟩
  · refine ⟨⟨some (formatInt n), .normal, (s.entry b []).extra, (s.entry b []).priority⟩, s.entry b [],
      ?_, rfl, rfl, rfl, hcache⟩
    simp only [varSlotGetValue, bind_apply, get_apply, hvalue, pure_apply,
      Slots.setEntry_self]
  · have hfetch : ∃ e, slotDefaultValue D (calls D (d + 1)) ⟨b, []⟩ s =
        .ok (some ['0'], s.setEntry b [] e) ∧ e.value = (s.entry b []).value ∧
          e.extra = (s.entry b []).extra ∧ e.priority = (s.entry b []).priority ∧
          e.defValue = some ['0'] := by
      rcases hcache with hcached | hcached
      · refine ⟨{ s.entry b [] with defValue := some ['0'] }, ?_, rfl, rfl, rfl, rfl⟩
        have hstore : cacheDefault D (calls D (d + 1)) ⟨b, []⟩ s =
            .ok ((), s.setEntry b [] { s.entry b [] with defValue := some ['0'] }) := by
          unfold cacheDefault
          rw [h.boundDefValue]
          rfl
        simp only [slotDefaultValue, bind_apply, get_apply, hcached, hstore, pure_apply,
          Slots.setEntry_entry, and_self, if_true]
      · refine ⟨s.entry b [], ?_, rfl, rfl, rfl, hcached⟩
        simp only [slotDefaultValue, bind_apply, get_apply, hcached, pure_apply,
          Slots.setEntry_self]
    obtain ⟨e, hrun, hevalue, heextra, hepriority, hecached⟩ := hfetch
    refine ⟨⟨some ['0'], .default, e.extra, e.priority⟩, e, ?_, rfl, hevalue, hepriority, .inr hecached⟩
    simp only [varSlotGetValue, bind_apply, get_apply, hvalue, hrun, pure_apply,
      heextra, hepriority, Option.elim_some]

theorem tryGetValue_bound (h : TransientArray D v b var varN) (hb : s.BoundHolds b n) (d : ℕ) :
    ∃ value e, varInstanceDoGetValue D (calls D (d + 1)) ⟨b, []⟩ s =
      .ok (some value, s.setEntry b [] e) ∧ value.value = some (formatInt n) ∧
        (s.setEntry b [] e).BoundHolds b n := by
  let active := { s.entry b [] with readActive := true }
  have hactive : (s.setEntry b [] active).entry b [] = active := by simp
  obtain ⟨value, e, hrun, hvalue, hevalue, hepriority, hecached⟩ :=
    varSlotGetValue_bound (s := s.setEntry b [] active) h d (by rw [hactive]; exact hb.value)
      (by rw [hactive]; exact hb.cached)
  rw [hactive] at hevalue hepriority
  have henabled : varInstanceIsEnabled D (calls D (d + 1)) ⟨b, []⟩ (s.setEntry b [] active) =
      .ok (true, s.setEntry b [] active) := varInstanceIsEnabled_true h.boundCondition d
  have hderef : ∀ t, D.deref b t = .ok (varN, t) := fun t => Defs.deref_of_some h.bound
  have hslot : ∀ t, derefSlot b [] t = .ok ((), t) := fun t => rfl
  have hmark : setReadActive ⟨b, []⟩ true s = .ok ((), s.setEntry b [] active) := rfl
  have hunmark : setReadActive ⟨b, []⟩ false ((s.setEntry b [] active).setEntry b [] e) =
      .ok ((), s.setEntry b [] { e with readActive := false }) := by
    simp [setReadActive, modify_apply, Slots.updateEntry]
  have hread : readCheckedValue D (calls D (d + 1)) varN ⟨b, []⟩ s =
      .ok (some value, s.setEntry b [] { e with readActive := false }) := by
    simp only [readCheckedValue, bind_apply, hslot, get_apply, hb.idle, Bool.false_eq_true,
      if_false, hmark, henabled, hrun, hunmark, pure_apply, presentValue, if_true]
  refine ⟨value, { e with readActive := false }, ?_, hvalue, ?_⟩
  · simp only [varInstanceDoGetValue, varInstanceReadValue, indicesInBounds, varInstanceGetSlotForReading,
      bind_apply, get_apply, pure_apply, hderef, h.boundLevel, List.length_nil,
      Nat.lt_irrefl, if_false, Slots.has_nil, if_true, hread, dropUnset, hvalue, reduceCtorEq]
  · have hentry : (s.setEntry b [] { e with readActive := false }).entry b [] =
        { e with readActive := false } := by simp
    refine ⟨hb.small, ?_, ?_, ?_, ?_⟩
    · rw [hentry]
      exact hevalue ▸ hb.value
    · rw [hentry]
      exact hecached
    · rw [hentry]
    · rw [hentry]
      exact hepriority ▸ hb.priority

/-! ### Creating elements -/

/-- The slots with an element of an array with one index. -/
def Slots.extended (s : Slots) (v : VarId) (i : UInt32) : Slots :=
  if s.numSlots v [] ≤ i then s.resized v [] 1 (i + 1) else s

theorem toNat_add_one_of_ne_uintMax (hi : i ≠ uintMax) : (i + 1).toNat = i.toNat + 1 := by
  have hlt := lt_add_one_of_ne_uintMax hi
  rw [UInt32.lt_iff_toNat_lt, UInt32.toNat_add] at hlt
  have hone : (1 : UInt32).toNat = 1 := rfl
  rw [UInt32.toNat_add, hone]
  rw [hone] at hlt
  omega

theorem Slots.extended_numSlots (hi : i ≠ uintMax) :
    ((s.extended v i).numSlots v []).toNat = max (s.numSlots v []).toNat (i.toNat + 1) := by
  have hsucc := toNat_add_one_of_ne_uintMax hi
  unfold Slots.extended
  split
  · next hle =>
      rw [UInt32.le_iff_toNat_le] at hle
      rw [Slots.resized_numSlots_of_has Slots.has_nil, if_pos ⟨rfl, rfl⟩, hsucc]
      omega
  · next hle =>
      rw [UInt32.le_iff_toNat_le] at hle
      omega

theorem Slots.extended_entry_of_ne (hw : w ≠ v) (p : List UInt32) :
    (s.extended v i).entry w p = s.entry w p := by
  unfold Slots.extended
  split
  · simp [Slots.resized, Slots.initSubslots, hw]
  · rfl

theorem Slots.extended_entry (hj : j < (s.extended v i).numSlots v []) :
    (s.extended v i).entry v [j] = if j < s.numSlots v [] then s.entry v [j] else .init := by
  unfold Slots.extended at hj ⊢
  split
  · next hle =>
      rw [if_pos hle, Slots.resized_numSlots_of_has Slots.has_nil, if_pos ⟨rfl, rfl⟩] at hj
      have hsub : isSubslotIn [] (s.numSlots v []) (i + 1) [j] = true ↔ ¬ j < s.numSlots v [] := by
        have hconcat : isSubslotIn [] (s.numSlots v []) (i + 1) ([] ++ [j]) = true ↔ _ :=
          isSubslotIn_concat
        rw [List.nil_append] at hconcat
        rw [hconcat, UInt32.not_lt]
        simp [hj]
      by_cases hold : j < s.numSlots v []
      · have hno : isSubslotIn [] (s.numSlots v []) (i + 1) [j] = false := by
          rw [Bool.eq_false_iff, ne_eq, hsub]
          simp [hold]
        simp [Slots.resized, Slots.initSubslots, hno, hold]
      · simp [Slots.resized, Slots.initSubslots, hsub.mpr hold, hold]
  · next hle =>
      rw [if_neg hle] at hj
      rw [if_pos hj]

theorem varSlotGetOrCreate_element (h : TransientArray D v b var varN) (hi : i ≠ uintMax) (d : ℕ) :
    varSlotGetOrCreate D (d + 1) ⟨v, [i]⟩ s = .ok ((), s.extended v i) := by
  have hv : ∀ t, D.deref v t = .ok (var, t) := fun t => Defs.deref_of_some h.array
  have hb : ∀ t, D.deref b t = .ok (varN, t) := fun t => Defs.deref_of_some h.bound
  have hslot : ∀ t, derefSlot v [] t = .ok ((), t) := fun t => rfl
  have hbounds : varNArray D 1 var.varN s = .ok ([b], s) := by
    rw [h.link]
    simp only [varNArray, bind_apply, hb, pure_apply, List.nil_append]
  have hlt := lt_add_one_of_ne_uintMax hi
  have hgrow : growSlot v 1 (expandBoundClients D (d + 1) [b]) [] i s = .ok ((), s.extended v i) := by
    unfold growSlot Slots.extended
    rw [bind_apply, get_apply]
    simp only
    split
    · next hle =>
        have hle' : s.numSlots v [] ≤ i + 1 := UInt32.le_of_lt (UInt32.lt_of_le_of_lt hle hlt)
        have hresize : varSlotResize v [] 1 (i + 1) s = .ok ((), s.resized v [] 1 (i + 1)) :=
          varSlotResize_ok_iff.mpr ⟨hle', rfl⟩
        have hnum : (s.resized v [] 1 (i + 1)).numSlots v [] = i + 1 := by
          rw [Slots.resized_numSlots_of_has Slots.has_nil, if_pos ⟨rfl, rfl⟩]
        -- the client of the bound is the array itself, which has the element now
        have hexpand : varSlotExpand D (d + 1) ⟨v, [i]⟩ (s.resized v [] 1 (i + 1)) =
            .ok ((), s.resized v [] 1 (i + 1)) := by
          simp only [varSlotExpand, bind_apply, hv, h.level, List.take_succ_cons, List.take_zero,
            growPath, hslot, growSlot, get_apply, hnum, UInt32.not_le.mpr hlt, if_false,
            pure_apply]
        rw [bind_of_ok hresize]
        simp [expandBoundClients, varSlotExpandClients, bind_apply, hb, h.boundClients, hexpand]
    · rfl
  simp only [varSlotGetOrCreate, bind_apply, hv, hbounds, h.level, List.take_succ_cons,
    List.take_zero, growPath, hslot, hgrow, pure_apply]

/-- The array has at least `k` elements, of which the old ones have been left alone. -/
structure Slots.Extends (v : VarId) (s s' : Slots) (k : ℕ) : Prop where
  numSlots : (s'.numSlots v []).toNat = max (s.numSlots v []).toNat k
  entry : ∀ j, j < s'.numSlots v [] →
    s'.entry v [j] = if j < s.numSlots v [] then s.entry v [j] else .init

theorem Slots.Extends.trans {s'' : Slots} {k l : ℕ} (h : s.Extends v s' k) (h' : s'.Extends v s'' l) :
    s.Extends v s'' (max k l) where
  numSlots := by
    rw [h'.numSlots, h.numSlots, max_assoc]
  entry := by
    intro j hj
    have hle : (s.numSlots v []).toNat ≤ (s'.numSlots v []).toNat := by
      rw [h.numSlots]
      exact le_max_left _ _
    rw [h'.entry j hj]
    by_cases hmid : j < s'.numSlots v []
    · rw [if_pos hmid, h.entry j hmid]
    · have hold : ¬ j < s.numSlots v [] := by
        rw [UInt32.lt_iff_toNat_lt] at hmid ⊢
        omega
      rw [if_neg hmid, if_neg hold]

theorem Slots.extends_setEntry (hw : v ≠ w) (p : List UInt32) (e : SlotEntry) :
    s.Extends v (s.setEntry w p e) 0 where
  numSlots := by simp
  entry := by
    intro j hj
    rw [Slots.setEntry_numSlots] at hj
    rw [if_pos hj, Slots.setEntry_entry, if_neg fun hsame => hw hsame.1]

theorem Slots.extends_extended (hi : i ≠ uintMax) :
    s.Extends v (s.extended v i) (i.toNat + 1) where
  numSlots := Slots.extended_numSlots hi
  entry := fun _ hj => Slots.extended_entry hj

theorem Slots.BoundHolds.extended (h : s.BoundHolds b n) (hne : v ≠ b) (i : UInt32) :
    (s.extended v i).BoundHolds b n := by
  have hentry := Slots.extended_entry_of_ne (s := s) (i := i) hne.symm []
  obtain ⟨hsmall, hvalue, hcached, hidle, hpriority⟩ := h
  rw [← hentry] at hvalue hcached hidle hpriority
  exact ⟨hsmall, hvalue, hcached, hidle, hpriority⟩

/-! ### Writing the bound -/

theorem Slots.BoundHolds.boundNumber_eq (h : s.BoundHolds b n) :
    boundNumber (s.entry b []).value = n := by
  rcases h.value with hvalue | ⟨hvalue, rfl⟩
  · rw [hvalue]
    exact boundNumber_formatInt (by omega) (by have := h.small; omega)
  · rw [hvalue]
    rfl

theorem getSlotForWriting_bound (h : TransientArray D v b var varN) (hb : s.BoundHolds b n) (d : ℕ) :
    varInstanceGetSlotForWriting D (calls D d) ⟨b, []⟩ .tentative .arrayBound true s =
      .ok (.granted, s) := by
  have hderef : ∀ t, D.deref b t = .ok (varN, t) := fun t => Defs.deref_of_some h.bound
  have hslot : ∀ t, derefSlot b [] t = .ok ((), t) := fun t => rfl
  have hraise : raiseBound D (calls D d) varN ⟨b, []⟩ s = .ok ((), s) := rfl
  have hcreate : varSlotGetOrCreate D (calls D d).depth ⟨b, []⟩ s = .ok ((), s) := by
    simp only [varSlotGetOrCreate, bind_apply, hderef, h.boundLevel, varNArray, pure_apply,
      List.take_zero, growPath]
  have hadmits : AccessMode.tentative.admits .arrayBound (s.entry b []).priority = true :=
    decide_eq_true hb.priority
  simp only [varInstanceGetSlotForWriting, bind_apply, hderef, h.boundLevel, List.length_nil,
    openSlot, hraise, hcreate, hslot, get_apply, varSlotGetPriority, hadmits, pure_apply,
    Bool.true_eq_false, false_and, if_false, Nat.lt_irrefl, Nat.sub_self, if_true]

/-- Writing the bound creates the elements that it promises. -/
theorem doSetValue_bound (h : TransientArray D v b var varN) (hb : s.BoundHolds b n)
    (hm : m ≤ 2147483647) (d : ℕ) :
    ∃ s', varInstanceDoSetValue D (calls D (d + 2)) (boundRequest ⟨b, []⟩ m) s = .ok (.written, s') ∧
      s'.BoundHolds b m ∧ s.Extends v s' (if n < m then m else 0) := by
  have hderef : ∀ t, D.deref b t = .ok (varN, t) := fun t => Defs.deref_of_some h.bound
  have hmnumber : boundNumber (some (formatInt m)) = m := boundNumber_formatInt (by omega) (by omega)
  have hconforms : conforms D varN (boundRequest ⟨b, []⟩ m) s = .ok (true, s) := by
    have hmatch := D.types.arrayBoundType_formatInt m
    simp only [conforms, boundRequest, h.boundType, hmatch, Int.natCast_nonneg, decide_true]
    rfl
  have hlast : n < m → toUInt32 ((m : ℤ) - 1) ≠ uintMax ∧ (toUInt32 ((m : ℤ) - 1)).toNat + 1 = m := by
    intro hless
    have hnat := toNat_toUInt32 (n := (m : ℤ) - 1) (by omega) (by omega)
    have hmax : uintMax.toNat = 4294967295 := rfl
    refine ⟨fun heq => ?_, by omega⟩
    rw [heq, hmax] at hnat
    omega
  let held := { s.entry b [] with value := some (formatInt m) }
  let stored := s.setEntry b [] held
  -- the array is extended if the number gets larger
  let grown := if n < m then stored.extended v (toUInt32 ((m : ℤ) - 1)) else stored
  have hstore : storeOptionalValue D (d + 1) varN ⟨b, []⟩ (some (formatInt m)) s = .ok ((), grown) := by
    simp only [storeOptionalValue, storeValue, bind_apply, get_apply, modify_apply,
      hb.boundNumber_eq, hmnumber, Nat.cast_lt, h.boundClients]
    by_cases hless : n < m
    · have hcreate : varSlotGetOrCreate D (d + 1) ⟨v, [toUInt32 ((m : ℤ) - 1)]⟩ stored =
          .ok ((), stored.extended v (toUInt32 ((m : ℤ) - 1))) :=
        varSlotGetOrCreate_element h (hlast hless).1 d
      have hstored : (s.updateEntry b [] fun e => { e with value := some (formatInt m) }) = stored := rfl
      simp only [if_pos hless, grown, List.forM_cons, List.forM_nil, List.nil_append, bind_apply,
        hstored, hcreate, pure_apply]
    · simp only [if_neg hless, grown]
      rfl
  have hgrown : stored.Extends v grown (if n < m then m else 0) := by
    by_cases hless : n < m
    · have hextends := Slots.extends_extended (s := stored) (v := v) (hlast hless).1
      rw [(hlast hless).2] at hextends
      simpa only [grown, if_pos hless] using hextends
    · simp only [grown, if_neg hless]
      have hself := Slots.extends_setEntry (s := stored) h.ne [] (stored.entry b [])
      rwa [Slots.setEntry_self] at hself
  have hentry : grown.entry b [] = held := by
    have hstored : stored.entry b [] = held := by simp [stored]
    by_cases hless : n < m
    · simp only [grown, if_pos hless]
      rw [Slots.extended_entry_of_ne h.ne.symm, hstored]
    · simp only [grown, if_neg hless]
      exact hstored
  let done : SlotEntry := { held with priority := .arrayBound }
  have hcommit : commit D (d + 1) varN (boundRequest ⟨b, []⟩ m) s =
      .ok ((), grown.setEntry b [] done) := by
    unfold commit
    have hrequest : storeOptionalValue D (d + 1) varN (boundRequest ⟨b, []⟩ m).inst
        (boundRequest ⟨b, []⟩ m).value s = .ok ((), grown) := hstore
    have hdone : (grown.updateEntry b [] fun e =>
        { e with extra := (none : Option SlotExtra).or e.extra, priority := .arrayBound }) =
          grown.setEntry b [] done := by
      unfold Slots.updateEntry
      rw [hentry]
      rfl
    rw [bind_of_ok hrequest, modify_apply]
    exact congrArg (fun t => Except.ok ((), t)) hdone
  have hfinal : (grown.setEntry b [] done).entry b [] = done := by simp
  refine ⟨grown.setEntry b [] done, ?_, ?_, ?_⟩
  · have haccess : varInstanceGetSlotForWriting D (calls D (d + 2)) (boundRequest ⟨b, []⟩ m).inst
        (boundRequest ⟨b, []⟩ m).mode (boundRequest ⟨b, []⟩ m).priority
        (boundRequest ⟨b, []⟩ m).ignoreBasePriority s = .ok (.granted, s) :=
      getSlotForWriting_bound h hb (d + 2)
    have hcomplete : ¬ (boundRequest ⟨b, []⟩ m).inst.indices.length < varN.level := by
      rw [h.boundLevel]
      exact Nat.not_lt_zero _
    have hderef' : D.deref (boundRequest ⟨b, []⟩ m).inst.var s = .ok (varN, s) := hderef s
    simp only [varInstanceDoSetValue, bind_apply, hderef', if_neg hcomplete, haccess, hconforms,
      if_true]
    rw [show (calls D (d + 2)).depth = d + 1 from rfl, hcommit]
    rfl
  · refine ⟨hm, ?_, ?_, ?_, ?_⟩
    · rw [hfinal]
      exact .inl rfl
    · rw [hfinal]
      exact hb.cached
    · rw [hfinal]
      exact hb.idle
    · rw [hfinal]
  · have hall := ((s.extends_setEntry h.ne [] held).trans hgrown).trans
      (grown.extends_setEntry h.ne [] done)
    rwa [Nat.zero_max, Nat.max_zero] at hall

/-! ### Writing an element -/

/-- The number that the bound is raised to for an element: it is an `int`. -/
def raisedBound (n : ℕ) (i : UInt32) : ℕ := if i.toNat + 1 ≤ 2147483647 then max n (i.toNat + 1) else n

theorem varValueConvertToInteger_formatInt (hm : m ≤ 2147483647) :
    varValueConvertToInteger (formatInt m) = some (m : ℤ) := by
  have hlong : (m : ℤ) ≤ longMax := by
    unfold longMax
    omega
  simp [varValueConvertToInteger, strtol_formatInt (Int.natCast_nonneg m) hlong,
    toInt32_of_range (by omega : (-2147483648 : ℤ) ≤ m) (by omega)]

theorem boundInstance_element (h : TransientArray D v b var varN) (i : UInt32) :
    boundInstance D ⟨v, [i]⟩ var.varN s = .ok (⟨b, []⟩, s) := by
  rw [h.link]
  have hderef : D.deref b s = .ok (varN, s) := Defs.deref_of_some h.bound
  simp only [boundInstance, bind_apply, hderef, h.boundLevel, Nat.not_lt_zero, if_false,
    List.take_zero, pure_apply]

theorem readArrayBound_bound (h : TransientArray D v b var varN) (hb : s.BoundHolds b n) (d : ℕ) :
    ∃ e, readArrayBound (calls D (d + 2)) ⟨b, []⟩ s = .ok (some (n : ℤ), s.setEntry b [] e) ∧
      (s.setEntry b [] e).BoundHolds b n := by
  obtain ⟨⟨text, kind, extra, priority⟩, e, hrun, hvalue, hheld⟩ := tryGetValue_bound h hb d
  obtain rfl : text = some (formatInt n) := hvalue
  have hread : (calls D (d + 2)).tryGetValue ⟨b, []⟩ s =
      .ok (some ⟨some (formatInt n), kind, extra, priority⟩, s.setEntry b [] e) := hrun
  refine ⟨e, ?_, hheld⟩
  simp only [readArrayBound, bind_apply, hread, integerOfValue, pure_apply,
    varValueConvertToInteger_formatInt hb.small]

theorem raiseBound_element (h : TransientArray D v b var varN) (hb : s.BoundHolds b n)
    (hi : i ≠ uintMax) (d : ℕ) :
    ∃ s' k, raiseBound D (calls D (d + 3)) var ⟨v, [i]⟩ s = .ok ((), s') ∧
      s'.BoundHolds b (raisedBound n i) ∧ k ≤ i.toNat + 1 ∧ s.Extends v s' k := by
  obtain ⟨e, hread, hheld⟩ := readArrayBound_bound h hb (d + 1)
  have hsame := s.extends_setEntry (v := v) h.ne [] e
  have hinstance := boundInstance_element (s := s) h i
  have hsucc := toNat_add_one_of_ne_uintMax hi
  have hlt := i.toNat_lt
  have hraise : ∀ r s', (if (n : ℤ) < uint32ToInt (i + 1) then do
        let _ ← (calls D (d + 3)).doSetValue (boundRequest ⟨b, []⟩ (uint32ToInt (i + 1)))
        let value ← (calls D (d + 3)).tryGetValue ⟨b, []⟩
        boundReached (uint32ToInt (i + 1)) value
      else pure true : SlotExec Bool) (s.setEntry b [] e) = .ok (r, s') →
      raiseBound D (calls D (d + 3)) var ⟨v, [i]⟩ s = .ok ((), s') := by
    intro r s' hrun
    have hupdate : varUpdateArrayBound D (calls D (d + 3)) ⟨v, [i]⟩ var.varN (uint32ToInt (i + 1)) s =
        .ok (r, s') := by
      unfold varUpdateArrayBound
      rw [bind_of_ok hinstance, bind_of_ok hread]
      exact hrun
    exact bind_of_ok hupdate
  by_cases hsmall : i.toNat + 1 ≤ 2147483647
  · have hnew : uint32ToInt (i + 1) = ((i.toNat + 1 : ℕ) : ℤ) := by
      rw [uint32ToInt_of_lt (by omega), hsucc]
    rw [hnew] at hraise
    by_cases hless : n < i.toNat + 1
    · obtain ⟨s₁, hwrite, hheld₁, hextends⟩ := doSetValue_bound h hheld hsmall d
      obtain ⟨⟨text, kind, extra, priority⟩, e', hreadAgain, hvalue, hheld₂⟩ :=
        tryGetValue_bound h hheld₁ (d + 1)
      obtain rfl : text = some (formatInt (i.toNat + 1 : ℕ)) := hvalue
      rw [if_pos hless] at hextends
      rw [if_pos (Nat.cast_lt.mpr hless)] at hraise
      have hdo : (calls D (d + 3)).doSetValue (boundRequest ⟨b, []⟩ (i.toNat + 1 : ℕ)) (s.setEntry b [] e) =
          .ok (.written, s₁) := hwrite
      have hget : (calls D (d + 3)).tryGetValue ⟨b, []⟩ s₁ =
          .ok (some ⟨some (formatInt (i.toNat + 1 : ℕ)), kind, extra, priority⟩, s₁.setEntry b [] e') :=
        hreadAgain
      refine ⟨s₁.setEntry b [] e', i.toNat + 1, hraise
        (decide (toInt32 (strtol 0 (formatInt (i.toNat + 1 : ℕ))).value = (i.toNat + 1 : ℕ))) _ ?_,
        ?_, Nat.le_refl _, ?_⟩
      · simp only [bind_apply, hdo, hget, boundReached, pure_apply]
      · rw [raisedBound, if_pos hsmall, max_eq_right (Nat.le_of_lt hless)]
        exact hheld₂
      · have hall := (hsame.trans hextends).trans (s₁.extends_setEntry h.ne [] e')
        rwa [Nat.zero_max, Nat.max_zero] at hall
    · rw [if_neg fun hlt => hless (Nat.cast_lt.mp hlt)] at hraise
      refine ⟨_, 0, hraise true _ rfl, ?_, Nat.zero_le _, hsame⟩
      rw [raisedBound, if_pos hsmall, max_eq_left (Nat.le_of_not_lt hless)]
      exact hheld
  · -- the new bound is negative
    have hlarge : 2147483648 ≤ (i + 1).toNat := by omega
    have hnew : uint32ToInt (i + 1) < 0 := by
      have hlt' := (i + 1).toNat_lt
      rw [uint32ToInt_of_ge hlarge]
      omega
    have hless : ¬ (n : ℤ) < uint32ToInt (i + 1) := by omega
    rw [if_neg hless] at hraise
    refine ⟨_, 0, hraise true _ rfl, ?_, Nat.zero_le _, hsame⟩
    rw [raisedBound, if_neg hsmall]
    exact hheld

/-- What an element is before it is written: an old one, or as new. -/
def Slots.elementOrNew (s : Slots) (v : VarId) (j : UInt32) : SlotEntry :=
  if j < s.numSlots v [] then s.entry v [j] else .init

theorem getSlotForWriting_element (h : TransientArray D v b var varN) (hb : s.BoundHolds b n)
    (hi : i ≠ uintMax) (hlow : (s.elementOrNew v i).priority ≤ .scriptTransient) (d : ℕ) :
    ∃ s', varInstanceGetSlotForWriting D (calls D (d + 3)) ⟨v, [i]⟩ .weak .scriptTransient false s =
        .ok (.granted, s') ∧
      s'.BoundHolds b (raisedBound n i) ∧ s.Extends v s' (i.toNat + 1) := by
  obtain ⟨s₁, k, hraise, hheld, hk, hextends⟩ := raiseBound_element h hb hi d
  have hall := hextends.trans (Slots.extends_extended hi)
  rw [max_eq_right hk] at hall
  have hderef : D.deref v s = .ok (var, s) := Defs.deref_of_some h.array
  have hcreate : varSlotGetOrCreate D (calls D (d + 3)).depth ⟨v, [i]⟩ s₁ = .ok ((), s₁.extended v i) :=
    varSlotGetOrCreate_element h hi (d + 1)
  have hlt : i < (s₁.extended v i).numSlots v [] := by
    rw [UInt32.lt_iff_toNat_lt, hall.numSlots]
    omega
  have hhas : (s₁.extended v i).has v [i] = true := by
    have hconcat := (Slots.has_concat_iff (s := s₁.extended v i) (v := v) [] i).mpr ⟨Slots.has_nil, hlt⟩
    simpa using hconcat
  have hslot : derefSlot v [i] (s₁.extended v i) = .ok ((), s₁.extended v i) :=
    derefSlot_ok_iff.mpr ⟨hhas, rfl⟩
  have hadmits : AccessMode.weak.admits .scriptTransient ((s₁.extended v i).entry v [i]).priority =
      true := by
    rw [hall.entry i hlt]
    exact decide_eq_true hlow
  refine ⟨s₁.extended v i, ?_, hheld.extended h.ne i, hall⟩
  have hpriority : ¬ (Priority.scriptTransient < var.priority) := by
    rw [h.priority]
    exact lt_irrefl _
  simp only [varInstanceGetSlotForWriting, bind_apply, hderef, hpriority, and_false, if_false,
    h.level, List.length_singleton, Nat.lt_irrefl, openSlot, hraise, hcreate, hslot, get_apply,
    Nat.sub_self, varSlotGetPriority, hadmits, if_true, pure_apply]

/-- The request of a statement of a check script. -/
def elementRequest (v : VarId) (i : UInt32) (text : CString) : SetRequest where
  inst := ⟨v, [i]⟩
  value := some text
  extra := none
  mode := .weak
  priority := .scriptTransient
  check := true
  ignoreBasePriority := false

theorem doSetValue_element (h : TransientArray D v b var varN) {s₁ : Slots}
    (haccess : varInstanceGetSlotForWriting D (calls D d) ⟨v, [i]⟩ .weak .scriptTransient false s =
      .ok (.granted, s₁)) (hrest : (do
        let ok ← conforms D var (elementRequest v i text)
        if ok then do
          commit D (calls D d).depth var (elementRequest v i text)
          pure .written
        else pure .failed : SlotExec WriteResult) s₁ = .ok (r, s')) :
    varInstanceDoSetValue D (calls D d) (elementRequest v i text) s = .ok (r, s') := by
  have hderef : D.deref (elementRequest v i text).inst.var s = .ok (var, s) := Defs.deref_of_some h.array
  have hcomplete : ¬ (elementRequest v i text).inst.indices.length < var.level := by
    rw [h.level]
    exact Nat.lt_irrefl 1
  have haccess' : varInstanceGetSlotForWriting D (calls D d) (elementRequest v i text).inst
      (elementRequest v i text).mode (elementRequest v i text).priority
      (elementRequest v i text).ignoreBasePriority s = .ok (.granted, s₁) := haccess
  unfold varInstanceDoSetValue
  rw [bind_of_ok hderef, if_neg hcomplete, bind_of_ok haccess']
  exact hrest

theorem commit_element (h : TransientArray D v b var varN) (i : UInt32) (text : CString) (d : ℕ) :
    commit D d var (elementRequest v i text) s = .ok ((), s.setEntry v [i]
      { s.entry v [i] with value := some text, priority := .scriptTransient }) := by
  have hstore : storeOptionalValue D d var (elementRequest v i text).inst (elementRequest v i text).value s =
      .ok ((), s.setEntry v [i] { s.entry v [i] with value := some text }) := by
    show storeValue D d var ⟨v, [i]⟩ text s = _
    simp only [storeValue, bind_apply, get_apply, modify_apply, h.clients, List.forM_nil]
    split
    · rfl
    · rfl
  unfold commit
  rw [bind_of_ok hstore, modify_apply]
  have hentry : (s.setEntry v [i] { s.entry v [i] with value := some text }).entry v [i] =
      { s.entry v [i] with value := some text } := by simp
  have hdone : ((s.setEntry v [i] { s.entry v [i] with value := some text }).updateEntry v [i] fun e =>
      { e with extra := (none : Option SlotExtra).or e.extra, priority := .scriptTransient }) =
        s.setEntry v [i] { s.entry v [i] with value := some text, priority := .scriptTransient } := by
    unfold Slots.updateEntry
    rw [hentry, Slots.setEntry_setEntry]
    rfl
  exact congrArg (fun t => Except.ok ((), t)) hdone

theorem Slots.BoundHolds.setEntry (hb : s.BoundHolds b n) (hne : v ≠ b) (p : List UInt32) (e : SlotEntry) :
    (s.setEntry v p e).BoundHolds b n := by
  have hentry : (s.setEntry v p e).entry b [] = s.entry b [] := by
    rw [Slots.setEntry_entry, if_neg fun hsame => hne hsame.1.symm]
  obtain ⟨hsmall, hvalue, hcached, hidle, hpriority⟩ := hb
  rw [← hentry] at hvalue hcached hidle hpriority
  exact ⟨hsmall, hvalue, hcached, hidle, hpriority⟩

theorem setElement (h : TransientArray D v b var varN) (hb : s.BoundHolds b n)
    (hi : i ≠ uintMax) (hlow : (s.elementOrNew v i).priority ≤ .scriptTransient) (text : CString)
    (d : ℕ) :
    ∃ s', varInstanceSetAndCheckValue D (calls D (d + 3)) ⟨v, [i]⟩ (some text) none .weak
        .scriptTransient s =
        .ok (if D.types.vartypeMatch var.type text then .written else .failed, s') ∧
      s'.BoundHolds b (raisedBound n i) ∧
      (s'.numSlots v []).toNat = max (s.numSlots v []).toNat (i.toNat + 1) ∧
      ∀ j, j < s'.numSlots v [] → s'.entry v [j] =
        if j = i ∧ D.types.vartypeMatch var.type text = true then
          { s.elementOrNew v j with value := some text, priority := .scriptTransient }
        else s.elementOrNew v j := by
  obtain ⟨s₁, haccess, hheld, hextends⟩ := getSlotForWriting_element h hb hi hlow d
  have hnew : ∀ j, j < s₁.numSlots v [] → s₁.entry v [j] = s.elementOrNew v j := hextends.entry
  have hmatches : ∀ r, conforms D var (elementRequest v i text) r =
      .ok (D.types.vartypeMatch var.type text, r) := fun r => rfl
  cases hmatch : D.types.vartypeMatch var.type text with
  | false =>
      refine ⟨s₁, doSetValue_element h haccess ?_, hheld, hextends.numSlots, fun j hj => ?_⟩
      · rw [bind_of_ok (hmatches s₁), hmatch]
        rfl
      · rw [hnew j hj, if_neg fun hboth => nomatch hboth.2]
  | true =>
      let written : SlotEntry := { s₁.entry v [i] with value := some text, priority := .scriptTransient }
      refine ⟨s₁.setEntry v [i] written, doSetValue_element h haccess ?_,
        hheld.setEntry h.ne [i] written, hextends.numSlots, fun j hj => ?_⟩
      · rw [bind_of_ok (hmatches s₁), hmatch]
        exact bind_of_ok (commit_element h i text _)
      · rw [Slots.setEntry_numSlots] at hj
        rw [Slots.setEntry_entry]
        by_cases hij : j = i
        · subst hij
          rw [if_pos ⟨rfl, rfl⟩, if_pos ⟨rfl, rfl⟩, ← hnew j hj]
        · rw [if_neg fun hsame => hij (List.singleton_inj.mp hsame.2), if_neg fun hboth => hij hboth.1,
            hnew j hj]

/-! ### Clearing -/

/-- No element has been written with a higher priority than that of check scripts. -/
def Slots.ElementsLow (s : Slots) (v : VarId) : Prop :=
  ∀ j, j < s.numSlots v [] → (s.entry v [j]).priority ≤ .scriptTransient

theorem Slots.ElementsLow.elementOrNew (hlow : s.ElementsLow v) (j : UInt32) :
    (s.elementOrNew v j).priority ≤ .scriptTransient := by
  unfold Slots.elementOrNew
  split
  · next hj => exact hlow j hj
  · decide

theorem Slots.ElementsLow.slotPriority (hlow : s.ElementsLow v) :
    varSlotGetPriority s v 1 [] ≤ .scriptTransient := by
  have hfold : ∀ (l : List ℕ), (∀ i ∈ l, i < (s.numSlots v []).toNat) → ∀ first : Priority,
      first ≤ .scriptTransient →
      l.foldl (fun priority i =>
        if priority < varSlotGetPriority s v 0 ([] ++ [UInt32.ofNat i]) then
          varSlotGetPriority s v 0 ([] ++ [UInt32.ofNat i])
        else priority) first ≤ .scriptTransient := by
    intro l hl
    induction l with
    | nil => exact fun _ hfirst => hfirst
    | cons i l ih =>
        intro first hfirst
        rw [List.foldl_cons]
        refine ih (fun j hj => hl j (List.mem_cons_of_mem i hj)) _ ?_
        split
        · refine hlow (UInt32.ofNat i) ?_
          have hi := hl i List.mem_cons_self
          have hsize := (s.numSlots v []).toNat_lt
          rw [UInt32.lt_iff_toNat_lt, UInt32.toNat_ofNat_of_lt' (Nat.lt_trans hi hsize)]
          exact hi
        · exact hfirst
  exact hfold _ (fun i hi => List.mem_range.mp hi) _ (by decide)

theorem varInstanceClear_array (h : TransientArray D v b var varN) (hb : s.BoundHolds b n)
    (hlow : s.ElementsLow v) (d : ℕ) :
    ∃ s', varInstanceClear D (calls D (d + 3)) ⟨v, []⟩ .weak .scriptTransient s = .ok (true, s') ∧
      s'.BoundHolds b 0 ∧ s'.numSlots v [] = 0 := by
  have hderef : ∀ t, D.deref v t = .ok (var, t) := fun t => Defs.deref_of_some h.array
  have hslot : derefSlot v [] s = .ok ((), s) := rfl
  have hraise : raiseBound D (calls D (d + 3)) var ⟨v, []⟩ s = .ok ((), s) := rfl
  have hcreate : varSlotGetOrCreate D (calls D (d + 3)).depth ⟨v, []⟩ s = .ok ((), s) := by
    have hb : ∀ t, D.deref b t = .ok (varN, t) := fun t => Defs.deref_of_some h.bound
    have hbounds : varNArray D 1 var.varN s = .ok ([b], s) := by
      rw [h.link]
      simp only [varNArray, bind_apply, hb, pure_apply, List.nil_append]
    simp only [varSlotGetOrCreate, bind_apply, hderef, h.level, hbounds, List.take_nil, growPath,
      pure_apply]
  have hadmits : AccessMode.weak.admits .scriptTransient (varSlotGetPriority s v 1 []) = true :=
    decide_eq_true hlow.slotPriority
  have hpriority : ¬ (Priority.scriptTransient < var.priority) := by
    rw [h.priority]
    exact lt_irrefl _
  have haccess : varInstanceGetSlotForWriting D (calls D (d + 3)) ⟨v, []⟩ .weak .scriptTransient false s =
      .ok (.granted, s) := by
    simp only [varInstanceGetSlotForWriting, bind_apply, hderef, hpriority, and_false, if_false,
      h.level, List.length_nil, Nat.not_lt_zero, openSlot, hraise, hcreate, hslot, get_apply,
      Nat.sub_zero, hadmits, if_true, pure_apply]
  have hcleared : (s.clearArray v []).BoundHolds b n := by
    obtain ⟨hsmall, hvalue, hcached, hidle, hpriority⟩ := hb
    exact ⟨hsmall, hvalue, hcached, hidle, hpriority⟩
  have hempty : (s.clearArray v []).numSlots v [] = 0 := by
    simp [Slots.clearArray]
  obtain ⟨s', hreset, hheld, hextends⟩ := doSetValue_bound h hcleared (Nat.zero_le _) d
  rw [if_neg (Nat.not_lt_zero n)] at hextends
  have hreset' : (calls D (d + 3)).doSetValue (boundRequest ⟨b, []⟩ 0) (s.clearArray v []) =
      .ok (.written, s') := hreset
  refine ⟨s', ?_, hheld, ?_⟩
  · have hbound : ∀ t, boundAbove D 0 var.varN t = .ok (b, t) := by
      intro t
      rw [h.link]
      rfl
    simp only [varInstanceClear, bind_apply, hderef, List.length_nil, h.level, zero_ne_one, if_false,
      haccess, modify_apply, Nat.zero_add, Nat.sub_self, hbound, hreset', pure_apply]
  · apply UInt32.toNat_inj.mp
    rw [hextends.numSlots, hempty]
    rfl

/-! ### Reading an element -/

/-- The instance reads as the text. -/
def ReadsText (D : Defs) (c : Callees) (inst : VarInstance) (text : CString) (s : Slots) : Prop :=
  ∃ value s', varInstanceDoGetValue D c inst s = .ok (some value, s') ∧ value.value = some text

/-- The instance has no value. -/
def Unreadable (D : Defs) (c : Callees) (inst : VarInstance) (s : Slots) : Prop :=
  ∃ s', varInstanceDoGetValue D c inst s = .ok (none, s')

theorem ReadsText.unique {text' : CString}
    (h : ReadsText D c inst text s) (h' : ReadsText D c inst text' s) : text = text' := by
  obtain ⟨value, s₁, hrun, htext⟩ := h
  obtain ⟨value', s₁', hrun', htext'⟩ := h'
  rw [hrun] at hrun'
  obtain ⟨rfl, -⟩ : value = value' ∧ s₁ = s₁' := by simpa using hrun'
  exact Option.some.inj (htext.symm.trans htext')

theorem ReadsText.not_unreadable (h : ReadsText D c inst text s) : ¬ Unreadable D c inst s := by
  rintro ⟨s₁, hrun⟩
  obtain ⟨value, s₁', hrun', -⟩ := h
  rw [hrun] at hrun'
  exact nomatch hrun'

/-- The bound reads as the number. -/
def BoundReads (D : Defs) (c : Callees) (b : VarId) (m : ℕ) (s : Slots) : Prop :=
  ∃ text, ReadsText D c ⟨b, []⟩ text s ∧ varValueConvertToInteger text = some (m : ℤ)

theorem BoundReads.unique {m' : ℕ} (hm : BoundReads D c b m s)
    (hm' : BoundReads D c b m' s) : m = m' := by
  obtain ⟨text, hread, hnumber⟩ := hm
  obtain ⟨text', hread', hnumber'⟩ := hm'
  obtain rfl := hread.unique hread'
  have hsame := Option.some.inj (hnumber.symm.trans hnumber')
  exact Int.natCast_inj.mp hsame

theorem boundReads_of_holds (h : TransientArray D v b var varN) (hb : s.BoundHolds b n) (d : ℕ) :
    BoundReads D (calls D (d + 3)) b n s := by
  obtain ⟨value, e, hrun, hvalue, -⟩ := tryGetValue_bound h hb (d + 2)
  exact ⟨formatInt n, ⟨value, _, hrun, hvalue⟩, varValueConvertToInteger_formatInt hb.small⟩

theorem unreadable_of_numSlots_le (h : TransientArray D v b var varN)
    (hi : s.numSlots v [] ≤ i) (c : Callees) : Unreadable D c ⟨v, [i]⟩ s := by
  have hderef : D.deref v s = .ok (var, s) := Defs.deref_of_some h.array
  have hnone : ¬ (s.has v [i] = true) := by
    intro hhas
    have hlt := ((Slots.has_concat_iff (s := s) (v := v) [] i).mp hhas).2
    exact absurd hlt (UInt32.not_lt.mpr hi)
  refine ⟨s, ?_⟩
  simp only [varInstanceDoGetValue, bind_apply, hderef, h.level, List.length_singleton,
    Nat.lt_irrefl, if_false, get_apply, varInstanceGetSlotForReading, hnone, pure_apply,
    Bool.false_eq_true]

theorem varSlotGetValue_plain (hnone : D.defValue inst.var = none)
    (hcache : (s.entry inst.var inst.indices).defValue = none) (c : Callees) :
    ∃ value, varSlotGetValue D c inst s = .ok (value, s) ∧
      value.value = (s.entry inst.var inst.indices).value := by
  have hdefault : slotDefaultValue D c inst s = .ok (none, s) := by
    simp only [slotDefaultValue, bind_apply, get_apply, hcache, cacheDefault, hnone,
      pure_apply]
  unfold varSlotGetValue
  rw [bind_apply, get_apply]
  cases hstored : (s.entry inst.var inst.indices).value with
  | some text =>
      refine ⟨⟨some text, .normal, (s.entry inst.var inst.indices).extra,
        (s.entry inst.var inst.indices).priority⟩, ?_, rfl⟩
      simp only [hstored, pure_apply]
  | none =>
      refine ⟨⟨none, .none, (s.entry inst.var inst.indices).extra,
        (s.entry inst.var inst.indices).priority⟩, ?_, rfl⟩
      simp only [hstored, bind_apply, hdefault, pure_apply, Option.elim_none]

theorem indicesInBounds_element (h : TransientArray D v b var varN) (hb : s.BoundHolds b n)
    (hi : i.toNat < n) (d : ℕ) :
    ∃ e, indicesInBounds D (calls D (d + 3)) var ⟨v, [i]⟩ s = .ok (true, s.setEntry b [] e) ∧
      (s.setEntry b [] e).BoundHolds b n := by
  obtain ⟨e, hread, hheld⟩ := readArrayBound_bound h hb (d + 1)
  refine ⟨e, ?_, hheld⟩
  have hindex : uint32ToInt i = i.toNat := uint32ToInt_of_lt (by have := hb.small; omega)
  have hlevel : 0 < var.level := by
    rw [h.level]
    exact Nat.one_pos
  unfold indicesInBounds varCheckArrayBounds
  rw [if_pos hlevel, bind_of_ok (boundInstance_element h i), bind_of_ok hread, h.level]
  simp only [Nat.sub_self, List.getElem?_cons_zero, pure_apply, hindex, Nat.cast_lt, hi,
    decide_true]

theorem readValue_element (h : TransientArray D v b var varN) (hb : s.BoundHolds b n)
    (hi : i.toNat < n) (hslot : i < s.numSlots v []) (hidle : (s.entry v [i]).readActive = false)
    (hdef : (s.entry v [i]).defValue = none) (d : ℕ) :
    ∃ value e, varInstanceReadValue D (calls D (d + 3)) ⟨v, [i]⟩ s = .ok (some value, s.setEntry b [] e) ∧
      (s.setEntry b [] e).BoundHolds b n ∧ value.value = (s.entry v [i]).value := by
  obtain ⟨e, hinside, hheld⟩ := indicesInBounds_element h hb hi d
  let t := s.setEntry b [] e
  have hentry : t.entry v [i] = s.entry v [i] := by
    simp [t, h.ne]
  have hhas : t.has v [i] = true := by
    have hconcat := (Slots.has_concat_iff (s := t) (v := v) [] i).mpr ⟨Slots.has_nil, hslot⟩
    simpa using hconcat
  have hderef : ∀ u, D.deref v u = .ok (var, u) := fun u => Defs.deref_of_some h.array
  have hderefT : derefSlot v [i] t = .ok ((), t) := derefSlot_ok_iff.mpr ⟨hhas, rfl⟩
  let active : SlotEntry := { s.entry v [i] with readActive := true }
  let marked := t.setEntry v [i] active
  have hmark : setReadActive ⟨v, [i]⟩ true t = .ok ((), marked) := by
    show Except.ok ((), t.setEntry v [i] { t.entry v [i] with readActive := true }) = _
    rw [hentry]
  have hmarked : marked.entry v [i] = active := by simp [marked]
  have hderefM : derefSlot v [i] marked = .ok ((), marked) := derefSlot_ok_iff.mpr ⟨hhas, rfl⟩
  have henabled : varInstanceIsEnabled D (calls D (d + 3)) ⟨v, [i]⟩ marked = .ok (true, marked) :=
    varInstanceIsEnabled_true h.condition (d + 2)
  have hvalue : ∃ value, varSlotGetValue D (calls D (d + 3)) ⟨v, [i]⟩ marked = .ok (value, marked) ∧
      value.value = (marked.entry v [i]).value :=
    varSlotGetValue_plain h.defValue (by rw [hmarked]; exact hdef) _
  rw [hmarked] at hvalue
  obtain ⟨value, hrun, hstored⟩ := hvalue
  -- in the end the mark is taken back
  have hback : { s.entry v [i] with readActive := false } = t.entry v [i] := by
    rw [hentry, ← hidle]
  have hunmark : setReadActive ⟨v, [i]⟩ false marked = .ok ((), t) := by
    show Except.ok ((), marked.setEntry v [i] { marked.entry v [i] with readActive := false }) = _
    rw [hmarked, Slots.setEntry_setEntry]
    show Except.ok ((), t.setEntry v [i] { s.entry v [i] with readActive := false }) = _
    rw [hback, Slots.setEntry_self]
  refine ⟨value, e, ?_, hheld, hstored⟩
  have hchecked : readCheckedValue D (calls D (d + 3)) var ⟨v, [i]⟩ t = .ok (some value, t) := by
    simp only [readCheckedValue, bind_apply, hderefT, get_apply, hentry, hidle,
      Bool.false_eq_true, if_false, hmark, henabled, hderefM, hrun, hunmark, pure_apply, presentValue,
      if_true]
  simp only [varInstanceReadValue, bind_apply, hderef, hinside, if_true]
  exact hchecked

theorem read_element (h : TransientArray D v b var varN) (hb : s.BoundHolds b n)
    (hi : i.toNat < n) (hslot : i < s.numSlots v []) (hidle : (s.entry v [i]).readActive = false)
    (hdef : (s.entry v [i]).defValue = none) (d : ℕ) :
    ((s.entry v [i]).value = none → Unreadable D (calls D (d + 3)) ⟨v, [i]⟩ s) ∧
      ∀ text, (s.entry v [i]).value = some text → ReadsText D (calls D (d + 3)) ⟨v, [i]⟩ text s := by
  have hderef : ∀ t, D.deref v t = .ok (var, t) := fun t => Defs.deref_of_some h.array
  have hhas : s.has v [i] = true := by
    have hconcat := (Slots.has_concat_iff (s := s) (v := v) [] i).mpr ⟨Slots.has_nil, hslot⟩
    simpa using hconcat
  obtain ⟨value, e, hread, -, hstored⟩ := readValue_element h hb hi hslot hidle hdef d
  have hvalueRead : varInstanceDoGetValue D (calls D (d + 3)) ⟨v, [i]⟩ s =
      .ok (dropUnset (some value), s.setEntry b [] e) := by
    simp only [varInstanceDoGetValue, bind_apply, hderef, h.level, List.length_singleton,
      Nat.lt_irrefl, if_false, get_apply, varInstanceGetSlotForReading, hhas, if_true, hread,
      pure_apply]
  constructor
  · intro hnone
    refine ⟨s.setEntry b [] e, hvalueRead.trans ?_⟩
    rw [dropUnset, if_pos (hstored.trans hnone)]
  · intro text htext
    have hset : value.value = some text := hstored.trans htext
    refine ⟨value, s.setEntry b [] e, hvalueRead.trans ?_, hset⟩
    rw [dropUnset, if_neg (by simp [hset])]

/-! ### Filling the array -/

/-- The loop of a statement that stores texts, with `++inst->indices[0]` behind each of them. -/
def writeElements (D : Defs) (c : Callees) (v : VarId) : UInt32 → List CString → SlotExec Unit
  | _, [] => pure ()
  | i, text :: texts => do
      let _ ← varInstanceSetAndCheckValue D c ⟨v, [i]⟩ (some text) none .weak .scriptTransient
      writeElements D c v (i + 1) texts

/-- What an element is after the text has been written to a new one. -/
def writtenElement (D : Defs) (var : Var) (text : CString) : SlotEntry :=
  if D.types.vartypeMatch var.type text then
    { SlotEntry.init with value := some text, priority := .scriptTransient }
  else .init

/-- The array consists of the texts that have been written, and the bound is an `int`. -/
structure Slots.HoldsTexts (D : Defs) (v b : VarId) (var : Var) (s : Slots) (texts : List CString) :
    Prop where
  bound : s.BoundHolds b (min texts.length 2147483647)
  numSlots : (s.numSlots v []).toNat = texts.length
  entry : ∀ (j : UInt32) (text : CString), texts[j.toNat]? = some text →
    s.entry v [j] = writtenElement D var text

theorem Slots.HoldsTexts.nil (hb : s.BoundHolds b 0) (hempty : s.numSlots v [] = 0) :
    s.HoldsTexts D v b var [] where
  bound := hb
  numSlots := by
    rw [hempty]
    rfl
  entry := fun _ _ hnone => nomatch hnone

theorem Slots.HoldsTexts.elementsLow {texts : List CString} (ht : s.HoldsTexts D v b var texts) :
    s.ElementsLow v := by
  intro j hj
  rw [UInt32.lt_iff_toNat_lt, ht.numSlots] at hj
  rw [ht.entry j _ (List.getElem?_eq_getElem hj)]
  unfold writtenElement
  split
  · exact le_refl _
  · decide

theorem writeElement_holds (h : TransientArray D v b var varN) {texts : List CString}
    (ht : s.HoldsTexts D v b var texts) (hi : i.toNat = texts.length) (hmax : i ≠ uintMax)
    (text : CString) (d : ℕ) :
    ∃ r s', varInstanceSetAndCheckValue D (calls D (d + 3)) ⟨v, [i]⟩ (some text) none .weak
      .scriptTransient s = .ok (r, s') ∧ s'.HoldsTexts D v b var (texts ++ [text]) := by
  obtain ⟨s', hrun, hbound, hnum, hentry⟩ :=
    setElement h ht.bound hmax (ht.elementsLow.elementOrNew i) text d
  rw [ht.numSlots] at hnum
  refine ⟨_, s', hrun, ?_, ?_, fun j text' hj => ?_⟩
  · have hraised : raisedBound (min texts.length 2147483647) i =
        min (texts ++ [text]).length 2147483647 := by
      rw [raisedBound, List.length_append, List.length_singleton, hi]
      split
      · omega
      · omega
    rw [← hraised]
    exact hbound
  · rw [hnum, List.length_append, List.length_singleton]
    omega
  · have hlt : j.toNat < texts.length + 1 := by
      have hlength := (List.getElem?_eq_some_iff.mp hj).1
      rwa [List.length_append, List.length_singleton] at hlength
    have hjnum : j < s'.numSlots v [] := by
      rw [UInt32.lt_iff_toNat_lt, hnum]
      omega
    rw [hentry j hjnum]
    by_cases hold : j.toNat < texts.length
    · have hji : ¬ (j = i ∧ D.types.vartypeMatch var.type text = true) := by
        rintro ⟨rfl, -⟩
        omega
      have hslot : j < s.numSlots v [] := by
        rw [UInt32.lt_iff_toNat_lt, ht.numSlots]
        exact hold
      rw [List.getElem?_append_left hold] at hj
      rw [if_neg hji, Slots.elementOrNew, if_pos hslot]
      exact ht.entry j text' hj
    · obtain rfl : j = i := UInt32.toNat_inj.mp (by omega)
      have hnew : ¬ j < s.numSlots v [] := by
        rw [UInt32.lt_iff_toNat_lt, ht.numSlots]
        exact hold
      rw [hi, List.getElem?_concat_length] at hj
      obtain rfl := Option.some.inj hj
      rw [Slots.elementOrNew, if_neg hnew, writtenElement]
      split
      · next hboth => rw [if_pos hboth.2]
      · next hboth => rw [if_neg fun hmatch => hboth ⟨rfl, hmatch⟩]

theorem writeElements_holds (h : TransientArray D v b var varN) (d : ℕ) {texts done : List CString}
    (ht : s.HoldsTexts D v b var done) (hi : i.toNat = done.length)
    (hroom : done.length + texts.length < 4294967296) :
    ∃ s', writeElements D (calls D (d + 3)) v i texts s = .ok ((), s') ∧
      s'.HoldsTexts D v b var (done ++ texts) := by
  induction texts generalizing i done s with
  | nil => exact ⟨s, rfl, by simpa using ht⟩
  | cons text texts ih =>
      rw [List.length_cons] at hroom
      have hmax : i ≠ uintMax := by
        rintro rfl
        have hvalue : uintMax.toNat = 4294967295 := rfl
        omega
      obtain ⟨r, s₁, hrun, ht₁⟩ := writeElement_holds h ht hi hmax text d
      have hnext : (i + 1).toNat = (done ++ [text]).length := by
        rw [toNat_add_one_of_ne_uintMax hmax, hi, List.length_append, List.length_singleton]
      obtain ⟨s', hrest, ht'⟩ :=
        ih ht₁ hnext (by rw [List.length_append, List.length_singleton]; omega)
      refine ⟨s', ?_, by simpa using ht'⟩
      rw [writeElements, bind_of_ok hrun]
      exact hrest

theorem setElement_uintMax (h : TransientArray D v b var varN) (text : CString) (c : Callees)
    :
    varInstanceSetAndCheckValue D c ⟨v, [uintMax]⟩ (some text) none .weak .scriptTransient s ≠
      .ok (r, s') := by
  intro hrun
  obtain ⟨var', hvar', hcases⟩ := varInstanceDoSetValue_cases (r := elementRequest v uintMax text) hrun
  obtain rfl : var = var' := Option.some.inj (h.array.symm.trans hvar')
  rcases hcases with ⟨hrefused, -, -⟩ | ⟨-, -, access, s₁, hopen, -⟩
  · have hlevel : ([uintMax] : List UInt32).length = var.level := h.level.symm
    rcases hrefused with hshort | hbase | hlong
    · exact absurd hshort (Nat.not_lt.mpr (Nat.le_of_eq hlevel.symm))
    · have hlt : Priority.scriptTransient < var.priority := hbase.2
      rw [h.priority] at hlt
      exact lt_irrefl _ hlt
    · exact absurd hlong (Nat.not_lt.mpr (Nat.le_of_eq hlevel))
  · obtain ⟨s₀, -, -, hhas, -⟩ := openSlot_cases hopen
    exact Slots.ne_uintMax_of_has hhas uintMax (List.mem_singleton_self _) rfl

theorem writeElements_wraps (h : TransientArray D v b var varN) (d : ℕ) {texts done : List CString}
    (ht : s.HoldsTexts D v b var done) (hi : i.toNat = done.length)
    (hroom : 4294967296 ≤ done.length + texts.length) :
    writeElements D (calls D (d + 3)) v i texts s ≠ .ok ((), s') := by
  induction texts generalizing i done s with
  | nil =>
      have hlt := i.toNat_lt
      rw [List.length_nil] at hroom
      omega
  | cons text texts ih =>
      intro hrun
      rw [writeElements] at hrun
      by_cases hmax : i = uintMax
      · subst hmax
        obtain ⟨r, s₁, hwrite, -⟩ := bind_ok_iff.mp hrun
        exact setElement_uintMax h text _ hwrite
      · obtain ⟨r, s₁, hwrite, ht₁⟩ := writeElement_holds h ht hi hmax text d
        rw [bind_of_ok hwrite] at hrun
        have hnext : (i + 1).toNat = (done ++ [text]).length := by
          rw [toNat_add_one_of_ne_uintMax hmax, hi, List.length_append, List.length_singleton]
        rw [List.length_cons] at hroom
        exact ih ht₁ hnext (by rw [List.length_append, List.length_singleton]; omega) hrun

/-! ### Writing over what is there -/

theorem setElement_low (h : TransientArray D v b var varN) (hb : s.BoundHolds b n)
    (hlow : s.ElementsLow v)
    (hrun : varInstanceSetAndCheckValue D (calls D (d + 3)) ⟨v, [i]⟩ (some text) none .weak
      .scriptTransient s = .ok (r, s')) :
    (∃ m, s'.BoundHolds b m) ∧ s'.ElementsLow v := by
  have hmax : i ≠ uintMax := by
    rintro rfl
    exact setElement_uintMax h text _ hrun
  obtain ⟨s₁, hwrite, hbound, -, hentry⟩ := setElement h hb hmax (hlow.elementOrNew i) text d
  rw [hwrite] at hrun
  obtain ⟨-, rfl⟩ := Prod.mk.inj (Except.ok.inj hrun)
  refine ⟨⟨_, hbound⟩, fun j hj => ?_⟩
  rw [hentry j hj]
  split
  · exact le_refl _
  · exact hlow.elementOrNew j

theorem writeElements_low (h : TransientArray D v b var varN) (hb : s.BoundHolds b n)
    (hlow : s.ElementsLow v) (hrun : writeElements D (calls D (d + 3)) v i texts s = .ok ((), s')) :
    (∃ m, s'.BoundHolds b m) ∧ s'.ElementsLow v := by
  induction texts generalizing i s n with
  | nil =>
      obtain ⟨-, rfl⟩ := pure_ok_iff.mp hrun
      exact ⟨⟨n, hb⟩, hlow⟩
  | cons text texts ih =>
      obtain ⟨r, s₁, hwrite, hrest⟩ := bind_ok_iff.mp hrun
      obtain ⟨⟨m, hb₁⟩, hlow₁⟩ := setElement_low h hb hlow hwrite
      exact ih hb₁ hlow₁ hrest

/-! ### Reading the texts back -/

/-- The array reads exactly as the texts. -/
structure ReadsExactly (D : Defs) (c : Callees) (v b : VarId) (texts : List CString) (s : Slots) :
    Prop where
  bound : BoundReads D c b texts.length s
  element : ∀ (j : UInt32) (text : CString), texts[j.toNat]? = some text → ReadsText D c ⟨v, [j]⟩ text s
  nothingElse : ∀ j : UInt32, texts.length ≤ j.toNat → Unreadable D c ⟨v, [j]⟩ s

theorem Slots.HoldsTexts.setBound (ht : s.HoldsTexts D v b var texts) (hne : v ≠ b) {e : SlotEntry}
    (hb : (s.setEntry b [] e).BoundHolds b (min texts.length 2147483647)) :
    (s.setEntry b [] e).HoldsTexts D v b var texts where
  bound := hb
  numSlots := ht.numSlots
  entry := by
    intro j text hj
    rw [Slots.setEntry_entry, if_neg fun hsame => hne hsame.1]
    exact ht.entry j text hj

theorem Slots.HoldsTexts.idle (ht : s.HoldsTexts D v b var texts) (hj : j.toNat < texts.length) :
    (s.entry v [j]).readActive = false ∧ (s.entry v [j]).defValue = none := by
  rw [ht.entry j _ (List.getElem?_eq_getElem hj), writtenElement]
  split
  · exact ⟨rfl, rfl⟩
  · exact ⟨rfl, rfl⟩

theorem Slots.HoldsTexts.readValue (ht : s.HoldsTexts D v b var texts) (h : TransientArray D v b var varN)
    (hj : texts[j.toNat]? = some text) (hsmall : j.toNat < 2147483647) (d : ℕ) :
    ∃ value e, varInstanceReadValue D (calls D (d + 3)) ⟨v, [j]⟩ s = .ok (some value, s.setEntry b [] e) ∧
      (s.setEntry b [] e).HoldsTexts D v b var texts ∧ value.value = (writtenElement D var text).value := by
  have hlt := (List.getElem?_eq_some_iff.mp hj).1
  have hslot : j < s.numSlots v [] := by
    rw [UInt32.lt_iff_toNat_lt, ht.numSlots]
    exact hlt
  obtain ⟨hidle, hdef⟩ := ht.idle hlt
  obtain ⟨value, e, hread, hheld, hvalue⟩ := readValue_element h ht.bound (by omega) hslot hidle hdef d
  rw [ht.entry j text hj] at hvalue
  exact ⟨value, e, hread, ht.setBound h.ne hheld, hvalue⟩

theorem Slots.HoldsTexts.reads (ht : s.HoldsTexts D v b var texts) (h : TransientArray D v b var varN)
    (hj : texts[j.toNat]? = some text) (hsmall : j.toNat < 2147483647) (d : ℕ) (expected : CString) :
    ReadsText D (calls D (d + 3)) ⟨v, [j]⟩ expected s ↔
      expected = text ∧ D.types.vartypeMatch var.type text = true := by
  have hlt := (List.getElem?_eq_some_iff.mp hj).1
  have hslot : j < s.numSlots v [] := by
    rw [UInt32.lt_iff_toNat_lt, ht.numSlots]
    exact hlt
  have hentry := ht.entry j text hj
  obtain ⟨hidle, hdef⟩ := ht.idle hlt
  obtain ⟨hnone, hsome⟩ := read_element h ht.bound (by omega) hslot hidle hdef d
  rw [hentry, writtenElement] at hnone hsome
  by_cases hmatch : D.types.vartypeMatch var.type text = true
  · rw [if_pos hmatch] at hsome
    have hread := hsome text rfl
    exact ⟨fun hexpected => ⟨hexpected.unique hread, hmatch⟩, fun hboth => hboth.1 ▸ hread⟩
  · rw [if_neg hmatch] at hnone
    have hread := hnone rfl
    exact ⟨fun hexpected => absurd hread hexpected.not_unreadable, fun hboth => absurd hboth.2 hmatch⟩

theorem Slots.HoldsTexts.readsExactly (ht : s.HoldsTexts D v b var texts)
    (h : TransientArray D v b var varN) (hlen : texts.length ≤ 2147483647)
    (hmatch : ∀ text ∈ texts, D.types.vartypeMatch var.type text = true) (d : ℕ) :
    ReadsExactly D (calls D (d + 3)) v b texts s where
  bound := by
    have hheld := boundReads_of_holds h ht.bound d
    rwa [Nat.min_eq_left hlen] at hheld
  element := by
    intro j text hj
    have hlt := (List.getElem?_eq_some_iff.mp hj).1
    exact (ht.reads h hj (by omega) d text).mpr ⟨rfl, hmatch text (List.mem_of_getElem? hj)⟩
  nothingElse := by
    intro j hj
    refine unreadable_of_numSlots_le h ?_ _
    rw [UInt32.le_iff_toNat_le, ht.numSlots]
    exact hj

theorem Slots.HoldsTexts.of_readsExactly (ht : s.HoldsTexts D v b var texts)
    (h : TransientArray D v b var varN) {expected : List CString}
    (hreads : ReadsExactly D (calls D (d + 3)) v b expected s) :
    expected = texts.take 2147483647 ∧ ∀ text ∈ expected, D.types.vartypeMatch var.type text = true := by
  have hlength := hreads.bound.unique (boundReads_of_holds h ht.bound d)
  have hvalues : ∀ k (hk : k < expected.length) (hk' : k < texts.length), expected[k] = texts[k] ∧
      D.types.vartypeMatch var.type texts[k] = true := by
    intro k hk hk'
    have hindex : (UInt32.ofNat k).toNat = k := UInt32.toNat_ofNat_of_lt' (by unfold UInt32.size; omega)
    have hexpected : expected[(UInt32.ofNat k).toNat]? = some expected[k] := by
      rw [hindex]
      exact List.getElem?_eq_getElem hk
    have hwritten : texts[(UInt32.ofNat k).toNat]? = some texts[k] := by
      rw [hindex]
      exact List.getElem?_eq_getElem hk'
    exact (ht.reads h hwritten (by omega) d _).mp (hreads.element _ _ hexpected)
  refine ⟨List.ext_getElem (by rw [List.length_take, hlength, Nat.min_comm]) fun k hk hk' => ?_, ?_⟩
  · rw [List.getElem_take]
    exact (hvalues k hk (by omega)).1
  · intro text hmem
    obtain ⟨k, hk, rfl⟩ := List.mem_iff_getElem.mp hmem
    obtain ⟨hsame, hmatch⟩ := hvalues k hk (by omega)
    rw [hsame]
    exact hmatch

end array

end Mkfli4l
