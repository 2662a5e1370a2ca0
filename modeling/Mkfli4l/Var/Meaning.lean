import Mkfli4l.Expression.Respected
import Mkfli4l.Var.ReadEffects

/-!
# The meaning of variables in a store

Reading a variable evaluates its condition and its default value, which reads other
variables; default values are cached on the way, and `read_active` breaks dependency
cycles.  What a read returns therefore might depend on what has been read before.

This module gives variables and expressions a meaning that depends on one fixed store `s`
alone: `meaning D s n` runs the functions of the program from `s`, with callees that look up
`meaning D s (n - 1)` and leave no trace.  Variables whose evaluation runs into itself have
no meaning at any level, and neither have those that are being read in `s` or whose evaluation
clears an array.

The program realizes the meaning in every store that differs from `s` by caches of meanings
only (`calls_realize`): a read of a variable that has a meaning returns it, and leaves such a
store behind.  So the order of reads does not matter.  Conversely, what is evaluated without
clearing an array and without coming upon a dependency cycle has a meaning (`calls_means`).
-/

namespace Mkfli4l

open Lib Exec

/-! ### Levels of meaning -/

/-- What expressions and variable instances stand for, as far as it is known. -/
structure Meaning where
  expr : Expr → VarInstance → Option Literal
  read : VarInstance → Option (Option VarValue)

/-- Return what is known and do not return otherwise. -/
def returnKnown {α : Type} : Option α → SlotExec α
  | some a => pure a
  | none => throw .stackOverflow

/-- Callees that look up a meaning. -/
def Meaning.callees (M : Meaning) : Callees where
  depth := 0
  exprEvaluate := fun e context => returnKnown (M.expr e context)
  tryGetValue := fun inst => returnKnown (M.read inst)
  doSetValue := fun _ => throw .stackOverflow

/-- What a run returns if it comes upon no dependency cycle. -/
def quietResult {α : Type} (x : SlotExec α) (s : Slots) : Option α :=
  match x s with
  | .ok (a, s') => if s'.cycles = s.cycles then some a else none
  | .error _ => none

theorem quietResult_eq_some_iff {α : Type} {x : SlotExec α} {s : Slots} {a : α} :
    quietResult x s = some a ↔ ∃ s', x s = .ok (a, s') ∧ s'.cycles = s.cycles := by
  unfold quietResult
  cases hx : x s with
  | error e => simp
  | ok r =>
      obtain ⟨b, s'⟩ := r
      simp only [Option.ite_none_right_eq_some, Option.some.injEq, Except.ok.injEq, Prod.mk.injEq]
      constructor
      · rintro ⟨hquiet, rfl⟩
        exact ⟨s', ⟨rfl, rfl⟩, hquiet⟩
      · rintro ⟨s'', ⟨rfl, rfl⟩, hquiet⟩
        exact ⟨hquiet, rfl⟩

/-- What is found out about a store in `n` rounds of evaluation. -/
def meaning (D : Defs) (s : Slots) : Nat → Meaning
  | 0 => ⟨fun _ _ => none, fun _ => none⟩
  | n + 1 =>
      { expr := fun e context => (exprEvaluate D (meaning D s n).callees e context).result s
        read := fun inst => quietResult (varInstanceDoGetValue D (meaning D s n).callees inst) s }

variable {s' w w' : Slots} {m : Nat} {lit : Literal} {v : VarId} {inst : VarInstance}
  {text : Option CString} {var : Var} {r : Option VarValue} {value : VarValue}

@[simp] theorem returnKnown_ok_iff {α : Type} {o : Option α} {a : α} {s : Slots} :
    returnKnown o s = .ok (a, s') ↔ o = some a ∧ s = s' := by
  cases o with
  | none =>
      simp only [returnKnown, throw_ok_iff, reduceCtorEq, false_and]
  | some b => simp [returnKnown]

/-- The one meaning is part of the other one. -/
structure Meaning.Le (M M' : Meaning) : Prop where
  expr : ∀ e context lit, M.expr e context = some lit → M'.expr e context = some lit
  read : ∀ inst value, M.read inst = some value → M'.read inst = some value

theorem Meaning.Le.callees {M M' : Meaning} (h : M.Le M') (D : Defs) :
    M.callees.Related (fun _ => Exec.Below) D M'.callees where
  exprEvaluate := by
    intro e context s r hrun
    obtain ⟨lit, s'⟩ := r
    obtain ⟨hlit, rfl⟩ := returnKnown_ok_iff.mp hrun
    exact returnKnown_ok_iff.mpr ⟨h.expr e context lit hlit, rfl⟩
  tryGetValue := by
    intro inst s r hrun
    obtain ⟨value, s'⟩ := r
    obtain ⟨hvalue, rfl⟩ := returnKnown_ok_iff.mp hrun
    exact returnKnown_ok_iff.mpr ⟨h.read inst value hvalue, rfl⟩
  doSetValue := fun _ _ _ hrun => (throw_ok_iff.mp hrun).elim
  create := fun _ => Exec.Below.refl _

theorem meaning_le {D : Defs} (s : Slots) {n : Nat} (hle : n ≤ m) : (meaning D s n).Le (meaning D s m) := by
  have hsucc : ∀ k, (meaning D s k).Le (meaning D s (k + 1)) := by
    intro k
    induction k with
    | zero => exact ⟨fun _ _ _ h => (nomatch h), fun _ _ h => (nomatch h)⟩
    | succ k ih =>
        refine ⟨fun e context lit h => ?_, fun inst value h => ?_⟩
        · exact (respected_below.ofExprEvaluate (m := D.matchArray) (ih.callees D) (Or.inl rfl) e
            context).result h
        · obtain ⟨s', hrun, hquiet⟩ := quietResult_eq_some_iff.mp h
          exact quietResult_eq_some_iff.mpr ⟨s',
            respected_below.ofVarInstanceDoGetValue (m := D.matchArray) (ih.callees D) inst hrun, hquiet⟩
  induction hle with
  | refl => exact ⟨fun _ _ _ h => h, fun _ _ h => h⟩
  | step _ ih =>
      exact ⟨fun e context lit h => (hsucc _).expr e context lit (ih.expr e context lit h),
        fun inst value h => (hsucc _).read inst value (ih.read inst value h)⟩

theorem meaning_expr_unique {D : Defs} {s : Slots} {n : Nat} {e : Expr} {context : VarInstance}
    {lit' : Literal} (h : (meaning D s n).expr e context = some lit)
    (h' : (meaning D s m).expr e context = some lit') : lit = lit' := by
  have hn := (meaning_le s (Nat.le_max_left n m)).expr e context lit h
  have hm := (meaning_le s (Nat.le_max_right n m)).expr e context lit' h'
  exact Option.some.inj (hn.symm.trans hm)

/-! ### Stores with caches of meanings -/

/-- What may be cached in a slot beyond its content in `s`: the meaning of the default value. -/
def DefaultMeaning (D : Defs) (s : Slots) (inst : VarInstance) (text : CString) : Prop :=
  ∃ e n lit, D.defValue inst.var = some e ∧ (meaning D s n).expr e inst = some lit ∧
    exprGetStringValue lit = some text

/-- The store `u` differs from `s` by `read_active` and by caches of meanings. -/
structure Sees (D : Defs) (s u : Slots) : Prop where
  numSlots : u.numSlots = s.numSlots
  value : ∀ v p, (u.entry v p).value = (s.entry v p).value
  extra : ∀ v p, (u.entry v p).extra = (s.entry v p).extra
  priority : ∀ v p, (u.entry v p).priority = (s.entry v p).priority
  defValue : ∀ v p, (u.entry v p).defValue = (s.entry v p).defValue ∨
    (s.entry v p).defValue = none ∧
      ∃ text, (u.entry v p).defValue = some text ∧ DefaultMeaning D s ⟨v, p⟩ text

namespace Sees

variable {D : Defs} {s u : Slots}

protected theorem refl (D : Defs) (s : Slots) : Sees D s s :=
  ⟨rfl, fun _ _ => rfl, fun _ _ => rfl, fun _ _ => rfl, fun _ _ => Or.inl rfl⟩

theorem has_eq (h : Sees D s u) (v : VarId) (p : List UInt32) : u.has v p = s.has v p :=
  Slots.has_congr (fun q => by rw [h.numSlots]) p

theorem updateEntry (h : Sees D s u) {p : List UInt32} {f : SlotEntry → SlotEntry}
    (hvalue : (f (u.entry v p)).value = (u.entry v p).value)
    (hextra : (f (u.entry v p)).extra = (u.entry v p).extra)
    (hpriority : (f (u.entry v p)).priority = (u.entry v p).priority)
    (hdef : (f (u.entry v p)).defValue = (u.entry v p).defValue ∨ (s.entry v p).defValue = none ∧
        ∃ text, (f (u.entry v p)).defValue = some text ∧ DefaultMeaning D s ⟨v, p⟩ text) :
    Sees D s (u.updateEntry v p f) := by
  have hcases : ∀ w q, (w = v ∧ q = p ∧ (u.updateEntry v p f).entry w q = f (u.entry v p)) ∨
      (u.updateEntry v p f).entry w q = u.entry w q := by
    intro w q
    rw [Slots.updateEntry_entry]
    split
    · next hhere => exact Or.inl ⟨hhere.1, hhere.2, rfl⟩
    · exact Or.inr rfl
  refine ⟨h.numSlots, fun w q => ?_, fun w q => ?_, fun w q => ?_, fun w q => ?_⟩
  · rcases hcases w q with ⟨rfl, rfl, heq⟩ | heq
    · rw [heq, hvalue, h.value]
    · rw [heq, h.value]
  · rcases hcases w q with ⟨rfl, rfl, heq⟩ | heq
    · rw [heq, hextra, h.extra]
    · rw [heq, h.extra]
  · rcases hcases w q with ⟨rfl, rfl, heq⟩ | heq
    · rw [heq, hpriority, h.priority]
    · rw [heq, h.priority]
  · rcases hcases w q with ⟨rfl, rfl, heq⟩ | heq
    · rw [heq]
      rcases hdef with hdef | hdef
      · rw [hdef]
        exact h.defValue w q
      · exact Or.inr hdef
    · rw [heq]
      exact h.defValue w q

theorem setReadActive (h : Sees D s u) (inst : VarInstance) (active : Bool) :
    Sees D s
      (u.updateEntry inst.var inst.indices fun e => { e with readActive := active }) :=
  h.updateEntry rfl rfl rfl (Or.inl rfl)

theorem getSlot_eq (h : Sees D s u) (var : Var) (inst : VarInstance) :
    varInstanceGetSlotForReading u var inst = varInstanceGetSlotForReading s var inst := by
  unfold varInstanceGetSlotForReading
  rw [h.has_eq]

theorem reportCycle (h : Sees D s u) : Sees D s u.reportCycle :=
  ⟨h.numSlots, h.value, h.extra, h.priority, h.defValue⟩

end Sees

/-- The `read_active` flags of two stores are the same. -/
def SameActive (u u' : Slots) : Prop :=
  ∀ v p, (u'.entry v p).readActive = (u.entry v p).readActive

/-- No variable has a meaning at level `n` that is being read in `u`, but not in `s`. -/
def NoneActive (D : Defs) (s : Slots) (n : Nat) (u : Slots) : Prop :=
  ∀ inst, (s.entry inst.var inst.indices).readActive = false →
    (u.entry inst.var inst.indices).readActive = true → (meaning D s n).read inst = none

theorem noneActive_self (D : Defs) (s : Slots) (n : Nat) : NoneActive D s n s := by
  intro inst hinactive hactive
  rw [hinactive] at hactive
  contradiction

/-- The stores that are seen while variables are read from `u`. -/
def View (D : Defs) (s u u' : Slots) : Prop := Sees D s u' ∧ SameActive u u'

/-! ### Matches that clear nothing -/

section again

variable {D : Defs} {c : Callees} {u u' : Slots}

theorem varSlotGetOrCreate_nil_again {depth : Nat} {r : Unit}
    (h : varSlotGetOrCreate D depth ⟨v, []⟩ u = .ok (r, u')) (depth' : Nat) (w : Slots) :
    varSlotGetOrCreate D depth' ⟨v, []⟩ w = .ok ((), w) := by
  have hbounds : ∀ level b bounds u u', varNArray D level b u = .ok (bounds, u') →
      varNArray D level b w = .ok (bounds, w) := by
    intro level
    induction level with
    | zero =>
        intro b bounds u u' h
        obtain ⟨rfl, -⟩ := pure_ok_iff.mp h
        rfl
    | succ level ih =>
        intro b bounds u u' h
        cases b with
        | none => exact (throw_ok_iff.mp h).elim
        | some b =>
            obtain ⟨varN, u₁, hderef, hrest⟩ := bind_ok_iff.mp h
            obtain ⟨lower, u₂, hlower, hrest⟩ := bind_ok_iff.mp hrest
            obtain ⟨rfl, -⟩ := pure_ok_iff.mp hrest
            have hvarN := (Defs.deref_ok_iff.mp hderef).1
            exact bind_ok_iff.mpr ⟨varN, w, Defs.deref_ok_iff.mpr ⟨hvarN, rfl⟩,
              bind_ok_iff.mpr ⟨lower, w, ih _ _ _ _ hlower, rfl⟩⟩
  obtain ⟨var, u₁, hderef, hrest⟩ := bind_ok_iff.mp h
  obtain ⟨bounds, u₂, harray, -⟩ := bind_ok_iff.mp hrest
  have hvar := (Defs.deref_ok_iff.mp hderef).1
  refine bind_ok_iff.mpr ⟨var, w, Defs.deref_ok_iff.mpr ⟨hvar, rfl⟩, ?_⟩
  refine bind_ok_iff.mpr ⟨bounds, w, hbounds _ _ _ _ _ harray, ?_⟩
  simp only [List.take_nil, growPath]
  rfl

theorem varSlotGetPriority_congr (hnum : w.numSlots = u.numSlots)
    (hpriority : ∀ v p, (w.entry v p).priority = (u.entry v p).priority) (v : VarId) (height : Nat)
    (p : List UInt32) : varSlotGetPriority w v height p = varSlotGetPriority u v height p := by
  induction height generalizing p with
  | zero => exact hpriority v p
  | succ height ih =>
      rw [varSlotGetPriority, varSlotGetPriority, hnum]
      simp only [ih]

theorem varInstanceGetSlotForWriting_nil_again {m : VarId} {mode : AccessMode} {priority : Priority}
    {access : SlotAccess} (h : varInstanceGetSlotForWriting D c ⟨m, []⟩ mode priority false u = .ok (access, u'))
    (c' : Callees) (hnum : w.numSlots = u.numSlots)
    (hpriority : ∀ v p, (w.entry v p).priority = (u.entry v p).priority) :
    varInstanceGetSlotForWriting D c' ⟨m, []⟩ mode priority false w = .ok (access, w) := by
  obtain ⟨var, u₁, hderef, hrun⟩ := bind_ok_iff.mp h
  obtain ⟨hvar, rfl⟩ := Defs.deref_ok_iff.mp hderef
  unfold varInstanceGetSlotForWriting
  rw [bind_of_ok (Defs.deref_ok_iff.mpr ⟨hvar, rfl⟩)]
  split at hrun
  · next hbase =>
      obtain ⟨rfl, -⟩ := pure_ok_iff.mp hrun
      rw [if_pos hbase]
      rfl
  · next hbase =>
      rw [if_neg hbase]
      split at hrun
      · next hexcess => exact absurd hexcess (Nat.not_lt_zero _)
      · next hexcess =>
          rw [if_neg hexcess]
          obtain ⟨_, u₂, hraise, h₁⟩ := bind_ok_iff.mp hrun
          obtain ⟨_, u₃, hcreate, h₂⟩ := bind_ok_iff.mp h₁
          obtain ⟨_, u₄, hslot, h₃⟩ := bind_ok_iff.mp h₂
          obtain ⟨t, u₅, hget, hopen⟩ := bind_ok_iff.mp h₃
          obtain ⟨-, rfl⟩ := pure_ok_iff.mp hraise
          obtain rfl := varSlotGetOrCreate_nil hcreate
          obtain ⟨-, rfl⟩ := derefSlot_ok_iff.mp hslot
          obtain ⟨rfl, rfl⟩ := get_ok_iff.mp hget
          have hraise' : raiseBound D c' var ⟨m, []⟩ w = .ok ((), w) := rfl
          have hslot' : derefSlot m [] w = .ok ((), w) := derefSlot_ok_iff.mpr ⟨rfl, rfl⟩
          have hget' : (get : SlotExec Slots) w = .ok (w, w) := rfl
          unfold openSlot
          rw [bind_of_ok hraise', bind_of_ok (varSlotGetOrCreate_nil_again hcreate c'.depth w),
            bind_of_ok hslot', bind_of_ok hget']
          dsimp only at hopen ⊢
          rw [varSlotGetPriority_congr hnum hpriority]
          split at hopen
          · next hgranted =>
              obtain ⟨rfl, -⟩ := pure_ok_iff.mp hopen
              rw [if_pos hgranted]
              rfl
          · next hgranted =>
              obtain ⟨rfl, -⟩ := pure_ok_iff.mp hopen
              rw [if_neg hgranted]
              rfl

theorem varInstanceClear_refused {m : VarId}
    (h : varInstanceClear D c ⟨m, []⟩ .weak .scriptTransient u = .ok (false, u')) :
    u' = u ∧ ∀ c' (w : Slots), w.numSlots = u.numSlots →
      (∀ v p, (w.entry v p).priority = (u.entry v p).priority) →
      varInstanceClear D c' ⟨m, []⟩ .weak .scriptTransient w = .ok (false, w) := by
  obtain ⟨var, u₁, hderef, hrun⟩ := bind_ok_iff.mp h
  obtain ⟨hvar, rfl⟩ := Defs.deref_ok_iff.mp hderef
  have hderef' : ∀ w : Slots, D.deref m w = .ok (var, w) := fun w => Defs.deref_ok_iff.mpr ⟨hvar, rfl⟩
  unfold varInstanceClear
  split at hrun
  · next hlevel =>
      refine ⟨(pure_ok_iff.mp hrun).2.symm, fun c' w _ _ => ?_⟩
      rw [bind_of_ok (hderef' w), if_pos hlevel]
      rfl
  · next hlevel =>
      obtain ⟨access, u₂, haccess, hrun⟩ := bind_ok_iff.mp hrun
      obtain rfl := varInstanceGetSlotForWriting_nil haccess
      have hagain := fun c' w hnum hpriority =>
        varInstanceGetSlotForWriting_nil_again haccess c' (w := w) hnum hpriority
      cases access with
      | invalid =>
          refine ⟨(pure_ok_iff.mp hrun).2.symm, fun c' w hnum hpriority => ?_⟩
          rw [bind_of_ok (hderef' w), if_neg hlevel, bind_of_ok (hagain c' w hnum hpriority)]
          rfl
      | rejected =>
          refine ⟨(pure_ok_iff.mp hrun).2.symm, fun c' w hnum hpriority => ?_⟩
          rw [bind_of_ok (hderef' w), if_neg hlevel, bind_of_ok (hagain c' w hnum hpriority)]
          rfl
      | granted =>
          obtain ⟨_, _, -, hrun⟩ := bind_ok_iff.mp hrun
          obtain ⟨_, _, -, hrun⟩ := bind_ok_iff.mp hrun
          obtain ⟨_, _, -, hrun⟩ := bind_ok_iff.mp hrun
          exact nomatch (pure_ok_iff.mp hrun).1

variable {val regex : CString}

/-- A match succeeds and clears the array of the matched groups, or it leaves the store alone and has the
same result in every store with the same arrays and priorities. -/
theorem matchLiterals_cases (h : matchLiterals D c val regex u = .ok (lit, u')) :
    (∃ m u₁, varInstanceClear D c ⟨m, []⟩ .weak .scriptTransient u = .ok (true, u₁) ∧
      D.matchArray = some m ∧ ∃ texts r, storeMatches D c m 0 texts u₁ = .ok (r, u')) ∨
    u' = u ∧ ∀ c' (w : Slots), w.numSlots = u.numSlots →
      (∀ v p, (w.entry v p).priority = (u.entry v p).priority) →
      matchLiterals D c' val regex w = .ok (lit, w) := by
  unfold matchLiterals at h ⊢
  cases hregex : D.types.regexMatch regex val with
  | invalid =>
      rw [hregex] at h
      obtain ⟨rfl, rfl⟩ := pure_ok_iff.mp h
      exact Or.inr ⟨rfl, fun _ _ _ _ => rfl⟩
  | noMatch =>
      rw [hregex] at h
      obtain ⟨rfl, rfl⟩ := pure_ok_iff.mp h
      exact Or.inr ⟨rfl, fun _ _ _ _ => rfl⟩
  | groups texts =>
      rw [hregex] at h
      cases hm : D.matchArray with
      | none =>
          rw [hm] at h
          exact (throw_ok_iff.mp h).elim
      | some m =>
          rw [hm] at h
          obtain ⟨cleared, u₁, hclear, hrest⟩ := bind_ok_iff.mp h
          cases cleared with
          | true =>
              obtain ⟨r, u₂, hstore, hrest⟩ := bind_ok_iff.mp hrest
              obtain ⟨-, rfl⟩ := pure_ok_iff.mp hrest
              exact Or.inl ⟨m, u₁, hclear, rfl, texts, r, hstore⟩
          | false =>
              obtain ⟨rfl, hagain⟩ := varInstanceClear_refused hclear
              obtain ⟨rfl, rfl⟩ := pure_ok_iff.mp hrest
              refine Or.inr ⟨rfl, fun c' w hnum hpriority => ?_⟩
              dsimp only
              rw [bind_of_ok (hagain c' w hnum hpriority)]
              rfl

theorem matchLiterals_of_readOnly (hset : ∀ r t res t', c.doSetValue r t ≠ .ok (res, t'))
    (h : matchLiterals D c val regex u = .ok (lit, u')) :
    u' = u ∧ ∀ c' (w : Slots), w.numSlots = u.numSlots →
      (∀ v p, (w.entry v p).priority = (u.entry v p).priority) →
      matchLiterals D c' val regex w = .ok (lit, w) := by
  refine (matchLiterals_cases h).resolve_left ?_
  rintro ⟨m, u₁, hclear, -⟩
  obtain ⟨var, _, -, hrun⟩ := bind_ok_iff.mp hclear
  split at hrun
  · exact nomatch (pure_ok_iff.mp hrun).1
  · obtain ⟨access, _, -, hrun⟩ := bind_ok_iff.mp hrun
    cases access with
    | invalid => exact nomatch (pure_ok_iff.mp hrun).1
    | rejected => exact nomatch (pure_ok_iff.mp hrun).1
    | granted =>
        obtain ⟨_, _, -, hrun⟩ := bind_ok_iff.mp hrun
        obtain ⟨_, _, -, hrun⟩ := bind_ok_iff.mp hrun
        obtain ⟨_, _, hwrite, -⟩ := bind_ok_iff.mp hrun
        exact hset _ _ _ _ hwrite

theorem matchLiterals_of_quiet (hc : c.Sound D)
    (h : matchLiterals D c val regex u = .ok (lit, u')) (hquiet : u'.clears ≤ u.clears) :
    u' = u ∧ ∀ c' (w : Slots), w.numSlots = u.numSlots →
      (∀ v p, (w.entry v p).priority = (u.entry v p).priority) →
      matchLiterals D c' val regex w = .ok (lit, w) := by
  refine (matchLiterals_cases h).resolve_left ?_
  rintro ⟨m, u₁, hclear, hm, texts, r, hstore⟩
  rcases varInstanceClear_cases hc hclear with ⟨-, hmode⟩ | hcounted
  · exact nomatch hmode rfl
  · have hmoves := storeMatches_moves hc hm 0 texts hstore
    exact Nat.lt_irrefl _ (Nat.lt_of_lt_of_le hcounted ((Moves.clears_le hmoves).trans hquiet))

end again

/-! ### Realizing a meaning -/

/-- From every store of `I`, the computation `x` returns what `y` returns in `s` without a
trace, and ends in a store of `I`. -/
def Realizes {α : Type} (s : Slots) (I : Slots → Prop) (x y : SlotExec α) : Prop :=
  ∀ a s', y s = .ok (a, s') → s' = s ∧ ∀ u, I u → ∃ u', x u = .ok (a, u') ∧ I u'

namespace Realizes

variable {α β : Type} {s : Slots} {I : Slots → Prop}

theorem pure (a : α) : Realizes s I (pure a) (pure a) := by
  intro b s' h
  obtain ⟨rfl, rfl⟩ := pure_ok_iff.mp h
  exact ⟨rfl, fun u hu => ⟨u, rfl, hu⟩⟩

theorem throw (e : Fault) : Realizes s I (throw e : SlotExec α) (throw e) :=
  fun _ _ h => (throw_ok_iff.mp h).elim

theorem bind {x y : SlotExec α} {f g : α → SlotExec β} (hx : Realizes s I x y)
    (hf : ∀ a, Realizes s I (f a) (g a)) : Realizes s I (x >>= f) (y >>= g) := by
  intro b s'' h
  obtain ⟨a, s', hrun, hrest⟩ := bind_ok_iff.mp h
  obtain ⟨rfl, hfirst⟩ := hx a s' hrun
  obtain ⟨rfl, hsecond⟩ := hf a b s'' hrest
  refine ⟨rfl, fun u hu => ?_⟩
  obtain ⟨u₁, hrun₁, hu₁⟩ := hfirst u hu
  obtain ⟨u₂, hrun₂, hu₂⟩ := hsecond u₁ hu₁
  exact ⟨u₂, bind_ok_iff.mpr ⟨a, u₁, hrun₁, hrun₂⟩, hu₂⟩

theorem congruence (s : Slots) (I : Slots → Prop) :
    Congruence fun _ x (y : Unit → _) => Realizes s I x (y ()) where
  ofPure a := pure a
  ofNull _ := throw .nullPointer
  ofBind hx hf := bind hx hf

end Realizes

/-- The callees `c` realize the callees `c'` when they read and evaluate. -/
structure Callees.Realize (s : Slots) (I : Slots → Prop) (c c' : Callees) : Prop where
  exprEvaluate : ∀ e context, Realizes s I (c.exprEvaluate e context) (c'.exprEvaluate e context)
  tryGetValue : ∀ inst, Realizes s I (c.tryGetValue inst) (c'.tryGetValue inst)

theorem Meaning.callees_realize (M : Meaning) (s : Slots) :
    M.callees.Realize s (fun _ => True) M.callees where
  exprEvaluate := by
    intro e context lit s' h
    obtain ⟨hlit, rfl⟩ := returnKnown_ok_iff.mp h
    exact ⟨rfl, fun u _ => ⟨u, returnKnown_ok_iff.mpr ⟨hlit, rfl⟩, trivial⟩⟩
  tryGetValue := by
    intro inst value s' h
    obtain ⟨hvalue, rfl⟩ := returnKnown_ok_iff.mp h
    exact ⟨rfl, fun u _ => ⟨u, returnKnown_ok_iff.mpr ⟨hvalue, rfl⟩, trivial⟩⟩

section realize

variable {D : Defs} {s : Slots} {I : Slots → Prop} {c c' : Callees} (h : c.Realize s I c')

include h

theorem indicesInBounds_realizes (var : Var) (inst : VarInstance) :
    Realizes s I (indicesInBounds D c var inst) (indicesInBounds D c' var inst) :=
  (Realizes.congruence s I).ofIndicesInBounds (d := fun _ => c') (fun _ => Realizes.throw _)
    h.tryGetValue var inst

theorem exprEvaluate_realizes (hI : ∀ u, I u → Sees D s u)
    (hset : ∀ r t res t', c'.doSetValue r t ≠ .ok (res, t')) (e : Expr) (context : VarInstance) :
    Realizes s I (exprEvaluate D c e context) (exprEvaluate D c' e context) := by
  refine (Realizes.congruence s I).ofExprEvaluate (d := fun _ => c') (m := fun _ => D.matchArray) h.tryGetValue
    (fun _ => h.exprEvaluate _) e context (Or.inr fun val regex lit s' hrun => ?_)
  obtain ⟨rfl, hagain⟩ := matchLiterals_of_readOnly hset hrun
  exact ⟨rfl, fun u hu => ⟨u, hagain c u (hI u hu).numSlots (hI u hu).priority, hu⟩⟩

end realize

/-! ### Reading a variable that has a meaning -/

theorem SameActive.updateEntry {u u' : Slots} (h : SameActive u u')
    {p : List UInt32} {f : SlotEntry → SlotEntry}
    (hf : (f (u'.entry v p)).readActive = (u'.entry v p).readActive) :
    SameActive u (u'.updateEntry v p f) := by
  intro w q
  rw [Slots.updateEntry_entry]
  split
  · next hhere =>
      obtain ⟨rfl, rfl⟩ := hhere
      rw [hf]
      exact h w q
  · exact h w q

/-- The text of the default value of an instance, at level `n`. -/
def DefaultKnown (D : Defs) (s : Slots) (n : Nat) (inst : VarInstance) (text : Option CString) :
    Prop :=
  (D.defValue inst.var = none ∧ text = none) ∨
    ∃ e lit, D.defValue inst.var = some e ∧ (meaning D s n).expr e inst = some lit ∧
      text = exprGetStringValue lit

theorem defaultKnown_of_cacheDefault {D : Defs} {s : Slots} {n : Nat}
    {r : Unit} (hw : (w.entry inst.var inst.indices).defValue = none)
    (h : cacheDefault D (meaning D s n).callees inst w = .ok (r, w')) :
    DefaultKnown D s n inst (w'.entry inst.var inst.indices).defValue := by
  rcases cacheDefault_cases h with ⟨hdef, rfl⟩ | ⟨e, lit, w₁, hdef, heval, -, hcached⟩
  · exact Or.inl ⟨hdef, hw⟩
  · obtain ⟨hlit, rfl⟩ := returnKnown_ok_iff.mp heval
    refine Or.inr ⟨e, lit, hdef, hlit, ?_⟩
    rcases hcached with ⟨htext, rfl⟩ | ⟨text, htext, rfl⟩
    · rw [hw, htext]
    · rw [htext]
      simp

theorem DefaultKnown.eq_of_defaultMeaning {D : Defs} {s : Slots} {n : Nat} {cached : CString}
    (h : DefaultKnown D s n inst text) (hcached : DefaultMeaning D s inst cached) :
    text = some cached := by
  obtain ⟨e', m, lit', hdef', hlit', htext'⟩ := hcached
  rcases h with ⟨hdef, -⟩ | ⟨e, lit, hdef, hlit, rfl⟩
  · rw [hdef] at hdef'
    contradiction
  · obtain rfl : e = e' := Option.some.inj (hdef.symm.trans hdef')
    rw [meaning_expr_unique hlit hlit']
    exact htext'

theorem varInstanceDoGetValue_of_missing {D : Defs} {c : Callees}
    {u : Slots} (hvar : D.vars inst.var = some var) (hmissing : inst.indices.length < var.level ∨
      varInstanceGetSlotForReading u var inst = none) :
    varInstanceDoGetValue D c inst u = .ok (none, u) := by
  unfold varInstanceDoGetValue
  rw [bind_of_ok (Defs.deref_ok_iff.mpr ⟨hvar, rfl⟩)]
  by_cases hlen : inst.indices.length < var.level
  · rw [if_pos hlen]
    rfl
  · rw [if_neg hlen, bind_of_ok (get_ok_iff.mpr ⟨rfl, rfl⟩),
      hmissing.resolve_left hlen]
    rfl

theorem varInstanceDoGetValue_of_slot {D : Defs} {c : Callees}
    {u u' : Slots} (hvar : D.vars inst.var = some var)
    (hlen : inst.indices.length = var.level) (hhas : u.has inst.var inst.indices = true)
    (hread : varInstanceReadValue D c inst u = .ok (r, u')) :
    varInstanceDoGetValue D c inst u = .ok (dropUnset r, u') := by
  have hslot : varInstanceGetSlotForReading u var inst = some inst.indices :=
    varInstanceGetSlotForReading_eq_some.mpr ⟨hlen.le, hhas, rfl⟩
  unfold varInstanceDoGetValue
  rw [bind_of_ok (Defs.deref_ok_iff.mpr ⟨hvar, rfl⟩), if_neg (Nat.not_lt.mpr hlen.ge),
    bind_of_ok (get_ok_iff.mpr ⟨rfl, rfl⟩), hslot]
  dsimp only
  rw [bind_of_ok hread]
  rfl

theorem readCheckedValue_of_active {D : Defs} {c : Callees}
    {u : Slots} (hhas : u.has inst.var inst.indices = true)
    (hactive : (u.entry inst.var inst.indices).readActive = true) :
    readCheckedValue D c var inst u = .ok (none, u.reportCycle) := by
  have hslot : derefSlot inst.var inst.indices u = .ok ((), u) :=
    derefSlot_ok_iff.mpr ⟨hhas, rfl⟩
  unfold readCheckedValue
  rw [bind_of_ok hslot, bind_of_ok (get_ok_iff.mpr ⟨rfl, rfl⟩), if_pos hactive]
  rfl

theorem readCheckedValue_of_inactive {D : Defs} {c : Callees} {u u₂ u₃ : Slots} {enabled : Bool}
    (hhas : u.has inst.var inst.indices = true)
    (hinactive : (u.entry inst.var inst.indices).readActive = false)
    (henabled : varInstanceIsEnabled D c inst
      (u.updateEntry inst.var inst.indices fun e => { e with readActive := true }) =
        .ok (enabled, u₂))
    (hhas₂ : u₂.has inst.var inst.indices = true)
    (hvalue : varSlotGetValue D c inst u₂ = .ok (value, u₃)) :
    readCheckedValue D c var inst u = .ok (some (presentValue var enabled value),
      u₃.updateEntry inst.var inst.indices fun e => { e with readActive := false }) := by
  have hslot : derefSlot inst.var inst.indices u = .ok ((), u) :=
    derefSlot_ok_iff.mpr ⟨hhas, rfl⟩
  have hslot₂ : derefSlot inst.var inst.indices u₂ = .ok ((), u₂) :=
    derefSlot_ok_iff.mpr ⟨hhas₂, rfl⟩
  have hactive : setReadActive inst true u = .ok ((),
      u.updateEntry inst.var inst.indices fun e => { e with readActive := true }) := rfl
  unfold readCheckedValue
  rw [bind_of_ok hslot, bind_of_ok (get_ok_iff.mpr ⟨rfl, rfl⟩),
    if_neg (by rw [hinactive]; decide), bind_of_ok hactive, bind_of_ok henabled,
    bind_of_ok hslot₂, bind_of_ok hvalue]
  rfl

theorem NoneActive.mark {D : Defs} {s u : Slots} {n : Nat}
    (h : NoneActive D s n u) (hunread : (meaning D s n).read inst = none) :
    NoneActive D s n
      (u.updateEntry inst.var inst.indices fun e => { e with readActive := true }) := by
  intro inst' hhas hactive
  rw [Slots.updateEntry_entry] at hactive
  split at hactive
  · next hhere =>
      have hsame : inst' = inst := by
        cases inst'
        cases inst
        obtain ⟨rfl, rfl⟩ := hhere
        rfl
      rw [hsame]
      exact hunread
  · exact h inst' hhas hactive

theorem View.mark {D : Defs} {s u : Slots} (h : View D s u w) :
    View D s (u.updateEntry inst.var inst.indices fun e => { e with readActive := true })
      (w.updateEntry inst.var inst.indices fun e => { e with readActive := true }) := by
  refine ⟨h.1.setReadActive inst true, ?_⟩
  intro v p
  rw [Slots.updateEntry_entry, Slots.updateEntry_entry]
  split
  · rfl
  · exact h.2 v p

theorem View.unmark {D : Defs} {s u : Slots}
    (h : View D s (u.updateEntry inst.var inst.indices fun e => { e with readActive := true }) w)
    (hinactive : (u.entry inst.var inst.indices).readActive = false) :
    View D s u (w.updateEntry inst.var inst.indices fun e => { e with readActive := false }) := by
  refine ⟨h.1.setReadActive inst false, ?_⟩
  intro v p
  have hflag := h.2 v p
  rw [Slots.updateEntry_entry] at hflag ⊢
  split
  · next hhere =>
      obtain ⟨rfl, rfl⟩ := hhere
      exact hinactive.symm
  · next hhere =>
      rw [if_neg hhere] at hflag
      exact hflag

section reading

variable {D : Defs} {s : Slots} {n : Nat} {c : Callees}
  (hc : ∀ u, NoneActive D s n u → c.Realize s (View D s u) (meaning D s n).callees)

include hc

variable {u₀ : Slots}

theorem cacheDefault_of_meaning {u : Slots}
    (htext : DefaultKnown D s n inst text) (hhas : s.has inst.var inst.indices = true)
    (hold : (s.entry inst.var inst.indices).defValue = none)
    (hu : View D s u₀ u) (hnew : (u.entry inst.var inst.indices).defValue = none)
    (hnone : NoneActive D s n u₀) :
    ∃ u', cacheDefault D c inst u = .ok ((), u') ∧ View D s u₀ u' ∧
      (u'.entry inst.var inst.indices).defValue = text := by
  unfold cacheDefault
  rcases id htext with ⟨hdef, rfl⟩ | ⟨e, lit, hdef, hlit, hlitText⟩
  · rw [hdef]
    exact ⟨u, rfl, hu, hnew⟩
  · rw [hdef]
    have heval := (hc u₀ hnone).exprEvaluate e inst lit s
      (returnKnown_ok_iff.mpr ⟨hlit, rfl⟩)
    obtain ⟨u₁, hrun, hu₁⟩ := heval.2 u hu
    have hslot : derefSlot inst.var inst.indices u₁ = .ok ((), u₁) :=
      derefSlot_ok_iff.mpr ⟨by rw [hu₁.1.has_eq]; exact hhas, rfl⟩
    dsimp only
    rw [bind_of_ok hrun, bind_of_ok hslot, ← hlitText]
    cases text with
    | none =>
        -- nothing is cached, so nothing has been cached in the meantime either
        refine ⟨u₁, rfl, hu₁, ?_⟩
        rcases hu₁.1.defValue inst.var inst.indices with heq | ⟨-, cached, -, hcached⟩
        · exact heq.trans hold
        · exact (Option.some_ne_none cached (htext.eq_of_defaultMeaning hcached).symm).elim
    | some text =>
        refine ⟨_, rfl, ⟨?_, ?_⟩, ?_⟩
        · exact hu₁.1.updateEntry rfl rfl rfl
            (Or.inr ⟨hold, text, rfl, e, n, lit, hdef, hlit, hlitText.symm⟩)
        · exact hu₁.2.updateEntry rfl
        · simp

theorem slotDefaultValue_of_meaning {u : Slots}
    (hw : (w.entry inst.var inst.indices).defValue = (s.entry inst.var inst.indices).defValue)
    (hmeaning : slotDefaultValue D (meaning D s n).callees inst w = .ok (text, w'))
    (hhas : s.has inst.var inst.indices = true) (hnone : NoneActive D s n u₀) (hu : View D s u₀ u) :
    ∃ u', slotDefaultValue D c inst u = .ok (text, u') ∧ View D s u₀ u' := by
  obtain ⟨t, w₁, hget, hrun⟩ := bind_ok_iff.mp hmeaning
  obtain ⟨rfl, rfl⟩ := get_ok_iff.mp hget
  unfold slotDefaultValue
  rw [bind_of_ok (get_ok_iff.mpr ⟨rfl, rfl⟩)]
  cases hold : (s.entry inst.var inst.indices).defValue with
  | some old =>
      rw [hw, hold] at hrun
      obtain ⟨rfl, -⟩ := pure_ok_iff.mp hrun
      rcases hu.1.defValue inst.var inst.indices with heq | ⟨hno, -⟩
      · rw [heq, hold]
        exact ⟨u, rfl, hu⟩
      · rw [hold] at hno
        contradiction
  | none =>
      rw [hw, hold] at hrun
      obtain ⟨_, w₂, hcache, hrun⟩ := bind_ok_iff.mp hrun
      obtain ⟨t, w₃, hget', hrun⟩ := bind_ok_iff.mp hrun
      obtain ⟨rfl, rfl⟩ := get_ok_iff.mp hget'
      obtain ⟨rfl, rfl⟩ := pure_ok_iff.mp hrun
      have htext := defaultKnown_of_cacheDefault (hw.trans hold) hcache
      cases hnew : (u.entry inst.var inst.indices).defValue with
      | some cached =>
          refine ⟨u, ?_, hu⟩
          rcases hu.1.defValue inst.var inst.indices with heq | ⟨-, cached', hcached', hcached⟩
          · rw [hnew, hold] at heq
            contradiction
          · obtain rfl : cached = cached' := Option.some.inj (hnew.symm.trans hcached')
            rw [htext.eq_of_defaultMeaning hcached]
            rfl
      | none =>
          obtain ⟨u', hrun', hu', hresult⟩ :=
            cacheDefault_of_meaning hc htext hhas hold hu hnew hnone
          refine ⟨u', ?_, hu'⟩
          dsimp only
          rw [bind_of_ok hrun', ← hresult]
          rfl

theorem varSlotGetValue_of_meaning {u : Slots} (hw : Sees D s w)
    (hdef : (w.entry inst.var inst.indices).defValue = (s.entry inst.var inst.indices).defValue)
    (hmeaning : varSlotGetValue D (meaning D s n).callees inst w = .ok (value, w'))
    (hhas : s.has inst.var inst.indices = true) (hnone : NoneActive D s n u₀) (hu : View D s u₀ u) :
    ∃ u', varSlotGetValue D c inst u = .ok (value, u') ∧ View D s u₀ u' := by
  obtain ⟨t, w₁, hget, hrun⟩ := bind_ok_iff.mp hmeaning
  obtain ⟨rfl, rfl⟩ := get_ok_iff.mp hget
  unfold varSlotGetValue
  rw [bind_of_ok (get_ok_iff.mpr ⟨rfl, rfl⟩)]
  rw [hw.value, hw.extra, hw.priority] at hrun
  rw [hu.1.value, hu.1.extra, hu.1.priority]
  cases hvalue : (s.entry inst.var inst.indices).value with
  | some text =>
      rw [hvalue] at hrun
      obtain ⟨rfl, -⟩ := pure_ok_iff.mp hrun
      exact ⟨u, rfl, hu⟩
  | none =>
      rw [hvalue] at hrun
      obtain ⟨text, w₂, hdefault, hrun⟩ := bind_ok_iff.mp hrun
      obtain ⟨rfl, -⟩ := pure_ok_iff.mp hrun
      obtain ⟨u', hrun', hu'⟩ :=
        slotDefaultValue_of_meaning hc hdef hdefault hhas hnone hu
      refine ⟨u', ?_, hu'⟩
      dsimp only
      rw [bind_of_ok hrun']
      rfl

/-- Behind the check of its indices, a variable is read according to its meaning, unless it is
being read already. -/
theorem readCheckedValue_of_meaning {u : Slots}
    (hmeaning : readCheckedValue D (meaning D s n).callees var inst s = .ok (r, s'))
    (hquiet : s'.cycles = s.cycles) (hunread : (meaning D s n).read inst = none) (hnone : NoneActive D s n u)
    (hsees : Sees D s u) (hflag : (s.entry inst.var inst.indices).readActive = false →
      (u.entry inst.var inst.indices).readActive = false) :
    ∃ u', readCheckedValue D c var inst u = .ok (r, u') ∧ View D s u u' := by
  obtain ⟨hhas, hcases⟩ := readCheckedValue_cases hmeaning
  rcases hcases with ⟨-, -, rfl⟩ | ⟨hidle, enabled, value, s₁, s₂, henabled, hvalue, rfl, -⟩
  · exact absurd hquiet (Nat.succ_ne_self _)
  have hinactive := hflag hidle
  obtain ⟨lit, s₂, hcond, hresult⟩ := bind_ok_iff.mp henabled
  obtain ⟨hlit, rfl⟩ := returnKnown_ok_iff.mp hcond
  obtain ⟨rfl, rfl⟩ := pure_ok_iff.mp hresult
  -- while the variable is being read, it has no meaning at the level of its callees
  have hnone₁ := hnone.mark hunread
  have hview : View D s (u.updateEntry inst.var inst.indices fun e => { e with readActive := true })
      (u.updateEntry inst.var inst.indices fun e => { e with readActive := true }) :=
    ⟨hsees.setReadActive inst true, fun _ _ => rfl⟩
  have heval := (hc _ hnone₁).exprEvaluate (D.condition inst.var) inst lit s
    (returnKnown_ok_iff.mpr ⟨hlit, rfl⟩)
  obtain ⟨u₂, hrun₂, hu₂⟩ := heval.2 _ hview
  obtain ⟨u₃, hrun₃, hu₃⟩ := varSlotGetValue_of_meaning hc
    ((Sees.refl D s).setReadActive inst true) (by simp) hvalue hhas hnone₁ hu₂
  have henabled₂ : varInstanceIsEnabled D c inst
      (u.updateEntry inst.var inst.indices fun e => { e with readActive := true }) =
      .ok ((exprGetBooleanValue lit).getD false, u₂) :=
    bind_ok_iff.mpr ⟨lit, u₂, hrun₂, rfl⟩
  exact ⟨_, readCheckedValue_of_inactive (by rw [hsees.has_eq]; exact hhas) hinactive henabled₂
    (by rw [hu₂.1.has_eq]; exact hhas) hrun₃, hu₃.unmark hinactive⟩

theorem varInstanceReadValue_of_meaning {u : Slots}
    (hmeaning : varInstanceReadValue D (meaning D s n).callees inst s = .ok (r, s'))
    (hquiet : s'.cycles = s.cycles) (hunread : (meaning D s n).read inst = none)
    (hnone : NoneActive D s n u) (hsees : Sees D s u)
    (hflag : (s.entry inst.var inst.indices).readActive = false →
      (u.entry inst.var inst.indices).readActive = false) :
    ∃ u', varInstanceReadValue D c inst u = .ok (r, u') ∧ View D s u u' := by
  obtain ⟨var, s₁, hvar, hcases⟩ := varInstanceReadValue_cases hmeaning
  have hderef : D.deref inst.var u = .ok (var, u) := Defs.deref_ok_iff.mpr ⟨hvar, rfl⟩
  have hbounds : ∀ inside, indicesInBounds D (meaning D s n).callees var inst s = .ok (inside, s₁) →
      s₁ = s ∧ ∃ u₁, indicesInBounds D c var inst u = .ok (inside, u₁) ∧ View D s u u₁ := by
    intro inside hinside
    obtain ⟨hsame, hrun⟩ := indicesInBounds_realizes (hc u hnone) var inst inside s₁ hinside
    exact ⟨hsame, hrun u ⟨hsees, fun _ _ => rfl⟩⟩
  unfold varInstanceReadValue
  rw [bind_of_ok hderef]
  rcases hcases with ⟨hinside, rfl, -⟩ | ⟨hinside, hread⟩
  · obtain ⟨-, u₁, hrun₁, hu₁⟩ := hbounds false hinside
    refine ⟨u₁, ?_, hu₁⟩
    rw [bind_of_ok hrun₁]
    rfl
  · obtain ⟨rfl, u₁, hrun₁, hu₁⟩ := hbounds true hinside
    have hnone₁ : NoneActive D s₁ n u₁ := by
      intro inst' hidle hactive
      rw [hu₁.2] at hactive
      exact hnone inst' hidle hactive
    obtain ⟨u₂, hrun₂, hu₂⟩ := readCheckedValue_of_meaning hc hread hquiet hunread hnone₁
      hu₁.1 fun hidle => (hu₁.2 _ _).trans (hflag hidle)
    refine ⟨u₂, ?_, hu₂.1, fun v p => (hu₂.2 v p).trans (hu₁.2 v p)⟩
    rw [bind_of_ok hrun₁]
    exact hrun₂

end reading

theorem NoneActive.of_succ {D : Defs} {s u : Slots} {n : Nat}
    (h : NoneActive D s (n + 1) u) : NoneActive D s n u := by
  intro inst hidle hactive
  have hnone := h inst hidle hactive
  cases hread : (meaning D s n).read inst with
  | none => rfl
  | some r =>
      rw [(meaning_le s (Nat.le_succ n)).read inst r hread] at hnone
      contradiction

section knot

variable {D : Defs} {s : Slots}

theorem varInstanceDoGetValue_of_meaning {n : Nat} {c : Callees} {u : Slots}
    (hc : ∀ u, NoneActive D s n u → c.Realize s (View D s u) (meaning D s n).callees)
    (h : (meaning D s (n + 1)).read inst = some r) (hunread : (meaning D s n).read inst = none)
    (hnone : NoneActive D s (n + 1) u) (hsees : Sees D s u) :
    ∃ u', varInstanceDoGetValue D c inst u = .ok (r, u') ∧ View D s u u' := by
  have hflag : (s.entry inst.var inst.indices).readActive = false →
      (u.entry inst.var inst.indices).readActive = false := by
    intro hidle
    cases hactive : (u.entry inst.var inst.indices).readActive with
    | false => rfl
    | true =>
        rw [hnone inst hidle hactive] at h
        contradiction
  obtain ⟨s', hrun, hquiet⟩ := quietResult_eq_some_iff.mp h
  obtain ⟨var, hvar, hcases⟩ := varInstanceDoGetValue_cases hrun
  rcases hcases with ⟨rfl, -, hmissing⟩ | ⟨r', hlen, hhas, hread, rfl⟩
  · refine ⟨u, varInstanceDoGetValue_of_missing hvar ?_, hsees, fun _ _ => rfl⟩
    rw [hsees.getSlot_eq]
    exact hmissing
  · obtain ⟨u', hrun, hu'⟩ := varInstanceReadValue_of_meaning hc hread hquiet hunread
      hnone.of_succ hsees hflag
    exact ⟨u', varInstanceDoGetValue_of_slot hvar hlen (by rw [hsees.has_eq]; exact hhas) hrun,
      hu'⟩

/-- The program realizes the meaning of expressions and variables: what has a meaning at a
level is evaluated to it with a call stack of that depth, from every store that differs by
caches of meanings and in which no variable with a meaning is being read. -/
theorem calls_realize (n : Nat) : ∀ u, NoneActive D s n u →
    (calls D n).Realize s (View D s u) (meaning D s n).callees := by
  induction n with
  | zero =>
      intro u _
      exact ⟨fun _ _ _ _ h => (throw_ok_iff.mp h).elim,
        fun _ _ _ h => (throw_ok_iff.mp h).elim⟩
  | succ n ih =>
      intro u₀ hnone
      refine ⟨fun e context lit s' h => ?_, fun inst r s' h => ?_⟩
      · obtain ⟨hlit, rfl⟩ := returnKnown_ok_iff.mp h
        obtain ⟨s', hrun⟩ := result_eq_some_iff.mp hlit
        refine ⟨rfl, ?_⟩
        exact (exprEvaluate_realizes (ih u₀ hnone.of_succ) (fun _ hu => hu.1)
          (fun _ _ _ _ h => (throw_ok_iff.mp h).elim) e context lit s' hrun).2
      · obtain ⟨hread, rfl⟩ := returnKnown_ok_iff.mp h
        refine ⟨rfl, fun u hu => ?_⟩
        cases hearlier : (meaning D s n).read inst with
        | some r' =>
            -- the value is known one level earlier, where the call stack suffices
            have heq := (meaning_le s (Nat.le_succ n)).read inst r' hearlier
            obtain rfl : r = r' := Option.some.inj (hread.symm.trans heq)
            have hknown := (ih u₀ hnone.of_succ).tryGetValue inst r s
              (returnKnown_ok_iff.mpr ⟨hearlier, rfl⟩)
            obtain ⟨u', hrun, hu'⟩ := hknown.2 u hu
            exact ⟨u', (calls_below (Nat.le_succ n)).tryGetValue inst hrun, hu'⟩
        | none =>
            have hnone' : NoneActive D s (n + 1) u := by
              intro inst' hidle hactive
              rw [hu.2] at hactive
              exact hnone inst' hidle hactive
            obtain ⟨u', hrun, hu'⟩ :=
              varInstanceDoGetValue_of_meaning ih hread hearlier hnone' hu.1
            exact ⟨u', hrun, hu'.1, fun v p => (hu'.2 v p).trans (hu.2 v p)⟩

end knot

/-! ### What has a meaning

Conversely, a run that clears no array and comes upon no dependency cycle returns nothing but meanings.  It
may start from a store where more slots are being read, since it reads none of them.
-/

/-- The store `u` differs from `s` by caches of meanings and by slots that are being read in `u` only. -/
structure Covers (D : Defs) (s u : Slots) : Prop where
  sees : Sees D s u
  active : ∀ v p, (s.entry v p).readActive = true → (u.entry v p).readActive = true

/-- The counters of cleared arrays and of reported cycles do not go back. -/
structure Counted (u u' : Slots) : Prop where
  clears : u.clears ≤ u'.clears
  cycles : u.cycles ≤ u'.cycles

theorem Counted.refl (u : Slots) : Counted u u := ⟨Nat.le_refl _, Nat.le_refl _⟩

theorem Counted.trans {u u' u'' : Slots} (h : Counted u u') (h' : Counted u' u'') : Counted u u'' :=
  ⟨h.clears.trans h'.clears, h.cycles.trans h'.cycles⟩

theorem Moves.counted {D : Defs} {A : SetRequest → Prop} {u u' : Slots} (h : Moves D A u u') : Counted u u' :=
  ⟨Moves.clears_le h, Moves.cycles_le h⟩

/-- The computation `x` counts upwards.  Where it counts nothing, it returns what the computations `y` return
in `s` from some level on. -/
def Means (D : Defs) (s : Slots) {α : Type} (x : SlotExec α) (y : Nat → SlotExec α) : Prop :=
  ∀ u a u', x u = .ok (a, u') → Counted u u' ∧
    (Covers D s u → Counted u' u → Covers D s u' ∧ ∃ n₀, ∀ n, n₀ ≤ n → y n s = .ok (a, s))

namespace Means

variable {D : Defs} {s : Slots} {α β : Type}

theorem pure (a : α) : Means D s (pure a) fun _ => pure a := by
  intro u b u' h
  obtain ⟨rfl, rfl⟩ := pure_ok_iff.mp h
  exact ⟨Counted.refl u, fun hu _ => ⟨hu, 0, fun _ _ => rfl⟩⟩

theorem throw (e : Fault) {y : Nat → SlotExec α} : Means D s (throw e) y :=
  fun _ _ _ h => (throw_ok_iff.mp h).elim

theorem bind {x : SlotExec α} {y : Nat → SlotExec α} {f : α → SlotExec β} {g : Nat → α → SlotExec β}
    (hx : Means D s x y) (hf : ∀ a, Means D s (f a) fun n => g n a) :
    Means D s (x >>= f) fun n => y n >>= g n := by
  intro u b u'' h
  obtain ⟨a, u', hrun, hrest⟩ := bind_ok_iff.mp h
  obtain ⟨hcounted, hfirst⟩ := hx u a u' hrun
  obtain ⟨hcounted', hsecond⟩ := hf a u' b u'' hrest
  refine ⟨hcounted.trans hcounted', fun hu hquiet => ?_⟩
  -- both parts count nothing
  obtain ⟨hu', n₁, hy⟩ := hfirst hu (hcounted'.trans hquiet)
  obtain ⟨hu'', n₂, hg⟩ := hsecond hu' (hquiet.trans hcounted)
  refine ⟨hu'', max n₁ n₂, fun n hn => ?_⟩
  show (y n >>= g n) s = _
  rw [bind_of_ok (hy n (by omega))]
  exact hg n (by omega)

theorem congruence (D : Defs) (s : Slots) : Congruence fun _ => Means D s where
  ofPure a := pure a
  ofNull _ := throw .nullPointer
  ofBind hx hf := bind hx hf

end Means

/-- What the callees read and evaluate has a meaning. -/
structure Callees.Mean (D : Defs) (s : Slots) (c : Callees) : Prop where
  exprEvaluate : ∀ e context, Means D s (c.exprEvaluate e context) fun n =>
    (meaning D s n).callees.exprEvaluate e context
  tryGetValue : ∀ inst, Means D s (c.tryGetValue inst) fun n => (meaning D s n).callees.tryGetValue inst

theorem DefaultKnown.mono {D : Defs} {s : Slots} {n : Nat}
    (h : DefaultKnown D s n inst text) (hle : n ≤ m) : DefaultKnown D s m inst text := by
  rcases h with hdef | ⟨e, lit, hdef, hlit, htext⟩
  · exact Or.inl hdef
  · exact Or.inr ⟨e, lit, hdef, (meaning_le s hle).expr e inst lit hlit, htext⟩

theorem DefaultKnown.slotDefaultValue {D : Defs} {s : Slots} {n : Nat}
    (h : DefaultKnown D s n inst text) (hhas : w.has inst.var inst.indices = true)
    (hw : (w.entry inst.var inst.indices).defValue = none) :
    ∃ w', slotDefaultValue D (meaning D s n).callees inst w = .ok (text, w') ∧ w'.cycles = w.cycles := by
  have hget : ∀ w : Slots, (get : SlotExec Slots) w = .ok (w, w) := fun _ => rfl
  have hcache : ∃ w', cacheDefault D (meaning D s n).callees inst w = .ok ((), w') ∧
      (w'.entry inst.var inst.indices).defValue = text ∧ w'.cycles = w.cycles := by
    unfold cacheDefault
    rcases h with ⟨hdef, rfl⟩ | ⟨e, lit, hdef, hlit, rfl⟩
    · rw [hdef]
      exact ⟨w, rfl, hw, rfl⟩
    · have heval : (meaning D s n).callees.exprEvaluate e inst w = .ok (lit, w) :=
        returnKnown_ok_iff.mpr ⟨hlit, rfl⟩
      have hslot : derefSlot inst.var inst.indices w = .ok ((), w) := derefSlot_ok_iff.mpr ⟨hhas, rfl⟩
      rw [hdef]
      dsimp only
      rw [bind_of_ok heval, bind_of_ok hslot]
      cases exprGetStringValue lit with
      | none => exact ⟨w, rfl, hw, rfl⟩
      | some text => exact ⟨_, rfl, by simp, rfl⟩
  obtain ⟨w', hrun, rfl, hcycles⟩ := hcache
  refine ⟨w', ?_, hcycles⟩
  unfold Mkfli4l.slotDefaultValue
  rw [bind_of_ok (hget w), hw]
  dsimp only
  rw [bind_of_ok hrun, bind_of_ok (hget w')]
  rfl

section mean

variable {D : Defs} {s : Slots} {c : Callees} (hc : c.Mean D s)

include hc

theorem defaultKnown_of_slotDefaultValue {u u' : Slots}
    (hrun : slotDefaultValue D c inst u = .ok (text, u')) (hu : Covers D s u) (hquiet : Counted u' u)
    (hold : (s.entry inst.var inst.indices).defValue = none) :
    Covers D s u' ∧ ∃ n, DefaultKnown D s n inst text := by
  obtain ⟨t, u₁, hget, hrun⟩ := bind_ok_iff.mp hrun
  obtain ⟨rfl, rfl⟩ := get_ok_iff.mp hget
  cases hnew : (u.entry inst.var inst.indices).defValue with
  | some cached =>
      rw [hnew] at hrun
      obtain ⟨rfl, rfl⟩ := pure_ok_iff.mp hrun
      refine ⟨hu, ?_⟩
      rcases hu.sees.defValue inst.var inst.indices with heq | ⟨-, cached', hcached, hmeaning⟩
      · rw [hnew, hold] at heq
        contradiction
      · obtain ⟨e, n, lit, hdef, hlit, htext⟩ := hmeaning
        obtain rfl := Option.some.inj (hnew.symm.trans hcached)
        exact ⟨n, Or.inr ⟨e, lit, hdef, hlit, htext.symm⟩⟩
  | none =>
      rw [hnew] at hrun
      obtain ⟨_, u₁, hcache, hrun⟩ := bind_ok_iff.mp hrun
      obtain ⟨t, u₂, hget', hrun⟩ := bind_ok_iff.mp hrun
      obtain ⟨rfl, rfl⟩ := get_ok_iff.mp hget'
      obtain ⟨rfl, rfl⟩ := pure_ok_iff.mp hrun
      rcases cacheDefault_cases hcache with ⟨hdef, rfl⟩ | ⟨e, lit, u₂, hdef, heval, hhas, hcases⟩
      · exact ⟨hu, 0, Or.inl ⟨hdef, hnew⟩⟩
      · have hcounters : Counted u₂ u := by
          rcases hcases with ⟨-, rfl⟩ | ⟨text, -, rfl⟩
          · exact hquiet
          · exact ⟨hquiet.clears, hquiet.cycles⟩
        obtain ⟨hu₂, n, hlevel⟩ := (hc.exprEvaluate e inst u lit u₂ heval).2 hu hcounters
        have hlit := (returnKnown_ok_iff.mp (hlevel n le_rfl)).1
        have hknown : DefaultKnown D s n inst (exprGetStringValue lit) := Or.inr ⟨e, lit, hdef, hlit, rfl⟩
        rcases hcases with ⟨htext, rfl⟩ | ⟨text, htext, rfl⟩
        · -- nothing is cached, so nothing has been cached in the meantime either
          refine ⟨hu₂, n, ?_⟩
          rcases hu₂.sees.defValue inst.var inst.indices with heq | ⟨-, cached, -, hcached⟩
          · rw [heq, hold, ← htext]
            exact hknown
          · have heq := hknown.eq_of_defaultMeaning hcached
            rw [htext] at heq
            contradiction
        · have hkeeps := hu₂.sees.updateEntry (v := inst.var) (p := inst.indices)
            (f := fun e => { e with defValue := some text }) rfl rfl rfl
            (Or.inr ⟨hold, text, rfl, e, n, lit, hdef, hlit, htext⟩)
          refine ⟨⟨hkeeps, fun v p hactive => ?_⟩, n, ?_⟩
          · rw [Slots.updateEntry_entry]
            split
            · next hhere =>
                obtain ⟨rfl, rfl⟩ := hhere
                exact hu₂.active _ _ hactive
            · exact hu₂.active v p hactive
          · rw [← htext]
            simpa using hknown

theorem varSlotGetValue_means {u u' : Slots}
    (hrun : varSlotGetValue D c inst u = .ok (value, u')) (hu : Covers D s u) (hquiet : Counted u' u)
    (hw : Sees D s w) (hhas : s.has inst.var inst.indices = true)
    (hdef : (w.entry inst.var inst.indices).defValue = (s.entry inst.var inst.indices).defValue) :
    Covers D s u' ∧ ∃ n₀, ∀ n, n₀ ≤ n → ∃ w',
      varSlotGetValue D (meaning D s n).callees inst w = .ok (value, w') ∧ w'.cycles = w.cycles := by
  have hget : (get : SlotExec Slots) w = .ok (w, w) := rfl
  obtain ⟨t, u₁, hget', hrun⟩ := bind_ok_iff.mp hrun
  obtain ⟨rfl, rfl⟩ := get_ok_iff.mp hget'
  unfold varSlotGetValue
  simp only [bind_of_ok hget]
  rw [hu.sees.value, hu.sees.extra, hu.sees.priority] at hrun
  rw [hw.value, hw.extra, hw.priority]
  cases hvalue : (s.entry inst.var inst.indices).value with
  | some text =>
      rw [hvalue] at hrun
      obtain ⟨rfl, rfl⟩ := pure_ok_iff.mp hrun
      exact ⟨hu, 0, fun n _ => ⟨w, rfl, rfl⟩⟩
  | none =>
      rw [hvalue] at hrun
      obtain ⟨text, u₂, hdefault, hrun⟩ := bind_ok_iff.mp hrun
      obtain ⟨rfl, rfl⟩ := pure_ok_iff.mp hrun
      have hlevels : Covers D s u₂ ∧ ∃ n₀, ∀ n, n₀ ≤ n → ∃ w',
          slotDefaultValue D (meaning D s n).callees inst w = .ok (text, w') ∧ w'.cycles = w.cycles := by
        cases hold : (s.entry inst.var inst.indices).defValue with
        | none =>
            obtain ⟨hu₂, n₀, hknown⟩ := defaultKnown_of_slotDefaultValue hc hdefault hu hquiet hold
            refine ⟨hu₂, n₀, fun n hn => ?_⟩
            exact (hknown.mono hn).slotDefaultValue (by rw [hw.has_eq]; exact hhas) (hdef.trans hold)
        | some old =>
            obtain ⟨t, u₃, hget', hdefault⟩ := bind_ok_iff.mp hdefault
            obtain ⟨rfl, rfl⟩ := get_ok_iff.mp hget'
            have hsame : (u.entry inst.var inst.indices).defValue = some old := by
              rcases hu.sees.defValue inst.var inst.indices with heq | ⟨hno, -⟩
              · exact heq.trans hold
              · rw [hold] at hno
                contradiction
            rw [hsame] at hdefault
            obtain ⟨rfl, rfl⟩ := pure_ok_iff.mp hdefault
            refine ⟨hu, 0, fun n _ => ⟨w, ?_, rfl⟩⟩
            unfold slotDefaultValue
            rw [bind_of_ok hget, hdef, hold]
            rfl
      obtain ⟨hu₂, n₀, hlevels⟩ := hlevels
      refine ⟨hu₂, n₀, fun n hn => ?_⟩
      obtain ⟨w', hrun', hcycles⟩ := hlevels n hn
      refine ⟨w', ?_, hcycles⟩
      dsimp only
      rw [bind_of_ok hrun']
      rfl

theorem readCheckedValue_means (hsound : c.Sound D) {u u' : Slots}
    (hrun : readCheckedValue D c var inst u = .ok (r, u')) (hu : Covers D s u) (hquiet : Counted u' u) :
    Covers D s u' ∧ ∃ n₀, ∀ n, n₀ ≤ n → ∃ s',
      readCheckedValue D (meaning D s n).callees var inst s = .ok (r, s') ∧ s'.cycles = s.cycles := by
  obtain ⟨hhas, hcases⟩ := readCheckedValue_cases hrun
  rcases hcases with ⟨-, -, rfl⟩ | ⟨hinactive, enabled, value, u₁, u₂, henabled, hvalue, rfl, rfl⟩
  · exact absurd hquiet.cycles (Nat.not_succ_le_self _)
  have hhas' : s.has inst.var inst.indices = true := by
    rw [← hu.sees.has_eq]
    exact hhas
  have hidle : (s.entry inst.var inst.indices).readActive = false := by
    cases hactive : (s.entry inst.var inst.indices).readActive with
    | false => rfl
    | true =>
        rw [hu.active _ _ hactive] at hinactive
        contradiction
  have hmark : Covers D s (u.updateEntry inst.var inst.indices fun e => { e with readActive := true }) := by
    refine ⟨hu.sees.setReadActive inst true, fun v p hactive => ?_⟩
    rw [Slots.updateEntry_entry]
    split
    · rfl
    · exact hu.active v p hactive
  obtain ⟨lit, u₃, hcond, hresult⟩ := bind_ok_iff.mp henabled
  obtain ⟨rfl, rfl⟩ := pure_ok_iff.mp hresult
  obtain ⟨hcounted, hfirst⟩ := hc.exprEvaluate _ _ _ _ _ hcond
  have hcounted' := Moves.counted (varSlotGetValue_moves hsound inst hvalue)
  have hquiet' : Counted u₂ (u.updateEntry inst.var inst.indices fun e => { e with readActive := true }) :=
    ⟨hquiet.clears, hquiet.cycles⟩
  obtain ⟨hu₃, n₁, hcondition⟩ := hfirst hmark (hcounted'.trans hquiet')
  obtain ⟨hu₂, n₂, hcontent⟩ := varSlotGetValue_means hc hvalue hu₃ (hquiet'.trans hcounted)
    ((Sees.refl D s).setReadActive inst true) hhas' (by simp)
  refine ⟨⟨hu₂.sees.setReadActive inst false, fun v p hactive => ?_⟩, max n₁ n₂, fun n hn => ?_⟩
  · rw [Slots.updateEntry_entry]
    split
    · next hhere =>
        obtain ⟨rfl, rfl⟩ := hhere
        rw [hidle] at hactive
        contradiction
    · exact hu₂.active v p hactive
  · obtain ⟨w', hrun', hcycles⟩ := hcontent n (by omega)
    have hlit := (returnKnown_ok_iff.mp (hcondition n (by omega))).1
    have henabled' : varInstanceIsEnabled D (meaning D s n).callees inst
        (s.updateEntry inst.var inst.indices fun e => { e with readActive := true }) =
        .ok ((exprGetBooleanValue lit).getD false,
          s.updateEntry inst.var inst.indices fun e => { e with readActive := true }) :=
      bind_ok_iff.mpr ⟨lit, _, returnKnown_ok_iff.mpr ⟨hlit, rfl⟩, rfl⟩
    refine ⟨_, readCheckedValue_of_inactive hhas' hidle henabled' ?_ hrun', hcycles⟩
    rw [((Sees.refl D s).setReadActive inst true).has_eq]
    exact hhas'

theorem varInstanceReadValue_means (hsound : c.Sound D)
    {u u' : Slots} (hrun : varInstanceReadValue D c inst u = .ok (r, u')) (hu : Covers D s u)
    (hquiet : Counted u' u) :
    Covers D s u' ∧ ∃ n₀, ∀ n, n₀ ≤ n → ∃ s',
      varInstanceReadValue D (meaning D s n).callees inst s = .ok (r, s') ∧ s'.cycles = s.cycles := by
  obtain ⟨var, u₁, hvar, hcases⟩ := varInstanceReadValue_cases hrun
  have hderef : D.deref inst.var s = .ok (var, s) := Defs.deref_ok_iff.mpr ⟨hvar, rfl⟩
  have hmeans : Means D s (indicesInBounds D c var inst) fun n =>
      indicesInBounds D (meaning D s n).callees var inst :=
    (Means.congruence D s).ofIndicesInBounds (d := fun n => (meaning D s n).callees)
      (fun _ => Means.throw _) hc.tryGetValue var inst
  unfold varInstanceReadValue
  rcases hcases with ⟨hinside, rfl, rfl⟩ | ⟨hinside, hchecked⟩
  · obtain ⟨hu', n₀, hlevels⟩ := (hmeans _ _ _ hinside).2 hu hquiet
    refine ⟨hu', n₀, fun n hn => ⟨s, ?_, rfl⟩⟩
    rw [bind_of_ok hderef, bind_of_ok (hlevels n hn)]
    rfl
  · obtain ⟨hcounted, hfirst⟩ := hmeans _ _ _ hinside
    have hcounted' := Moves.counted (readCheckedValue_moves hsound var inst hchecked)
    obtain ⟨hu₁, n₁, hbounds⟩ := hfirst hu (hcounted'.trans hquiet)
    obtain ⟨hu', n₂, hlevels⟩ := readCheckedValue_means hc hsound hchecked hu₁ (hquiet.trans hcounted)
    refine ⟨hu', max n₁ n₂, fun n hn => ?_⟩
    obtain ⟨s', hread', hcycles⟩ := hlevels n (by omega)
    refine ⟨s', ?_, hcycles⟩
    rw [bind_of_ok hderef, bind_of_ok (hbounds n (by omega))]
    exact hread'

theorem varInstanceDoGetValue_means (hsound : c.Sound D)
    {u u' : Slots} (hrun : varInstanceDoGetValue D c inst u = .ok (r, u')) (hu : Covers D s u)
    (hquiet : Counted u' u) :
    Covers D s u' ∧ ∃ n₀, ∀ n, n₀ ≤ n → (meaning D s n).read inst = some r := by
  suffices hlevels : Covers D s u' ∧ ∃ n₀, ∀ n, n₀ ≤ n → ∃ s',
      varInstanceDoGetValue D (meaning D s n).callees inst s = .ok (r, s') ∧ s'.cycles = s.cycles by
    obtain ⟨hu', n₀, hlevels⟩ := hlevels
    refine ⟨hu', n₀ + 1, fun n hn => ?_⟩
    obtain ⟨n', rfl⟩ : ∃ n', n = n' + 1 := ⟨n - 1, by omega⟩
    exact quietResult_eq_some_iff.mpr (hlevels n' (by omega))
  obtain ⟨var, hvar, hcases⟩ := varInstanceDoGetValue_cases hrun
  rcases hcases with ⟨rfl, rfl, hmissing⟩ | ⟨r', hlen, hhas, hread, rfl⟩
  · refine ⟨hu, 0, fun n _ => ⟨s, varInstanceDoGetValue_of_missing hvar ?_, rfl⟩⟩
    rw [← hu.sees.getSlot_eq]
    exact hmissing
  · have hslot : s.has inst.var inst.indices = true := by
      rw [← hu.sees.has_eq]
      exact hhas
    obtain ⟨hu', n₀, hlevels⟩ := varInstanceReadValue_means hc hsound hread hu hquiet
    refine ⟨hu', n₀, fun n hn => ?_⟩
    obtain ⟨s', hread', hcycles⟩ := hlevels n hn
    exact ⟨s', varInstanceDoGetValue_of_slot hvar hlen hslot hread', hcycles⟩

theorem exprEvaluate_means (hsound : c.Sound D) (e : Expr) (context : VarInstance) :
    Means D s (exprEvaluate D c e context) fun n => exprEvaluate D (meaning D s n).callees e context := by
  refine (Means.congruence D s).ofExprEvaluate (d := fun n => (meaning D s n).callees)
    (m := fun _ => D.matchArray) hc.tryGetValue (fun _ => hc.exprEvaluate _) e context (Or.inr ?_)
  intro val regex u lit u' hrun
  refine ⟨Moves.counted (matchLiterals_moves hsound val regex hrun), fun hu hquiet => ?_⟩
  obtain ⟨rfl, hagain⟩ := matchLiterals_of_quiet hsound hrun hquiet.clears
  refine ⟨hu, 0, fun n _ => hagain _ s hu.sees.numSlots.symm fun v p => (hu.sees.priority v p).symm⟩

end mean

theorem calls_means (D : Defs) (s : Slots) (d : Nat) : (calls D d).Mean D s := by
  induction d with
  | zero => exact ⟨fun _ _ => Means.throw _, fun _ => Means.throw _⟩
  | succ d ih =>
      refine ⟨fun e context u lit u' hrun => ?_, fun inst u r u' hrun => ?_⟩
      · obtain ⟨hcounted, hlevels⟩ := exprEvaluate_means ih (calls_sound D d) e context u lit u' hrun
        refine ⟨hcounted, fun hu hquiet => ?_⟩
        obtain ⟨hu', n₀, hlevels⟩ := hlevels hu hquiet
        refine ⟨hu', n₀ + 1, fun n hn => ?_⟩
        obtain ⟨n', rfl⟩ : ∃ n', n = n' + 1 := ⟨n - 1, by omega⟩
        exact returnKnown_ok_iff.mpr ⟨result_eq_some_iff.mpr ⟨s, hlevels n' (by omega)⟩, rfl⟩
      · refine ⟨Moves.counted ((calls_sound D (d + 1)).tryGetValue inst hrun), fun hu hquiet => ?_⟩
        obtain ⟨hu', n₀, hlevels⟩ := varInstanceDoGetValue_means ih (calls_sound D d) hrun hu hquiet
        exact ⟨hu', n₀, fun n hn => returnKnown_ok_iff.mpr ⟨hlevels n hn, rfl⟩⟩

end Mkfli4l
