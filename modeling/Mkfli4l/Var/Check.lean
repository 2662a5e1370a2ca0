import Mkfli4l.Var.Iterator
import Mkfli4l.Var.Meaning

/-!
# The final check of all values

`var_check_values` (`var/slot_check.c`) walks the slots of all variables of a scope and checks
what it reads there.  Whoever calls it expects that afterwards every mandatory variable can be
read (`CheckSound`).

The check only sees what has a slot.  An element of an array that lies inside the bounds and
has none is never looked at, although reading it fails; bounds come from other variables and
need not have led to slots.  That is the only gap as long as the check empties no array and comes
upon no dependency cycle: then everything it reads has a meaning (`Var/Meaning.lean`), which is
also what is read afterwards, and the check is sound if and only if every enabled mandatory
element inside the bounds has a slot.
-/

namespace Mkfli4l

open Lib Exec

def varCheckValue (types : TypeSystem) (var : Var) (value : VarValue) : Bool :=
  match value.value with
  | none => decide (value.kind = .disabled) || var.props.optional
  | some text => types.vartypeMatch var.type text

/-- The loop of `var_check_variable`. -/
def checkLoop (D : Defs) (c : Callees) (v : VarId) (var : Var) :
    Nat → ValueIterator → Bool → SlotExec Bool
  | 0, _, _ => throw .roundsExhausted
  | rounds + 1, it, result => do
      let (more, it) ← varValueIteratorNext D c v var (rounds + 1) it
      if more then
        match it.last with
        | none => throw .nullPointer
        | some value => checkLoop D c v var rounds it (result && varCheckValue D.types var value)
      else pure result

/-- `var_check_variable`: the result is FALSE if one of the values is not accepted. -/
def varCheckVariable (D : Defs) (c : Callees) (rounds : Nat) (v : VarId) : SlotExec Bool := do
  let var ← D.deref v
  let s ← get
  checkLoop D c v var rounds (varValueIteratorCreate s var ⟨v, []⟩ true) true

/-- `var_check_values`, for the variables of a scope in the order in which they are visited. -/
def varCheckValues (D : Defs) (c : Callees) (rounds : Nat) : List VarId → SlotExec Bool
  | [] => pure true
  | v :: scope => do
      let result ← varCheckVariable D c rounds v
      let results ← varCheckValues D c rounds scope
      pure (result && results)

/-! ### What the check has seen -/

variable {rounds : Nat} {scope : List VarId} {u' s' : Slots} {inst : VarInstance} {r : Option VarValue}

section steps

variable {D : Defs} {c : Callees} {R : Slots → Slots → Prop} (hrefl : ∀ u, R u u)
  (htrans : ∀ u u' u'', R u u' → R u' u'' → R u u'')

include hrefl htrans

theorem checkLoop_steps {v : VarId} {var : Var}
    (hsteps : ∀ p, Exec.Steps R (varInstanceReadValue D c ⟨v, p⟩)) {it : ValueIterator}
    {result : Bool} : Exec.Steps R (checkLoop D c v var rounds it result) := by
  induction rounds generalizing it result with
  | zero => exact Exec.Steps.throw _
  | succ rounds ih =>
      refine Exec.Steps.bind htrans ?_ fun next => ?_
      · unfold varValueIteratorNext
        split
        · exact Exec.Steps.pure hrefl _
        · exact seekValue_steps hrefl htrans hsteps
      · dsimp only
        split
        · split
          · exact Exec.Steps.throw _
          · exact ih
        · exact Exec.Steps.pure hrefl _

theorem varCheckVariable_steps {v : VarId} (hsteps : ∀ p, Exec.Steps R (varInstanceReadValue D c ⟨v, p⟩))
    : Exec.Steps R (varCheckVariable D c rounds v) := by
  intro u r u' hrun
  obtain ⟨var, u₁, hderef, hrest⟩ := bind_ok_iff.mp hrun
  obtain ⟨-, rfl⟩ := Defs.deref_ok_iff.mp hderef
  obtain ⟨t, u₁, hget, hrest⟩ := bind_ok_iff.mp hrest
  obtain ⟨-, rfl⟩ := get_ok_iff.mp hget
  exact checkLoop_steps hrefl htrans hsteps hrest

theorem varCheckValues_steps (hsteps : ∀ inst, Exec.Steps R (varInstanceReadValue D c inst))
    : Exec.Steps R (varCheckValues D c rounds scope) := by
  induction scope with
  | nil => exact Exec.Steps.pure hrefl _
  | cons v scope ih =>
      refine Exec.Steps.bind htrans ?_ fun _ => Exec.Steps.bind htrans ih fun _ => Exec.Steps.pure hrefl _
      exact varCheckVariable_steps hrefl htrans fun p => hsteps _

end steps

section visits

variable {D : Defs} {c : Callees} {s : Slots} {v : VarId} {var : Var}
  {I K : Slots → Prop} (hI : ∀ u, I u → u.numSlots = s.numSlots)
  (hback : ∀ p, Exec.Steps (fun u u' => K u' → K u) (varInstanceReadValue D c ⟨v, p⟩))
  (hread : ∀ p u r u', s.has v p = true → p.length = var.level → I u → K u' →
    varInstanceReadValue D c ⟨v, p⟩ u = .ok (r, u') → I u')

/-- The instance at `p` has been read, and its value, if there is one, has been accepted. -/
def Accepted (I K : Slots → Prop) (D : Defs) (c : Callees) (v : VarId) (var : Var)
    (p : List UInt32) : Prop :=
  ∃ r, ReadBetween I K D c v p r ∧ ∀ value, r = some value → varCheckValue D.types var value = true

include hI hback hread

/-- A check that ends with TRUE has accepted everything that it had still to visit. -/
theorem checkLoop_accepts {it : ValueIterator} {iter : List SlotIterator}
    {base : List UInt32} {result : Bool} {u : Slots} (hit : it.Valid s v var base iter)
    (hall : it.all = true) (hu : I u) (hk : K u')
    (hrun : checkLoop D c v var rounds it result u = .ok (true, u')) :
    I u' ∧ result = true ∧
      ∀ p, s.has v p = true → p.length = var.level → Pending var iter p →
        Accepted I K D c v var p := by
  induction rounds generalizing it iter result u with
  | zero => exact (throw_ok_iff.mp hrun).elim
  | succ rounds ih =>
      rw [checkLoop] at hrun
      obtain ⟨⟨more, it₁⟩, u₁, hnext, hrest⟩ := bind_ok_iff.mp hrun
      rw [varValueIteratorNext, hit.iter_eq] at hnext
      -- `K` goes back from the end of the loop to the step
      have hk₁ : K u₁ := by
        cases more with
        | false =>
            obtain ⟨-, rfl⟩ := pure_ok_iff.mp hrest
            exact hk
        | true =>
            dsimp only at hrest
            rw [if_pos rfl] at hrest
            cases hlast : it₁.last with
            | none =>
                rw [hlast] at hrest
                exact (throw_ok_iff.mp hrest).elim
            | some value =>
                rw [hlast] at hrest
                exact checkLoop_steps (R := fun u u' => K u' → K u) (fun _ => id)
                  (fun _ _ _ h h' => h ∘ h') hback hrest hk
      obtain ⟨hu₁, hall₁, hsome, iter₁, hit₁, hvisit⟩ := seekValue_visits hI hback hread hit hu hk₁ hnext
      -- the check visits all slots, so only those without a value are skipped
      have hskipped : ∀ {p}, (∃ r, ReadBetween I K D c v p r ∧ ValueIterator.skips it.all r = true) →
          Accepted I K D c v var p := by
        rintro p ⟨r, hr, hskip⟩
        refine ⟨r, hr, ?_⟩
        rintro value rfl
        rw [hall] at hskip
        contradiction
      cases more with
      | false =>
          obtain ⟨rfl, rfl⟩ := pure_ok_iff.mp hrest
          refine ⟨hu₁, rfl, fun p hhas hlen hp => ?_⟩
          rcases hvisit p hhas hlen hp with hskip | ⟨hmore, -⟩
          · exact hskipped hskip
          · contradiction
      | true =>
          obtain ⟨value, hvalue⟩ := Option.isSome_iff_exists.mp (hsome rfl)
          dsimp only at hrest
          rw [if_pos rfl, hvalue] at hrest
          obtain ⟨hu', hboth, haccepted⟩ := ih hit₁ (hall₁.trans hall) hu₁ hrest
          obtain ⟨rfl, hvalid⟩ := Bool.and_eq_true_iff.mp hboth
          refine ⟨hu', rfl, fun p hhas hlen hp => ?_⟩
          rcases hvisit p hhas hlen hp with hskip | ⟨-, hhere | hlater⟩
          · exact hskipped hskip
          · refine ⟨it₁.last, hhere, fun value' hvalue' => ?_⟩
            obtain rfl : value = value' := Option.some.inj (hvalue.symm.trans hvalue')
            exact hvalid
          · exact haccepted p hhas hlen hlater

theorem varCheckVariable_accepts {u : Slots} (hvar : D.vars v = some var)
    (hu : I u) (hk : K u') (hrun : varCheckVariable D c rounds v u = .ok (true, u')) :
    I u' ∧ ∀ p, s.has v p = true → p.length = var.level → Accepted I K D c v var p := by
  obtain ⟨var', u₁, hderef, hrest⟩ := bind_ok_iff.mp hrun
  obtain ⟨hvar', rfl⟩ := Defs.deref_ok_iff.mp hderef
  obtain rfl : var = var' := Option.some.inj (hvar.symm.trans hvar')
  obtain ⟨t, u₁, hget, hrest⟩ := bind_ok_iff.mp hrest
  obtain ⟨rfl, rfl⟩ := get_ok_iff.mp hget
  have hslot : varInstanceGetSlotForReading u var ⟨v, []⟩ = some [] :=
    varInstanceGetSlotForReading_eq_some.mpr ⟨Nat.zero_le _, rfl, rfl⟩
  have hvalid : (varValueIteratorCreate u var ⟨v, []⟩ true).Valid u v var [] [⟨[], 0, -1⟩] :=
    varValueIteratorCreate_valid hslot
  have hit : (varValueIteratorCreate u var ⟨v, []⟩ true).Valid s v var [] [⟨[], 0, -1⟩] :=
    ⟨hvalid.iter_eq, hvalid.route.congr (hI u hu).symm, hvalid.indices_length,
      hvalid.indices_base⟩
  have hall : (varValueIteratorCreate u var ⟨v, []⟩ true).all = true := by
    rw [varValueIteratorCreate, hslot]
  obtain ⟨hu', -, haccepted⟩ := checkLoop_accepts hI hback hread hit hall hu hk hrest
  refine ⟨hu', fun p hhas hlen => haccepted p hhas hlen ?_⟩
  exact pending_start (List.nil_append p).symm hlen

end visits

/-! ### The purpose of the check -/

/-- `var_instance_get_value` returns `r`. -/
def ReadsAs (D : Defs) (s : Slots) (inst : VarInstance) (r : Option VarValue) : Prop :=
  ∃ depth, (varInstanceDoGetValue D (calls D depth) inst).result s = some r

/-- `var_instance_is_enabled` returns TRUE. -/
def Enabled (D : Defs) (s : Slots) (inst : VarInstance) : Prop :=
  ∃ depth, (varInstanceIsEnabled D (calls D depth) inst).result s = some true

/-- The instance is complete, and each of its indices lies below the value that is read for the
array bound of its level. -/
inductive InBounds (D : Defs) (s : Slots) : VarInstance → Prop
  | scalar {v : VarId} {var : Var} (hvar : D.vars v = some var) (hlevel : var.level = 0) :
      InBounds D s ⟨v, []⟩
  | element {v b : VarId} {var : Var} {p : List UInt32} {index : UInt32} {value : VarValue}
      {text : CString} {bound : Int} (hvar : D.vars v = some var) (hb : var.varN = some b)
      (hbound : InBounds D s ⟨b, p⟩) (hread : ReadsAs D s ⟨b, p⟩ (some value))
      (htext : value.value = some text) (hnumber : varValueConvertToInteger text = some bound)
      (hlt : (index.toNat : Int) < bound) : InBounds D s ⟨v, p ++ [index]⟩

/-- The enabled instances of the mandatory variables of a scope that lie inside the bounds. -/
def Required (D : Defs) (scope : List VarId) (s : Slots) (v : VarId) (var : Var)
    (p : List UInt32) : Prop :=
  v ∈ scope ∧ D.vars v = some var ∧ var.props.optional = false ∧ InBounds D s ⟨v, p⟩ ∧
    Enabled D s ⟨v, p⟩

/-- Every required instance is read as a value of its type. -/
def CheckSound (D : Defs) (scope : List VarId) (s : Slots) : Prop :=
  ∀ v var p, Required D scope s v var p → ∃ value text, ReadsAs D s ⟨v, p⟩ (some value) ∧
    value.value = some text ∧ D.types.vartypeMatch var.type text = true

/-- Every required instance has a slot. -/
def Slotted (D : Defs) (scope : List VarId) (s : Slots) : Prop :=
  ∀ v var p, Required D scope s v var p → s.has v p = true

theorem InBounds.complete {D : Defs} {s : Slots} (h : InBounds D s inst) :
    ∃ var, D.vars inst.var = some var ∧ inst.indices.length = var.level := by
  induction h with
  | scalar hvar hlevel => exact ⟨_, hvar, hlevel.symm⟩
  | element hvar hb _ _ _ _ _ ih =>
      obtain ⟨varN, hvarN, hlen⟩ := ih
      obtain ⟨varN', hvarN', hlevel, -⟩ := D.boundGraph.bound hvar hb
      obtain rfl : varN = varN' := Option.some.inj (hvarN.symm.trans hvarN')
      refine ⟨_, hvar, ?_⟩
      rw [List.length_append, List.length_singleton, ← hlevel]
      exact congrArg (· + 1) hlen

theorem ReadsAs.has {D : Defs} {s : Slots} {value : VarValue}
    (h : ReadsAs D s inst (some value)) : s.has inst.var inst.indices = true := by
  obtain ⟨depth, hresult⟩ := h
  obtain ⟨s', hrun⟩ := result_eq_some_iff.mp hresult
  obtain ⟨var, -, hcases⟩ := varInstanceDoGetValue_cases hrun
  rcases hcases with ⟨hnone, -⟩ | ⟨r', -, hhas, -⟩
  · exact nomatch hnone
  · exact hhas

theorem ReadsAs.unique {D : Defs} {s : Slots} {r' : Option VarValue}
    (h : ReadsAs D s inst r) (h' : ReadsAs D s inst r') : r = r' := by
  obtain ⟨depth, hresult⟩ := h
  obtain ⟨depth', hresult'⟩ := h'
  have hdeep : ∀ {n r}, n ≤ max depth depth' → (varInstanceDoGetValue D (calls D n) inst).result s = some r →
      (varInstanceDoGetValue D (calls D (max depth depth')) inst).result s = some r := fun hle hr =>
    (respected_below.ofVarInstanceDoGetValue (m := D.matchArray) (calls_below hle) inst).result hr
  exact Option.some.inj ((hdeep (Nat.le_max_left _ _) hresult).symm.trans
    (hdeep (Nat.le_max_right _ _) hresult'))

/-! ### The check and the meaning of variables -/

section meaning

variable {D : Defs} {s u : Slots} (hview : View D s s u)

include hview

theorem View.noneActive (n : Nat) : NoneActive D s n u := by
  intro inst hidle hactive
  rw [hview.2, hidle] at hactive
  contradiction

theorem readsAs_iff_of_meaning {n : Nat} {r' : Option VarValue}
    (hr : (meaning D s n).read inst = some r) : ReadsAs D u inst r' ↔ r' = r := by
  have hknown := (calls_realize n u (View.noneActive hview n)).tryGetValue inst r s
    (returnKnown_ok_iff.mpr ⟨hr, rfl⟩)
  obtain ⟨u', hrun, -⟩ := hknown.2 u ⟨hview.1, fun _ _ => rfl⟩
  have hreads : ReadsAs D u inst r :=
    ⟨n, result_eq_some_iff.mpr ⟨u', (calls_below (Nat.le_succ n)).tryGetValue inst hrun⟩⟩
  constructor
  · intro h
    exact h.unique hreads
  · rintro rfl
    exact hreads

theorem enabled_iff_of_meaning {n : Nat} {lit : Literal}
    (hlit : (meaning D s n).expr (D.condition inst.var) inst = some lit) :
    Enabled D u inst ↔ (exprGetBooleanValue lit).getD false = true := by
  have hknown := (calls_realize n u (View.noneActive hview n)).exprEvaluate _ inst lit s
    (returnKnown_ok_iff.mpr ⟨hlit, rfl⟩)
  obtain ⟨u', hrun, -⟩ := hknown.2 u ⟨hview.1, fun _ _ => rfl⟩
  have henabled : varInstanceIsEnabled D (calls D n) inst u =
      .ok ((exprGetBooleanValue lit).getD false, u') :=
    bind_ok_iff.mpr ⟨lit, u', hrun, rfl⟩
  constructor
  · rintro ⟨depth, hresult⟩
    obtain ⟨u'', hrun'⟩ := result_eq_some_iff.mp hresult
    have hdeep : ∀ {k r}, k ≤ max n depth → varInstanceIsEnabled D (calls D k) inst u = .ok r →
        varInstanceIsEnabled D (calls D (max n depth)) inst u = .ok r := fun hle hr =>
      respected_below.ofVarInstanceIsEnabled (m := D.matchArray) (calls_below hle) inst hr
    have h := hdeep (Nat.le_max_left _ _) henabled
    rw [hdeep (Nat.le_max_right _ _) hrun'] at h
    exact (Prod.mk.inj (Except.ok.inj h)).1.symm
  · intro htrue
    rw [htrue] at henabled
    exact ⟨n, result_eq_some_iff.mpr ⟨u', henabled⟩⟩

end meaning

theorem varSlotGetValue_kind {D : Defs} {c : Callees} {value : VarValue}
    {s : Slots} (h : varSlotGetValue D c inst s = .ok (value, s')) :
    value.kind ≠ .disabled := by
  rcases varSlotGetValue_cases h with ⟨hkind, -⟩ | ⟨hkind, -⟩
  · rw [hkind]
    decide
  · rw [hkind]
    cases value.value <;> simp

theorem readValue_cases {D : Defs} {s : Slots} {m : Nat} {var : Var} (hvar : D.vars inst.var = some var)
    (h : varInstanceReadValue D (meaning D s m).callees inst s = .ok (r, s'))
    (hquiet : s'.cycles = s.cycles) :
    (r = none ∧ ∃ s₁, indicesInBounds D (meaning D s m).callees var inst s = .ok (false, s₁)) ∨
      ∃ lit value, (meaning D s m).expr (D.condition inst.var) inst = some lit ∧
        r = some (presentValue var ((exprGetBooleanValue lit).getD false) value) ∧
        value.kind ≠ .disabled := by
  obtain ⟨var', s₁, hvar', hcases⟩ := varInstanceReadValue_cases h
  obtain rfl : var = var' := Option.some.inj (hvar.symm.trans hvar')
  rcases hcases with ⟨hinside, rfl, -⟩ | ⟨hinside, hread⟩
  · exact Or.inl ⟨rfl, s₁, hinside⟩
  · obtain rfl : s₁ = s :=
      (indicesInBounds_realizes ((meaning D s m).callees_realize s) var inst true s₁ hinside).1
    obtain ⟨hhas, hread⟩ := readCheckedValue_cases hread
    rcases hread with ⟨-, -, rfl⟩ | ⟨-, enabled, value, s₂, s₃, henabled, hvalue, rfl, -⟩
    · exact absurd hquiet (Nat.succ_ne_self _)
    · obtain ⟨lit, s₄, hcond, hresult⟩ := bind_ok_iff.mp henabled
      obtain ⟨hlit, rfl⟩ := returnKnown_ok_iff.mp hcond
      obtain ⟨rfl, rfl⟩ := pure_ok_iff.mp hresult
      exact Or.inr ⟨lit, value, hlit, rfl, varSlotGetValue_kind hvalue⟩

theorem varValueConvertToInteger_lt {text : CString} {n : Int}
    (h : varValueConvertToInteger text = some n) : n < 2147483648 := by
  unfold varValueConvertToInteger at h
  dsimp only at h
  split at h
  · obtain rfl := Option.some.inj h
    unfold toInt32
    omega
  · contradiction

section soundness

variable {D : Defs} {s u : Slots} (hview : View D s s u)

include hview

theorem InBounds.indicesInBounds {m : Nat} {var : Var}
    {inside : Bool} (h : InBounds D u inst) (hvar : D.vars inst.var = some var)
    (hrun : indicesInBounds D (meaning D s m).callees var inst s = .ok (inside, s')) :
    inside = true := by
  unfold Mkfli4l.indicesInBounds at hrun
  cases h with
  | scalar hvar' hlevel =>
      obtain rfl := Option.some.inj (hvar.symm.trans hvar')
      rw [if_neg (by omega)] at hrun
      exact (pure_ok_iff.mp hrun).1.symm
  | @element v b _ p index value text bound hvar' hb hbound hread htext hnumber hlt =>
      obtain rfl := Option.some.inj (hvar.symm.trans hvar')
      obtain ⟨varN, hvarN, hlen⟩ := hbound.complete
      obtain ⟨varN', hvarN', hlevel, -⟩ := D.boundGraph.bound hvar hb
      obtain rfl : varN = varN' := Option.some.inj (hvarN.symm.trans hvarN')
      dsimp only at hlen
      rw [if_pos (by omega)] at hrun
      obtain ⟨instN, s₁, hinst, hrun⟩ := bind_ok_iff.mp hrun
      obtain ⟨b', varN'', hb', hvarN'', -, rfl, rfl⟩ := boundInstance_ok hinst
      obtain rfl : b = b' := Option.some.inj (hb.symm.trans hb')
      obtain rfl : varN = varN'' := Option.some.inj (hvarN.symm.trans hvarN'')
      rw [← hlen, List.take_left] at hrun
      obtain ⟨converted, s₂, hconvert, hrun⟩ := bind_ok_iff.mp hrun
      obtain ⟨read, s₃, hvalue, hconvert⟩ := bind_ok_iff.mp hconvert
      obtain ⟨hmeaning, rfl⟩ := returnKnown_ok_iff.mp hvalue
      obtain rfl : some value = read :=
        (readsAs_iff_of_meaning hview hmeaning).mp hread
      obtain ⟨text', kind, extra, priority⟩ := value
      obtain rfl : text' = some text := htext
      obtain ⟨rfl, rfl⟩ := pure_ok_iff.mp hconvert
      have hindex : (p ++ [index])[var.level - 1]? = some index := by
        have hpos : var.level - 1 = p.length := by omega
        rw [hpos, List.getElem?_concat_length]
      rw [hnumber, hindex] at hrun
      obtain ⟨rfl, -⟩ := pure_ok_iff.mp hrun
      have hmax := varValueConvertToInteger_lt hnumber
      rw [uint32ToInt_of_lt (by omega)]
      exact decide_eq_true hlt

theorem Required.reads {depth : Nat} {v : VarId} {var : Var} {p : List UInt32}
    (h : Required D scope u v var p) (hhas : s.has v p = true)
    (haccepted : Accepted (fun w => Covers D s w ∧ Counted s w) (fun w => Counted w s) D (calls D depth)
      v var p) :
    ∃ value text, ReadsAs D u ⟨v, p⟩ (some value) ∧ value.value = some text ∧
      D.types.vartypeMatch var.type text = true := by
  obtain ⟨-, hvar, hmandatory, hin, henabled⟩ := h
  obtain ⟨var', hvar', hlen⟩ := hin.complete
  obtain rfl : var = var' := Option.some.inj (hvar.symm.trans hvar')
  obtain ⟨r, ⟨u₁, u₂, ⟨hcovers, hbefore⟩, hafter, hrun⟩, haccept⟩ := haccepted
  obtain ⟨-, n, hlevels⟩ := varInstanceReadValue_means (calls_means D s depth) (calls_sound D depth) hrun
    hcovers (hafter.trans hbefore)
  obtain ⟨s₁, hmeaning, hquiet⟩ := hlevels n le_rfl
  have hread : (meaning D s (n + 1)).read ⟨v, p⟩ = some (dropUnset r) := quietResult_eq_some_iff.mpr
    ⟨s₁, varInstanceDoGetValue_of_slot hvar hlen hhas hmeaning, hquiet⟩
  rcases readValue_cases hvar hmeaning hquiet with ⟨-, s₂, hinside⟩ | ⟨lit, value, hlit, rfl, hkind⟩
  · exact nomatch hin.indicesInBounds hview hvar hinside
  · rw [(enabled_iff_of_meaning hview hlit).mp henabled] at haccept hread
    have hcheck := haccept value rfl
    unfold varCheckValue at hcheck
    cases htext : value.value with
    | none =>
        rw [htext] at hcheck
        simp [hkind, hmandatory] at hcheck
    | some text =>
        rw [htext] at hcheck
        refine ⟨value, text, (readsAs_iff_of_meaning hview hread).mpr ?_, htext, hcheck⟩
        simp [presentValue, dropUnset, htext]

end soundness

theorem Counted.steps {D : Defs} (depth : Nat) (inst : VarInstance) :
    Exec.Steps Counted (varInstanceReadValue D (calls D depth) inst) :=
  (varInstanceReadValue_moves (calls_sound D depth) inst).mono fun _ _ => Moves.counted

/-- A check of the scope that counts nothing and ends with TRUE has accepted whatever has a slot, variable by
variable, in stores that cover `s`. -/
theorem varCheckValues_accepts {D : Defs} {depth : Nat} {s u : Slots}
    (hu : Covers D s u ∧ Counted s u) (hquiet : Counted u' s)
    (hrun : varCheckValues D (calls D depth) rounds scope u = .ok (true, u')) :
    Covers D s u' ∧ ∀ v ∈ scope, ∀ var, D.vars v = some var → ∀ p, s.has v p = true →
      p.length = var.level → Accepted (fun w => Covers D s w ∧ Counted s w) (fun w => Counted w s) D
        (calls D depth) v var p := by
  induction scope generalizing u with
  | nil =>
      obtain ⟨-, rfl⟩ := pure_ok_iff.mp hrun
      exact ⟨hu.1, fun v hv => absurd hv List.not_mem_nil⟩
  | cons w scope ih =>
      obtain ⟨result, u₁, hfirst, hrest⟩ := bind_ok_iff.mp hrun
      obtain ⟨results, u₂, hothers, hrest⟩ := bind_ok_iff.mp hrest
      obtain ⟨hboth, rfl⟩ := pure_ok_iff.mp hrest
      obtain ⟨rfl, rfl⟩ := Bool.and_eq_true_iff.mp hboth
      obtain ⟨var, hvar⟩ : ∃ var, D.vars w = some var := by
        obtain ⟨var, _, hderef, -⟩ := bind_ok_iff.mp hfirst
        exact ⟨var, (Defs.deref_ok_iff.mp hderef).1⟩
      -- what comes behind the variable counts nothing, so its own check does not either
      have hlater := varCheckValues_steps Counted.refl (fun _ _ _ => Counted.trans) (Counted.steps depth) hothers
      have hquiet₁ : Counted u₁ s := hlater.trans hquiet
      obtain ⟨hu₁, haccepted⟩ := varCheckVariable_accepts (s := s)
        (I := fun w => Covers D s w ∧ Counted s w) (K := fun w => Counted w s)
        (fun w hw => hw.1.sees.numSlots)
        (fun p x r x' hread hk => (Counted.steps depth _ hread).trans hk)
        (fun p x r x' hhas hlen hx hk hread =>
          ⟨(varInstanceReadValue_means (calls_means D s depth) (calls_sound D depth) hread hx.1
            (hk.trans hx.2)).1, hx.2.trans (Counted.steps depth _ hread)⟩)
        hvar hu hquiet₁ hfirst
      obtain ⟨hcovers, hrestAccepted⟩ := ih hu₁ hothers
      refine ⟨hcovers, fun v hv var' hvar' p hhas hlen => ?_⟩
      rcases List.mem_cons.mp hv with rfl | hv
      · obtain rfl : var = var' := Option.some.inj (hvar.symm.trans hvar')
        exact haccepted p hhas hlen
      · exact hrestAccepted v hv var' hvar' p hhas hlen

theorem CheckSound.slotted {D : Defs} {s : Slots} (h : CheckSound D scope s) : Slotted D scope s := by
  intro v var p hrequired
  obtain ⟨value, text, hread, -⟩ := h v var p hrequired
  exact hread.has

/-- A check that ends with TRUE is sound only if every required instance has a slot, and if the check empties
no array and comes upon no dependency cycle, this is all that it takes. -/
theorem checkSound_iff_slotted {D : Defs} {depth rounds : Nat} {scope : List VarId}
    {s s' : Slots}
    (hrun : varCheckValues D (calls D depth) rounds scope s = .ok (true, s')) :
    (CheckSound D scope s' → Slotted D scope s') ∧
      (s'.clears = s.clears → s'.cycles = s.cycles →
        (CheckSound D scope s' ↔ ∀ v var p, Required D scope s' v var p → s.has v p = true)) := by
  refine ⟨CheckSound.slotted, fun hclears hcycles => ?_⟩
  obtain ⟨hcovers, haccepted⟩ := varCheckValues_accepts
    ⟨⟨Sees.refl D s, fun _ _ h => h⟩, Counted.refl s⟩ ⟨hclears.le, hcycles.le⟩ hrun
  have hreading : Reading s s' := varCheckValues_steps Reading.refl (fun _ _ _ => Reading.trans)
    (varInstanceReadValue_reads (calls_reads D depth)) hrun
  have hview : View D s s s' :=
    ⟨hcovers.sees, fun v p => ((hreading.2 hclears).entry v p).readActive⟩
  constructor
  · intro hsound v var p h
    rw [← hview.1.has_eq]
    exact hsound.slotted v var p h
  · intro hslotted v var p h
    have hhas := hslotted v var p h
    obtain ⟨var', hvar', hlen⟩ := h.2.2.2.1.complete
    obtain rfl : var = var' := Option.some.inj (h.2.1.symm.trans hvar')
    exact h.reads hview hhas (haccepted v h.1 var h.2.1 p hhas hlen)

/-! ### An array whose bound has a default value -/

/-- `X_N` with a default value, and the mandatory array `X_%`. -/
def defaultBoundVars (bound : Int) : List Var :=
  [ { name := "X_N".toList, type := 0, level := 0, varN := none, varNClients := [1],
      priority := .configuration,
      props := { plainProps with defValue := some (.literal (.integer bound)) } },
    { name := "X_%".toList, type := 1, level := 1, varN := some 0, varNClients := [],
      priority := .configuration, props := plainProps } ]

/-- The definitions made of `X_N` with a default value and `X_%`. -/
def defaultBoundDefs (bound : Int) : Defs where
  types := sampleTypes
  vars := fun v => (defaultBoundVars bound)[v]?
  condition := fun _ => .literal (.boolean true)
  defValue := fun v => ((defaultBoundVars bound)[v]?).bind fun var => var.props.defValue
  matchArray := none
  boundGraph := BoundGraph.of_list rfl

/-- Check `X_N` and `X_%`. -/
def checkBoth (bound : Int) : SlotExec Bool :=
  varCheckValues (defaultBoundDefs bound) (calls (defaultBoundDefs bound) 8) 16 [0, 1]

theorem defaultBoundDefs_vars {bound : Int} {v : VarId} {var : Var}
    (h : (defaultBoundDefs bound).vars v = some var) : v = 0 ∨ v = 1 := by
  have hlt := (List.getElem?_eq_some_iff.mp h).1
  exact Nat.le_one_iff_eq_zero_or_eq_one.mp (Nat.lt_succ_iff.mp hlt)

/-- The store with `X_1='a'` and `X_2='a'`. -/
def twoElements : Slots where
  numSlots := fun v p => if v = 1 ∧ p = [] then 2 else 0
  entry := fun v _ =>
    if v = 1 then { SlotEntry.init with value := some ['a'], priority := .configuration }
    else SlotEntry.init
  cycles := 0
  clears := 0

theorem twoElements_has {i : UInt32} : twoElements.has 1 [i] = true ↔ i.toNat < 2 := by
  have h : twoElements.has 1 ([] ++ [i]) = true ↔ _ := Slots.has_concat_iff [] i
  rw [List.nil_append] at h
  rw [h, UInt32.lt_iff_toNat_lt]
  exact and_iff_right rfl

/-- With all its elements set, the check of the array is sound. -/
theorem checkSound_iff_slotted_X_1_X_2 :
    ∃ s', checkBoth 2 twoElements = .ok (true, s') ∧
      (∀ v var p, Required (defaultBoundDefs 2) [0, 1] s' v var p → twoElements.has v p = true) ∧
      CheckSound (defaultBoundDefs 2) [0, 1] s' := by
  let s' := (checkBoth 2).stateAfter twoElements
  have hrun : checkBoth 2 twoElements = .ok (true, s') := ok_of_result (by decide)
  have hbound : ReadsAs (defaultBoundDefs 2) s' ⟨0, []⟩ (some ⟨some ['2'], .default, none, .undefined⟩) :=
    ⟨8, by decide⟩
  have hslotted : ∀ v var p, Required (defaultBoundDefs 2) [0, 1] s' v var p →
      twoElements.has v p = true := by
    rintro v var p ⟨-, -, -, hin, -⟩
    cases hin with
    | scalar hvar hlevel => rfl
    | @element v b var p index value text bound hvar hb hinside hread htext hnumber hlt =>
        rcases defaultBoundDefs_vars hvar with rfl | rfl
        · obtain rfl := Option.some.inj hvar
          contradiction
        · obtain rfl := Option.some.inj hvar
          obtain rfl := Option.some.inj hb
          obtain ⟨varN, hvarN, hlen⟩ := hinside.complete
          obtain rfl := Option.some.inj hvarN
          obtain rfl := List.length_eq_zero_iff.mp hlen
          obtain rfl := Option.some.inj (hread.unique hbound)
          obtain rfl := Option.some.inj htext
          obtain rfl : 2 = bound := Option.some.inj hnumber
          exact twoElements_has.mpr (by omega)
  exact ⟨s', hrun, hslotted, ((checkSound_iff_slotted hrun).2 (by decide) (by decide)).mpr hslotted⟩

/-- Without any element, an array whose bound is 3 by default passes the check, although its
first element lies inside the bounds and cannot be read. -/
theorem checkSound_broken_by_default_bound :
    ∃ s', checkBoth 3 Slots.init = .ok (true, s') ∧
      InBounds (defaultBoundDefs 3) s' ⟨1, [0]⟩ ∧ Enabled (defaultBoundDefs 3) s' ⟨1, [0]⟩ ∧
      ReadsAs (defaultBoundDefs 3) s' ⟨1, [0]⟩ none ∧
      ¬ CheckSound (defaultBoundDefs 3) [0, 1] s' := by
  let D := defaultBoundDefs 3
  let s' := (checkBoth 3).stateAfter Slots.init
  have hrun : checkBoth 3 Slots.init = .ok (true, s') := ok_of_result (by decide)
  have hbound : ReadsAs D s' ⟨0, []⟩ (some ⟨some ['3'], .default, none, .undefined⟩) :=
    ⟨8, by decide⟩
  have hin : InBounds D s' ⟨1, [0]⟩ :=
    .element rfl rfl (.scalar rfl rfl) hbound rfl (show _ = some (3 : Int) by decide) (by decide)
  have henabled : Enabled D s' ⟨1, [0]⟩ := ⟨8, by decide⟩
  refine ⟨s', hrun, hin, henabled, ⟨8, by decide⟩, fun hsound => ?_⟩
  have hhas := hsound.slotted 1 _ [0] ⟨by decide, rfl, rfl, hin, henabled⟩
  have hnone : s'.has 1 [0] = false := by decide
  rw [hnone] at hhas
  contradiction

/-! ### Two variables that depend on each other -/

/-- `X` is enabled by `Y=='a'` and reads as `a` when it is disabled. -/
def cyclicVars : List Var :=
  [ { name := "X".toList, type := 1, level := 0, varN := none, varNClients := [],
      priority := .configuration, props := { plainProps with disValue := some ['a'] } },
    { name := "Y".toList, type := 1, level := 0, varN := none, varNClients := [],
      priority := .configuration, props := plainProps } ]

/-- The value of `Y` is that of `X` by default. -/
def cyclicDefs : Defs where
  types := sampleTypes
  vars := fun v => cyclicVars[v]?
  condition := fun v =>
    if v = 0 then .equal (.var .string (.resolved ⟨1, []⟩)) (.literal (.string ['a']))
    else .literal (.boolean true)
  defValue := fun v => if v = 1 then some (.var .string (.resolved ⟨0, []⟩)) else none
  matchArray := none
  boundGraph := BoundGraph.of_list rfl

theorem checkSound_broken_by_cycle :
    ∃ s', varCheckValues cyclicDefs (calls cyclicDefs 8) 16 [0, 1] Slots.init = .ok (true, s') ∧
      s'.cycles ≠ Slots.init.cycles ∧ (∀ v var p, Required cyclicDefs [0, 1] s' v var p →
        Slots.init.has v p = true) ∧ ¬ CheckSound cyclicDefs [0, 1] s' := by
  let check := varCheckValues cyclicDefs (calls cyclicDefs 8) 16 [0, 1]
  let s' := check.stateAfter Slots.init
  have hrun : check Slots.init = .ok (true, s') := ok_of_result (by decide)
  refine ⟨s', hrun, by decide, ?_, fun hsound => ?_⟩
  · rintro v var p ⟨hv, hvar, -, hin, -⟩
    obtain ⟨var', hvar', hlen⟩ := hin.complete
    have hlevel : var'.level = 0 := by
      rcases List.mem_cons.mp (List.mem_of_getElem? (show cyclicVars[v]? = some var' from hvar'))
        with rfl | hmem
      · rfl
      · obtain rfl := List.mem_singleton.mp hmem
        rfl
    obtain rfl := List.length_eq_zero_iff.mp (hlen.trans hlevel)
    rfl
  · obtain ⟨value, text, hread, -⟩ :=
      hsound 0 _ [] ⟨by decide, rfl, rfl, .scalar rfl rfl, 8, by decide⟩
    have hnone : ReadsAs cyclicDefs s' ⟨0, []⟩ none := ⟨8, by decide⟩
    exact nomatch hread.unique hnone

end Mkfli4l
