import Mkfli4l.Expression.Evaluate

/-!
# Relations that evaluations respect

Reading the bound of an array and evaluating an expression put the results of their callees together.  So a
relation between computations that sequencing respects holds of them if it holds of the callees.

One side of the relation is a family of computations, such as those with call stacks of every depth.  A
relation between two computations has a family of one member, and for a property of a computation the family
does not matter.
-/

namespace Mkfli4l

open Lib

/-- The definitions with another array of the matched groups, or with none. -/
def Defs.withMatchArray (D : Defs) (m : Option VarId) : Defs := { D with matchArray := m }

/-- Sequencing respects the relation between a computation and a family of computations, and so does a NULL
pointer, which is what evaluations fail with. -/
structure Congruence {ι : Type} (R : ∀ α : Type, SlotExec α → (ι → SlotExec α) → Prop) : Prop where
  ofPure : ∀ {α : Type} (a : α), R α (pure a) fun _ => pure a
  ofNull : ∀ α : Type, R α (throw .nullPointer) fun _ => throw .nullPointer
  ofBind : ∀ {α β : Type} {x : SlotExec α} {y : ι → SlotExec α} {f : α → SlotExec β}
    {g : ι → α → SlotExec β}, R α x y → (∀ a, R β (f a) fun i => g i a) → R β (x >>= f) fun i => y i >>= g i

theorem Exec.Steps.congruence {S : Slots → Slots → Prop} (hrefl : ∀ s, S s s)
    (htrans : ∀ s t u, S s t → S t u → S s u) :
    Congruence fun _ x (_ : Unit → _) => Exec.Steps S x where
  ofPure a := Exec.Steps.pure hrefl a
  ofNull _ := Exec.Steps.throw Fault.nullPointer
  ofBind hx hf := Exec.Steps.bind htrans hx hf

section Congruence

variable {ι : Type} {R : ∀ α : Type, SlotExec α → (ι → SlotExec α) → Prop} (hR : Congruence R)
  {D : Defs} {c : Callees} {d : ι → Callees}

theorem Congruence.ite {α : Type} {p : Prop} {_ : Decidable p} {x x' : SlotExec α} {y y' : ι → SlotExec α}
    (hx : R α x y) (hx' : R α x' y') : R α (if p then x else x') fun i => if p then y i else y' i := by
  by_cases hp : p
  · simpa only [if_pos hp] using hx
  · simpa only [if_neg hp] using hx'

include hR

theorem Congruence.ofDeref (v : VarId) : R Var (D.deref v) fun _ => D.deref v := by
  unfold Defs.deref
  cases D.vars v with
  | none => exact hR.ofNull _
  | some var => exact hR.ofPure var

/-! ### Bounds -/

theorem Congruence.ofReadArrayBound
    (hread : ∀ inst, R _ (c.tryGetValue inst) fun i => (d i).tryGetValue inst) (instN : VarInstance) :
    R _ (readArrayBound c instN) fun i => readArrayBound (d i) instN := by
  refine hR.ofBind (hread instN) fun value => ?_
  rcases value with _ | ⟨_ | text, _, _, _⟩
  · exact hR.ofPure _
  · exact hR.ofNull _
  · exact hR.ofPure _

theorem Congruence.ofIndicesInBounds (hthrow : ∀ α : Type, R α (throw .outOfBounds) fun _ => throw .outOfBounds)
    (hread : ∀ inst, R _ (c.tryGetValue inst) fun i => (d i).tryGetValue inst) (var : Var)
    (inst : VarInstance) : R _ (indicesInBounds D c var inst) fun i => indicesInBounds D (d i) var inst := by
  have hbound : R _ (boundInstance D inst var.varN) fun _ => boundInstance D inst var.varN := by
    cases var.varN with
    | none => exact hR.ofNull _
    | some b => exact hR.ofBind (hR.ofDeref b) fun varN => Congruence.ite (hthrow _) (hR.ofPure _)
  refine Congruence.ite ?_ (hR.ofPure true)
  refine hR.ofBind hbound fun instN => ?_
  refine hR.ofBind (hR.ofReadArrayBound hread instN) fun bound => ?_
  cases bound with
  | none => exact hR.ofPure _
  | some bound =>
      cases inst.indices[var.level - 1]? with
      | none => exact hthrow _
      | some index => exact hR.ofPure _

/-! ### Expressions -/

theorem Congruence.ofCompareLiterals (negate : Bool) (arg1 arg2 : Literal) :
    R _ (compareLiterals negate arg1 arg2) fun _ => compareLiterals negate arg1 arg2 := by
  unfold compareLiterals
  split
  · exact hR.ofNull _
  · exact hR.ofPure _

theorem Congruence.ofExprVariableEvaluate
    (hread : ∀ inst, R _ (c.tryGetValue inst) fun i => (d i).tryGetValue inst)
    (hcondition : ∀ v context, R _ (c.exprEvaluate (D.condition v) context) fun i =>
      (d i).exprEvaluate (D.condition v) context)
    (type : ExprType) (ref : VarRef) (context : VarInstance) :
    R _ (exprVariableEvaluate D c type ref context) fun i => exprVariableEvaluate D (d i) type ref context := by
  have hliteral : ∀ inst, R _ (c.tryGetValue inst >>= literalOfValue type) fun i =>
      (d i).tryGetValue inst >>= literalOfValue type := by
    intro inst
    refine hR.ofBind (hread inst) fun value => ?_
    unfold literalOfValue
    split
    all_goals first | exact hR.ofPure _ | exact hR.ofNull _
  cases ref with
  | unresolved name => exact hR.ofNull _
  | resolved inst =>
      refine hR.ofBind (hR.ofDeref _) fun var => Congruence.ite (Congruence.ite ?_ (hcondition _ context)) ?_
      · exact hliteral _
      · exact hliteral _

/-- An expression without matches, or with matches that respect the relation.  The definitions may differ in
the array of the matched groups. -/
theorem Congruence.ofExprEvaluate {m : ι → Option VarId}
    (hread : ∀ inst, R _ (c.tryGetValue inst) fun i => (d i).tryGetValue inst)
    (hcondition : ∀ v context, R _ (c.exprEvaluate (D.condition v) context) fun i =>
      (d i).exprEvaluate (D.condition v) context)
    (e : Expr) (context : VarInstance)
    (hmatch : e.matchFree = true ∨ ∀ val regex, R _ (matchLiterals D c val regex) fun i =>
      matchLiterals (D.withMatchArray (m i)) (d i) val regex) :
    R _ (exprEvaluate D c e context) fun i => exprEvaluate (D.withMatchArray (m i)) (d i) e context := by
  induction e with
  | literal value => exact hR.ofPure _
  | var type ref => exact hR.ofExprVariableEvaluate hread hcondition type ref context
  | logicalNot arg ih => exact hR.ofBind (ih hmatch) fun _ => hR.ofPure _
  | logicalAnd left right ihl ihr =>
      refine hR.ofBind (ihl (hmatch.imp_left fun h => (Bool.and_eq_true_iff.mp h).1)) fun result => ?_
      rcases exprGetBooleanValue result with _ | _ | _
      · exact hR.ofPure _
      · exact hR.ofPure _
      · exact hR.ofBind (ihr (hmatch.imp_left fun h => (Bool.and_eq_true_iff.mp h).2)) fun _ => hR.ofPure _
  | logicalOr left right ihl ihr =>
      refine hR.ofBind (ihl (hmatch.imp_left fun h => (Bool.and_eq_true_iff.mp h).1)) fun result => ?_
      rcases exprGetBooleanValue result with _ | _ | _
      · exact hR.ofPure _
      · exact hR.ofBind (ihr (hmatch.imp_left fun h => (Bool.and_eq_true_iff.mp h).2)) fun _ => hR.ofPure _
      · exact hR.ofPure _
  | equal left right ihl ihr =>
      refine hR.ofBind (ihl (hmatch.imp_left fun h => (Bool.and_eq_true_iff.mp h).1)) fun arg1 => ?_
      refine hR.ofBind (ihr (hmatch.imp_left fun h => (Bool.and_eq_true_iff.mp h).2)) fun arg2 => ?_
      exact hR.ofCompareLiterals false arg1 arg2
  | unequal left right ihl ihr =>
      refine hR.ofBind (ihl (hmatch.imp_left fun h => (Bool.and_eq_true_iff.mp h).1)) fun arg1 => ?_
      refine hR.ofBind (ihr (hmatch.imp_left fun h => (Bool.and_eq_true_iff.mp h).2)) fun arg2 => ?_
      exact hR.ofCompareLiterals true arg1 arg2
  | regexMatch arg regex iha ihr =>
      rcases hmatch with hfree | hmatch
      · exact nomatch hfree
      · refine hR.ofBind (iha (Or.inr hmatch)) fun argResult => Congruence.ite (hR.ofPure _) ?_
        refine hR.ofBind (ihr (Or.inr hmatch)) fun regexResult => Congruence.ite (hR.ofPure _) ?_
        exact hmatch argResult.text regexResult.text
  | tobool arg ih => exact hR.ofBind (ih hmatch) fun _ => hR.ofPure _

end Congruence

end Mkfli4l
