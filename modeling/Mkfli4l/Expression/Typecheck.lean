import Mkfli4l.Grammar.VarNames
import Mkfli4l.Var.Runs

/-!
# Type soundness of expressions

`expr_resolve_variable_expressions` binds the variable references of an expression
and thereby gives them types, and `expr_typecheck_expression` checks the operators.
This module asks whether an expression that has passed both is evaluated to a literal
of its type, and whether every operator gets operands that it expects.

A reference that lacks indices and is evaluated in a context that does not supply
them stands for the condition of its variable: its value is boolean whatever the type
of the variable is.  The values of all other expressions are of their static types or
errors.
-/

namespace Mkfli4l

open Lib Exec

/-! ### Resolving and checking -/

/-- `expr_get_type` after a successful type check. -/
def Expr.type : Expr → ExprType
  | literal value => value.type
  | var type _ => type
  | logicalNot _ => .boolean
  | logicalAnd _ _ => .boolean
  | logicalOr _ _ => .boolean
  | equal _ _ => .boolean
  | unequal _ _ => .boolean
  | regexMatch _ _ => .boolean
  | tobool _ => .boolean

def exprVariableResolve (D : Defs) (lookup : CString → Option VarId) (type : ExprType) :
    VarRef → Option Expr
  | .resolved inst => some (.var type (.resolved inst))
  | .unresolved name =>
      (varInstanceCreateFromString lookup name).bind fun inst =>
        (D.vars inst.var).map fun var =>
          .var (D.types.vartypeGetExpressionType var.type) (.resolved inst)

def exprResolveVariableExpressions (D : Defs) (lookup : CString → Option VarId) :
    Expr → Option Expr
  | .literal value => some (.literal value)
  | .var type ref => exprVariableResolve D lookup type ref
  | .logicalNot arg => do
      return .logicalNot (← exprResolveVariableExpressions D lookup arg)
  | .logicalAnd left right => do
      return .logicalAnd (← exprResolveVariableExpressions D lookup left)
        (← exprResolveVariableExpressions D lookup right)
  | .logicalOr left right => do
      return .logicalOr (← exprResolveVariableExpressions D lookup left)
        (← exprResolveVariableExpressions D lookup right)
  | .equal left right => do
      return .equal (← exprResolveVariableExpressions D lookup left)
        (← exprResolveVariableExpressions D lookup right)
  | .unequal left right => do
      return .unequal (← exprResolveVariableExpressions D lookup left)
        (← exprResolveVariableExpressions D lookup right)
  | .regexMatch arg regex => do
      return .regexMatch (← exprResolveVariableExpressions D lookup arg)
        (← exprResolveVariableExpressions D lookup regex)
  | .tobool arg => do
      return .tobool (← exprResolveVariableExpressions D lookup arg)

/-- One of the types is assignable to the other one. -/
def comparableTypes (type1 type2 : ExprType) : Bool :=
  exprIsAssignableTo type1 type2 || exprIsAssignableTo type2 type1

def exprTypecheckExpression : Expr → Bool
  | .literal _ => true
  | .var type _ => type != .unknown
  | .logicalNot arg => exprTypecheckExpression arg && exprIsAssignableTo arg.type .boolean
  | .logicalAnd left right | .logicalOr left right =>
      exprTypecheckExpression left && exprTypecheckExpression right &&
        exprIsAssignableTo left.type .boolean && exprIsAssignableTo right.type .boolean
  | .equal left right | .unequal left right =>
      exprTypecheckExpression left && exprTypecheckExpression right &&
        comparableTypes left.type right.type
  | .regexMatch arg regex => exprTypecheckExpression arg && exprTypecheckExpression regex
  | .tobool arg => exprTypecheckExpression arg && exprIsAssignableTo arg.type .boolean

/-- The references that are resolved carry the types of their variables, as
`expr_variable_create` and `expr_variable_resolve` set them. -/
def Expr.WellBuilt (D : Defs) : Expr → Prop
  | literal _ => True
  | var _ (.unresolved _) => True
  | var type (.resolved inst) =>
      ∃ var, D.vars inst.var = some var ∧ type = D.types.vartypeGetExpressionType var.type
  | logicalNot arg => arg.WellBuilt D
  | logicalAnd left right => left.WellBuilt D ∧ right.WellBuilt D
  | logicalOr left right => left.WellBuilt D ∧ right.WellBuilt D
  | equal left right => left.WellBuilt D ∧ right.WellBuilt D
  | unequal left right => left.WellBuilt D ∧ right.WellBuilt D
  | regexMatch arg regex => arg.WellBuilt D ∧ regex.WellBuilt D
  | tobool arg => arg.WellBuilt D

theorem Expr.WellBuilt.resolve {D : Defs} {lookup : CString → Option VarId} {e e' : Expr}
    (h : e.WellBuilt D) (hresolve : exprResolveVariableExpressions D lookup e = some e') :
    e'.WellBuilt D := by
  induction e generalizing e' with
  | literal value =>
      obtain rfl := Option.some.inj hresolve
      trivial
  | var type ref =>
      cases ref with
      | resolved inst =>
          obtain rfl := Option.some.inj hresolve
          exact h
      | unresolved name =>
          obtain ⟨inst, -, hmap⟩ := Option.bind_eq_some_iff.mp hresolve
          obtain ⟨var, hvar, rfl⟩ := Option.map_eq_some_iff.mp hmap
          exact ⟨var, hvar, rfl⟩
  | logicalNot arg ih =>
      obtain ⟨arg', harg, hrest⟩ := Option.bind_eq_some_iff.mp hresolve
      obtain rfl := Option.some.inj hrest
      have harg' := ih h harg
      exact harg'
  | tobool arg ih =>
      obtain ⟨arg', harg, hrest⟩ := Option.bind_eq_some_iff.mp hresolve
      obtain rfl := Option.some.inj hrest
      have harg' := ih h harg
      exact harg'
  | logicalAnd left right ihl ihr | logicalOr left right ihl ihr | equal left right ihl ihr
  | unequal left right ihl ihr | regexMatch left right ihl ihr =>
      obtain ⟨left', hleft, hrest⟩ := Option.bind_eq_some_iff.mp hresolve
      obtain ⟨right', hright, hrest⟩ := Option.bind_eq_some_iff.mp hrest
      obtain rfl := Option.some.inj hrest
      exact ⟨ihl h.1 hleft, ihr h.2 hright⟩

/-! ### Which operands an evaluation meets -/

/-- The reference lacks indices, and a context with `k` indices does not supply them. -/
def leftIncomplete (D : Defs) (k : Nat) (inst : VarInstance) : Bool :=
  (D.vars inst.var).any fun var => decide (inst.indices.length < var.level) && decide (k < var.level)

/-- The type of the values of an expression in a context with `k` indices. -/
def Expr.typeIn (D : Defs) (k : Nat) : Expr → ExprType
  | var type (.resolved inst) => if leftIncomplete D k inst then .boolean else type
  | e => e.type

theorem Expr.typeIn_resolved (D : Defs) (k : Nat) (type : ExprType) (inst : VarInstance) :
    (Expr.var type (.resolved inst)).typeIn D k =
      if leftIncomplete D k inst then .boolean else type := rfl

/-- Evaluating the first expression from the first state evaluates the second one, which is a
part of it, from the second state. -/
inductive Evaluates (D : Defs) (c : Callees) (context : VarInstance) :
    Expr → Slots → Expr → Slots → Prop
  | here (e : Expr) (s : Slots) : Evaluates D c context e s e s
  | logicalNot {arg e' : Expr} {s s' : Slots} (h : Evaluates D c context arg s e' s') :
      Evaluates D c context (.logicalNot arg) s e' s'
  | tobool {arg e' : Expr} {s s' : Slots} (h : Evaluates D c context arg s e' s') :
      Evaluates D c context (.tobool arg) s e' s'
  | andLeft {left right e' : Expr} {s s' : Slots} (h : Evaluates D c context left s e' s') :
      Evaluates D c context (.logicalAnd left right) s e' s'
  | andRight {left right e' : Expr} {s s₁ s' : Slots} {lit : Literal}
      (hleft : exprEvaluate D c left context s = .ok (lit, s₁))
      (hvalue : exprGetBooleanValue lit = some true)
      (h : Evaluates D c context right s₁ e' s') :
      Evaluates D c context (.logicalAnd left right) s e' s'
  | orLeft {left right e' : Expr} {s s' : Slots} (h : Evaluates D c context left s e' s') :
      Evaluates D c context (.logicalOr left right) s e' s'
  | orRight {left right e' : Expr} {s s₁ s' : Slots} {lit : Literal}
      (hleft : exprEvaluate D c left context s = .ok (lit, s₁))
      (hvalue : exprGetBooleanValue lit = some false)
      (h : Evaluates D c context right s₁ e' s') :
      Evaluates D c context (.logicalOr left right) s e' s'
  | equalLeft {left right e' : Expr} {s s' : Slots} (h : Evaluates D c context left s e' s') :
      Evaluates D c context (.equal left right) s e' s'
  | equalRight {left right e' : Expr} {s s₁ s' : Slots} {lit : Literal}
      (hleft : exprEvaluate D c left context s = .ok (lit, s₁))
      (h : Evaluates D c context right s₁ e' s') :
      Evaluates D c context (.equal left right) s e' s'
  | unequalLeft {left right e' : Expr} {s s' : Slots} (h : Evaluates D c context left s e' s') :
      Evaluates D c context (.unequal left right) s e' s'
  | unequalRight {left right e' : Expr} {s s₁ s' : Slots} {lit : Literal}
      (hleft : exprEvaluate D c left context s = .ok (lit, s₁))
      (h : Evaluates D c context right s₁ e' s') :
      Evaluates D c context (.unequal left right) s e' s'
  | matchArg {arg regex e' : Expr} {s s' : Slots} (h : Evaluates D c context arg s e' s') :
      Evaluates D c context (.regexMatch arg regex) s e' s'
  | matchRegex {arg regex e' : Expr} {s s₁ s' : Slots} {lit : Literal}
      (harg : exprEvaluate D c arg context s = .ok (lit, s₁)) (hvalue : lit.type ≠ .error)
      (h : Evaluates D c context regex s₁ e' s') :
      Evaluates D c context (.regexMatch arg regex) s e' s'

/-- The types of operands that an operator expects. -/
def expectsOperand : Expr → ExprType → Bool
  | .logicalNot _, type | .tobool _, type | .logicalAnd _ _, type | .logicalOr _ _, type =>
      exprIsAssignableTo type .boolean
  | .regexMatch _ _, type => exprIsAssignableTo type .string
  | _, _ => true

/-- The pairs of types that an operator expects. -/
def expectsOperands : Expr → ExprType → ExprType → Bool
  | .equal _ _, type1, type2 | .unequal _ _, type1, type2 => comparableTypes type1 type2
  | _, _, _ => true

/-- The operands of an operator. -/
def Expr.operands : Expr → List Expr
  | literal _ => []
  | var _ _ => []
  | logicalNot arg => [arg]
  | tobool arg => [arg]
  | logicalAnd left right => [left, right]
  | logicalOr left right => [left, right]
  | equal left right => [left, right]
  | unequal left right => [left, right]
  | regexMatch arg regex => [arg, regex]

/-- Evaluating an expression is type-safe: the result is an error or assignable to the type of
the expression, and every operator that is evaluated gets operands that it expects. -/
structure TypeSafe (D : Defs) (c : Callees) (context : VarInstance) (e : Expr) (s : Slots) :
    Prop where
  result : ∀ lit s', exprEvaluate D c e context s = .ok (lit, s') →
    lit = .error ∨ exprIsAssignableTo lit.type e.type = true
  operand : ∀ op s₁, Evaluates D c context e s op s₁ → ∀ arg ∈ op.operands, ∀ s₂ lit s₃,
    Evaluates D c context op s₁ arg s₂ → exprEvaluate D c arg context s₂ = .ok (lit, s₃) →
      expectsOperand op lit.type = true
  operands : ∀ op left right s₁, Evaluates D c context e s op s₁ → op.operands = [left, right] →
    ∀ lit₁ s₂ lit₂ s₃, exprEvaluate D c left context s₁ = .ok (lit₁, s₂) →
      exprEvaluate D c right context s₂ = .ok (lit₂, s₃) →
      expectsOperands op lit₁.type lit₂.type = true

/-- No reference that the context leaves incomplete gets in the way: the expression is not a
reference to an array of numbers that is replaced by a boolean value, and no comparison is made
of two proper values whose types do not fit if incomplete references count as boolean. -/
structure NoMisfit (D : Defs) (c : Callees) (context : VarInstance) (e : Expr) (s : Slots) :
    Prop where
  reference : ∀ inst, e = .var .integer (.resolved inst) →
    leftIncomplete D context.indices.length inst = true →
    ∀ b s', exprEvaluate D c e context s ≠ .ok (.boolean b, s')
  comparison : ∀ left right s₁, (Evaluates D c context e s (.equal left right) s₁ ∨
      Evaluates D c context e s (.unequal left right) s₁) →
    ∀ lit₁ s₂ lit₂ s₃, exprEvaluate D c left context s₁ = .ok (lit₁, s₂) →
      exprEvaluate D c right context s₂ = .ok (lit₂, s₃) → lit₁ ≠ .error → lit₂ ≠ .error →
      comparableTypes (left.typeIn D context.indices.length)
        (right.typeIn D context.indices.length) = true

/-! ### The types of values -/

section values

variable {D : Defs} {c : Callees} {context : VarInstance} {s s' : Slots} {lit : Literal}

/-- The literal is an error or of the given type. -/
def Literal.OfType (lit : Literal) (type : ExprType) : Prop := lit = .error ∨ lit.type = type

theorem Literal.type_eq_error {lit : Literal} (h : lit.type = .error) : lit = .error := by
  cases lit with
  | error => rfl
  | _ => exact nomatch h

theorem Literal.OfType.assignable {type target : ExprType} (h : lit.OfType type)
    (htype : exprIsAssignableTo type target = true) :
    exprIsAssignableTo lit.type target = true := by
  rcases h with rfl | h
  · simp [exprIsAssignableTo, Literal.type]
  · rw [h]
    exact htype

theorem Literal.ofType_boolean_elim (value : Option Bool) (f : Bool → Bool) :
    (value.elim Literal.error fun b => .boolean (f b)).OfType .boolean := by
  cases value with
  | none => exact Or.inl rfl
  | some b => exact Or.inr rfl

theorem literalOfValue_ofType {type : ExprType} {value : Option VarValue}
    (h : literalOfValue type value s = .ok (lit, s')) : lit.OfType type := by
  rcases value with _ | ⟨_ | text, _, _, _⟩
  · obtain ⟨rfl, -⟩ := pure_ok_iff.mp h
    exact Or.inl rfl
  · exact (throw_ok_iff.mp h).elim
  · cases type with
    | unknown => exact (throw_ok_iff.mp h).elim
    | error => exact (throw_ok_iff.mp h).elim
    | string =>
        obtain ⟨rfl, -⟩ := pure_ok_iff.mp h
        exact Or.inr rfl
    | integer =>
        obtain ⟨rfl, -⟩ := pure_ok_iff.mp h
        cases varValueConvertToInteger text with
        | none => exact Or.inl rfl
        | some n => exact Or.inr rfl
    | boolean =>
        obtain ⟨rfl, -⟩ := pure_ok_iff.mp h
        cases varValueConvertToBoolean text with
        | none => exact Or.inl rfl
        | some b => exact Or.inr rfl

theorem compareLiterals_ofType {negate : Bool} {arg1 arg2 : Literal}
    (h : compareLiterals negate arg1 arg2 s = .ok (lit, s')) : lit.OfType .boolean := by
  unfold compareLiterals at h
  cases hunify : unifyTypes arg1 arg2 with
  | none =>
      rw [hunify] at h
      exact (throw_ok_iff.mp h).elim
  | some values =>
      rw [hunify] at h
      obtain ⟨rfl, -⟩ := pure_ok_iff.mp h
      exact Literal.ofType_boolean_elim _ _

theorem matchLiterals_ofType {val regex : CString}
    (h : matchLiterals D c val regex s = .ok (lit, s')) : lit.OfType .boolean := by
  unfold matchLiterals at h
  cases hmatch : D.types.regexMatch regex val with
  | invalid =>
      rw [hmatch] at h
      obtain ⟨rfl, -⟩ := pure_ok_iff.mp h
      exact Or.inl rfl
  | noMatch =>
      rw [hmatch] at h
      obtain ⟨rfl, -⟩ := pure_ok_iff.mp h
      exact Or.inr rfl
  | groups texts =>
      rw [hmatch] at h
      cases harray : D.matchArray with
      | none =>
          rw [harray] at h
          exact (throw_ok_iff.mp h).elim
      | some m =>
          rw [harray] at h
          obtain ⟨cleared, s₁, -, hrest⟩ := bind_ok_iff.mp h
          cases cleared with
          | true =>
              obtain ⟨_, s₂, -, hrest⟩ := bind_ok_iff.mp hrest
              obtain ⟨rfl, -⟩ := pure_ok_iff.mp hrest
              exact Or.inr rfl
          | false =>
              obtain ⟨rfl, -⟩ := pure_ok_iff.mp hrest
              exact Or.inl rfl

/-- The callees evaluate the conditions of variables to boolean values. -/
def Callees.Boolean (D : Defs) (c : Callees) : Prop :=
  ∀ v context s lit s', c.exprEvaluate (D.condition v) context s = .ok (lit, s') →
    lit.OfType .boolean

theorem exprVariableEvaluate_ofType (hc : c.Boolean D) {type : ExprType} {ref : VarRef}
    (h : exprVariableEvaluate D c type ref context s = .ok (lit, s')) :
    lit.OfType ((Expr.var type ref).typeIn D context.indices.length) := by
  cases ref with
  | unresolved name => exact (throw_ok_iff.mp h).elim
  | resolved inst =>
      obtain ⟨var, s₁, hderef, hrest⟩ := bind_ok_iff.mp h
      obtain ⟨hvar, rfl⟩ := Defs.deref_ok_iff.mp hderef
      rw [Expr.typeIn_resolved, leftIncomplete, hvar, Option.any_some]
      by_cases hshort : inst.indices.length < var.level
      · rw [if_pos hshort] at hrest
        by_cases henough : var.level ≤ context.indices.length
        · rw [if_pos henough] at hrest
          obtain ⟨value, s₂, -, hvalue⟩ := bind_ok_iff.mp hrest
          rw [if_neg (by simp [Nat.not_lt.mpr henough])]
          exact literalOfValue_ofType hvalue
        · rw [if_neg henough] at hrest
          rw [if_pos (by simp [hshort, Nat.not_le.mp henough])]
          exact hc _ _ _ _ _ hrest
      · rw [if_neg hshort] at hrest
        obtain ⟨value, s₂, -, hvalue⟩ := bind_ok_iff.mp hrest
        rw [if_neg (by simp [hshort])]
        exact literalOfValue_ofType hvalue

theorem exprEvaluate_ofType (hc : c.Boolean D) {e : Expr}
    (h : exprEvaluate D c e context s = .ok (lit, s')) :
    lit.OfType (e.typeIn D context.indices.length) := by
  cases e with
  | literal value =>
      obtain ⟨rfl, -⟩ := pure_ok_iff.mp h
      exact Or.inr rfl
  | var type ref => exact exprVariableEvaluate_ofType hc h
  | logicalNot arg =>
      obtain ⟨result, s₁, -, hrest⟩ := bind_ok_iff.mp h
      obtain ⟨rfl, -⟩ := pure_ok_iff.mp hrest
      exact Literal.ofType_boolean_elim _ _
  | tobool arg =>
      obtain ⟨result, s₁, -, hrest⟩ := bind_ok_iff.mp h
      obtain ⟨rfl, -⟩ := pure_ok_iff.mp hrest
      exact Or.inr rfl
  | logicalAnd left right | logicalOr left right =>
      obtain ⟨result, s₁, -, hrest⟩ := bind_ok_iff.mp h
      rcases hvalue : exprGetBooleanValue result with _ | _ | _ <;> rw [hvalue] at hrest
      all_goals
        first
        | obtain ⟨rfl, -⟩ := pure_ok_iff.mp hrest
          first
          | exact Or.inl rfl
          | exact Or.inr rfl
        | obtain ⟨result', s₂, -, hlast⟩ := bind_ok_iff.mp hrest
          obtain ⟨rfl, -⟩ := pure_ok_iff.mp hlast
          exact Literal.ofType_boolean_elim _ id
  | equal left right | unequal left right =>
      obtain ⟨arg1, s₁, -, hrest⟩ := bind_ok_iff.mp h
      obtain ⟨arg2, s₂, -, hlast⟩ := bind_ok_iff.mp hrest
      exact compareLiterals_ofType hlast
  | regexMatch arg regex =>
      obtain ⟨argResult, s₁, -, hrest⟩ := bind_ok_iff.mp h
      split at hrest
      · next herror =>
          obtain ⟨rfl, -⟩ := pure_ok_iff.mp hrest
          exact Or.inl (Literal.type_eq_error herror)
      · obtain ⟨regexResult, s₂, -, hlast⟩ := bind_ok_iff.mp hrest
        split at hlast
        · next herror =>
            obtain ⟨rfl, -⟩ := pure_ok_iff.mp hlast
            exact Or.inl (Literal.type_eq_error herror)
        · exact matchLiterals_ofType hlast

theorem Expr.typeIn_of_boolean {e : Expr} (k : Nat) (h : e.type = .boolean) :
    e.typeIn D k = .boolean := by
  cases e with
  | var type ref =>
      cases ref with
      | unresolved name => exact h
      | resolved inst =>
          rw [Expr.typeIn_resolved]
          split
          · rfl
          · exact h
  | _ => exact h

theorem calls_boolean {D : Defs} (hcond : ∀ v, (D.condition v).type = .boolean) (depth : Nat) :
    (calls D depth).Boolean D := by
  induction depth with
  | zero =>
      intro v context s lit s' h
      exact (throw_ok_iff.mp h).elim
  | succ depth ih =>
      intro v context s lit s' h
      have htype := exprEvaluate_ofType ih h
      rwa [Expr.typeIn_of_boolean _ (hcond v)] at htype

end values

/-! ### Type soundness -/

section soundness

variable {D : Defs} {c : Callees} {context : VarInstance} {e e' : Expr} {s s' : Slots}

theorem Evaluates.typechecks (h : Evaluates D c context e s e' s')
    (htype : exprTypecheckExpression e = true) : exprTypecheckExpression e' = true := by
  induction h with
  | here => exact htype
  | logicalNot _ ih | tobool _ ih | matchArg _ ih =>
      exact ih (Bool.and_eq_true_iff.mp htype).1
  | matchRegex _ _ _ ih => exact ih (Bool.and_eq_true_iff.mp htype).2
  | andLeft _ ih | orLeft _ ih =>
      simp only [exprTypecheckExpression, Bool.and_eq_true] at htype
      exact ih htype.1.1.1
  | andRight _ _ _ ih | orRight _ _ _ ih =>
      simp only [exprTypecheckExpression, Bool.and_eq_true] at htype
      exact ih htype.1.1.2
  | equalLeft _ ih | unequalLeft _ ih =>
      simp only [exprTypecheckExpression, Bool.and_eq_true] at htype
      exact ih htype.1.1
  | equalRight _ _ ih | unequalRight _ _ ih =>
      simp only [exprTypecheckExpression, Bool.and_eq_true] at htype
      exact ih htype.1.2

theorem Expr.typeIn_cases (D : Defs) (k : Nat) (e : Expr) :
    e.typeIn D k = e.type ∨
      ∃ type inst, e = .var type (.resolved inst) ∧ leftIncomplete D k inst = true ∧
        e.typeIn D k = .boolean := by
  cases e with
  | var type ref =>
      cases ref with
      | unresolved name => exact Or.inl rfl
      | resolved inst =>
          cases hleft : leftIncomplete D k inst with
          | true => exact Or.inr ⟨type, inst, rfl, hleft, by simp [Expr.typeIn_resolved, hleft]⟩
          | false => exact Or.inl (by simp [Expr.typeIn_resolved, hleft, Expr.type])
  | _ => exact Or.inl rfl

theorem Expr.typeIn_assignable (k : Nat)
    (h : exprIsAssignableTo e.type .boolean = true) :
    exprIsAssignableTo (e.typeIn D k) .boolean = true := by
  rcases Expr.typeIn_cases D k e with heq | ⟨-, -, -, -, heq⟩
  · rw [heq]
    exact h
  · rw [heq]
    rfl

theorem expectsOperand_of_typechecks (hc : c.Boolean D) {op arg : Expr} {lit : Literal}
    (htype : exprTypecheckExpression op = true) (harg : arg ∈ op.operands)
    (heval : exprEvaluate D c arg context s = .ok (lit, s')) :
    expectsOperand op lit.type = true := by
  have hvalue := exprEvaluate_ofType hc heval
  have hboolean : exprIsAssignableTo arg.type .boolean = true →
      exprIsAssignableTo lit.type .boolean = true :=
    fun h => hvalue.assignable (Expr.typeIn_assignable _ h)
  cases op with
  | literal value => exact absurd harg List.not_mem_nil
  | var type ref => exact absurd harg List.not_mem_nil
  | logicalNot arg' | tobool arg' =>
      obtain rfl := List.mem_singleton.mp harg
      exact hboolean (Bool.and_eq_true_iff.mp htype).2
  | logicalAnd left right | logicalOr left right =>
      simp only [exprTypecheckExpression, Bool.and_eq_true] at htype
      rcases List.mem_pair.mp harg with rfl | rfl
      · exact hboolean htype.1.2
      · exact hboolean htype.2
  | equal left right => rfl
  | unequal left right => rfl
  | regexMatch arg' regex => simp [expectsOperand, exprIsAssignableTo]

theorem comparable_iff (hc : c.Boolean D) {left right : Expr} {lit₁ lit₂ : Literal}
    {s₁ s₂ s₃ : Slots} (hleft : exprEvaluate D c left context s₁ = .ok (lit₁, s₂))
    (hright : exprEvaluate D c right context s₂ = .ok (lit₂, s₃)) :
    comparableTypes lit₁.type lit₂.type = true ↔
      (lit₁ ≠ .error → lit₂ ≠ .error →
        comparableTypes (left.typeIn D context.indices.length)
          (right.typeIn D context.indices.length) = true) := by
  rcases exprEvaluate_ofType hc hleft with rfl | htype₁
  · simp [comparableTypes, exprIsAssignableTo, Literal.type]
  rcases exprEvaluate_ofType hc hright with rfl | htype₂
  · simp [comparableTypes, exprIsAssignableTo, Literal.type]
  rw [← htype₁, ← htype₂]
  refine ⟨fun h _ _ => h, fun h => ?_⟩
  by_cases herror₁ : lit₁ = .error
  · rw [herror₁]
    simp [comparableTypes, exprIsAssignableTo, Literal.type]
  by_cases herror₂ : lit₂ = .error
  · rw [herror₂]
    simp [comparableTypes, exprIsAssignableTo, Literal.type]
  exact h herror₁ herror₂

end soundness

/-- The types of variables in expressions: a type is boolean, integer or string. -/
def TypeSystem.Proper (types : TypeSystem) : Prop :=
  ∀ type, types.vartypeGetExpressionType type = .boolean ∨
    types.vartypeGetExpressionType type = .integer ∨ types.vartypeGetExpressionType type = .string

/-- For every expression that resolves and passes the type check, evaluation in a context and a
state is type-safe if and only if no incomplete reference gets in the way. -/
theorem typeSafe_iff_noMisfit {D : Defs} {lookup : CString → Option VarId} {e₀ e : Expr}
    (hproper : D.types.Proper) (hcond : ∀ v, (D.condition v).type = .boolean)
    (hbuilt : e₀.WellBuilt D) (hresolve : exprResolveVariableExpressions D lookup e₀ = some e)
    (htype : exprTypecheckExpression e = true) (depth : Nat) (context : VarInstance) (s : Slots) :
    TypeSafe D (calls D depth) context e s ↔ NoMisfit D (calls D depth) context e s := by
  have hc := calls_boolean hcond depth
  have hbuilt' := hbuilt.resolve hresolve
  constructor
  · intro hsafe
    refine ⟨?_, ?_⟩
    · rintro inst rfl - b s' heval
      rcases hsafe.result _ _ heval with herror | hassign
      · exact nomatch herror
      · exact nomatch hassign
    · intro left right s₁ hreach lit₁ s₂ lit₂ s₃ hleft hright
      refine (comparable_iff hc hleft hright).mp ?_
      rcases hreach with hreach | hreach
      · exact hsafe.operands _ left right s₁ hreach rfl lit₁ s₂ lit₂ s₃ hleft hright
      · exact hsafe.operands _ left right s₁ hreach rfl lit₁ s₂ lit₂ s₃ hleft hright
  · intro hfit
    refine ⟨?_, ?_, ?_⟩
    · intro lit s' heval
      rcases exprEvaluate_ofType hc heval with rfl | hlit
      · exact Or.inl rfl
      right
      rcases Expr.typeIn_cases D context.indices.length e with heq | ⟨type, inst, rfl, hleft, heq⟩
      · rw [hlit, heq]
        simp [exprIsAssignableTo]
      · -- an incomplete reference, whose value is boolean
        rw [heq] at hlit
        rw [hlit]
        obtain ⟨var, -, hvarType⟩ := hbuilt'
        rcases hproper var.type with hbool | hint | hstring
        · rw [Expr.type, hvarType, hbool]
          rfl
        · rw [hint] at hvarType
          subst hvarType
          cases lit with
          | boolean b => exact absurd heval (hfit.reference inst rfl hleft b s')
          | error => exact nomatch hlit
          | string value => exact nomatch hlit
          | integer value => exact nomatch hlit
        · rw [Expr.type, hvarType, hstring]
          rfl
    · intro op s₁ hreach arg harg s₂ lit s₃ _ heval
      exact expectsOperand_of_typechecks hc (hreach.typechecks htype) harg heval
    · intro op left right s₁ hreach hoperands lit₁ s₂ lit₂ s₃ hleft hright
      have hcomparison := hfit.comparison left right s₁
      cases op with
      | equal left' right' =>
          obtain ⟨rfl, rfl⟩ : left' = left ∧ right' = right := by simpa [Expr.operands] using hoperands
          exact (comparable_iff hc hleft hright).mpr
            (hcomparison (Or.inl hreach) lit₁ s₂ lit₂ s₃ hleft hright)
      | unequal left' right' =>
          obtain ⟨rfl, rfl⟩ : left' = left ∧ right' = right := by simpa [Expr.operands] using hoperands
          exact (comparable_iff hc hleft hright).mpr
            (hcomparison (Or.inr hreach) lit₁ s₂ lit₂ s₃ hleft hright)
      | _ => rfl

/-! ### References to an array without indices -/

theorem sampleTypes_proper : sampleTypes.Proper := by
  intro type
  by_cases htype : type = 0
  · exact Or.inr (Or.inl (by simp [sampleTypes, htype]))
  · exact Or.inr (Or.inr (by simp [sampleTypes, htype]))

/-- The names of the sample variables. -/
def sampleNames (name : CString) : Option VarId := sampleVars.findIdx? fun var => var.name = name

/-- `X_N == 5`, evaluated without indices, is type-safe. -/
theorem typeSafe_iff_noMisfit_X_N :
    TypeSafe (sampleDefs (.literal (.boolean true)))
      (calls (sampleDefs (.literal (.boolean true))) 8) ⟨0, []⟩
      (.equal (.var .integer (.resolved ⟨0, []⟩)) (.literal (.integer 5))) Slots.init := by
  let D := sampleDefs (.literal (.boolean true))
  let e₀ : Expr := .equal (.var .unknown (.unresolved "X_N".toList)) (.literal (.integer 5))
  have hbuilt : e₀.WellBuilt D := ⟨trivial, trivial⟩
  have hresolve : exprResolveVariableExpressions D sampleNames e₀ =
      some (.equal (.var .integer (.resolved ⟨0, []⟩)) (.literal (.integer 5))) := by decide
  refine (typeSafe_iff_noMisfit sampleTypes_proper (fun _ => rfl) hbuilt hresolve (by decide) 8
    ⟨0, []⟩ Slots.init).mpr ⟨fun _ h => (nomatch h), ?_⟩
  rintro left right s₁ (hreach | hreach) lit₁ s₂ lit₂ s₃ - - - -
  · cases hreach with
    | here => rfl
    | equalLeft h => cases h
    | equalRight _ h => cases h
  · cases hreach with
    | equalLeft h => cases h
    | equalRight _ h => cases h

/-- `X_% == 5` resolves and passes the type check.  Evaluated without indices, the reference
yields the boolean value of the condition of `X_%`, which cannot be compared with a number. -/
theorem typeSafe_broken_by_incomplete_reference :
    ∃ e, exprResolveVariableExpressions (sampleDefs (.literal (.boolean true))) sampleNames
        (.equal (.var .unknown (.unresolved "X_%".toList)) (.literal (.integer 5))) = some e ∧
      exprTypecheckExpression e = true ∧
      exprEvaluate (sampleDefs (.literal (.boolean true)))
        (calls (sampleDefs (.literal (.boolean true))) 8) e ⟨0, []⟩ Slots.init =
          .error .nullPointer ∧
      ¬ TypeSafe (sampleDefs (.literal (.boolean true)))
        (calls (sampleDefs (.literal (.boolean true))) 8) ⟨0, []⟩ e Slots.init := by
  refine ⟨.equal (.var .string (.resolved ⟨1, []⟩)) (.literal (.integer 5)), by decide, by decide,
    rfl, fun hsafe => ?_⟩
  have hoperands := hsafe.operands _ _ _ Slots.init (.here _ _) rfl (.boolean true) Slots.init
    (.integer 5) Slots.init rfl rfl
  exact absurd hoperands (by decide)

end Mkfli4l
