import Mkfli4l.Expression.Typecheck
import Mkfli4l.Var.Settled

/-!
# The conditions of array bounds

`var_compute_condition` (`var/core.c`) assembles the condition of a variable from its
properties and from the conditions of its clients: an array bound is enabled if its own
condition holds and if one of the arrays that it bounds is enabled.  Literal conditions
and conditions that occur twice are left out of the expression.

The expression is evaluated in the context of an instance of the bound, which has fewer
indices than the instances of its clients.  Where this makes the evaluation of a client's
condition fail, the clients behind it are not asked any more.
-/

namespace Mkfli4l

open Lib

/-! ### Assembling conditions -/

/-- The literal TRUE. -/
def exprTrue : Expr := .literal (.boolean true)

/-- The literal FALSE. -/
def exprFalse : Expr := .literal (.boolean false)

/-- The loop of `var_compute_condition` over the conditions of the clients; `none` if one of
them is the literal TRUE. -/
def collectConditions : List Expr → List Expr → Option (List Expr)
  | expressions, [] => some expressions
  | expressions, cond :: conds =>
      if cond = exprTrue then none
      else if cond = exprFalse then collectConditions expressions conds
      else if cond ∈ expressions then collectConditions expressions conds
      else collectConditions (expressions ++ [cond]) conds

/-- The loop of `var_compute_condition` over the collected expressions. -/
def joinConditions (expressions : List Expr) : Option Expr :=
  expressions.foldl
    (fun result expr => some (result.elim expr fun result => .logicalOr (.tobool result) expr)) none

/-- The part of `var_compute_condition` that assembles the condition. -/
def assembleCondition (own : Expr) (clients : List Expr) : Expr :=
  if own = exprFalse then exprFalse
  else if clients = [] then own
  else
    match collectConditions [] clients with
    | none => own
    | some expressions =>
        match joinConditions expressions with
        | none => exprFalse
        | some result => if own = exprTrue then result else .logicalAnd own result

/-- The part of `var_compute_condition` that resolves and checks the condition; the flag is
`cond_valid`. -/
def checkCondition (D : Defs) (lookup : CString → Option VarId) (condition : Expr) : Expr × Bool :=
  match exprResolveVariableExpressions D lookup condition with
  | none => (exprFalse, false)
  | some condition =>
      if exprTypecheckExpression condition = true ∧ condition.type = .boolean then (condition, true)
      else (exprFalse, false)

def varComputeCondition (D : Defs) (lookup : CString → Option VarId) (var : Var) : Expr × Bool :=
  checkCondition D lookup (assembleCondition var.props.condition (var.varNClients.map D.condition))

/-- The conditions of the variables are those that `var_get_condition` computes. -/
def ComputesConditions (D : Defs) (lookup : CString → Option VarId) : Prop :=
  ∀ v var, D.vars v = some var → D.condition v = (varComputeCondition D lookup var).1

/-! ### Resolving what has been resolved -/

variable {e : Expr} {es es' conds : List Expr}

section resolved

variable {D : Defs} {lookup : CString → Option VarId}

variable {e' : Expr}

theorem exprResolveVariableExpressions_idem (h : exprResolveVariableExpressions D lookup e = some e') :
    exprResolveVariableExpressions D lookup e' = some e' := by
  induction e generalizing e' with
  | literal value =>
      obtain rfl := Option.some.inj h
      rfl
  | var type ref =>
      cases ref with
      | resolved inst =>
          obtain rfl := Option.some.inj h
          rfl
      | unresolved name =>
          obtain ⟨inst, -, hmap⟩ := Option.bind_eq_some_iff.mp h
          obtain ⟨var, -, rfl⟩ := Option.map_eq_some_iff.mp hmap
          rfl
  | logicalNot arg ih | tobool arg ih =>
      obtain ⟨arg', harg, hrest⟩ := Option.bind_eq_some_iff.mp h
      obtain rfl := Option.some.inj hrest
      simp [exprResolveVariableExpressions, ih harg]
  | logicalAnd left right ihl ihr | logicalOr left right ihl ihr | equal left right ihl ihr
  | unequal left right ihl ihr | regexMatch left right ihl ihr =>
      obtain ⟨left', hleft, hrest⟩ := Option.bind_eq_some_iff.mp h
      obtain ⟨right', hright, hrest⟩ := Option.bind_eq_some_iff.mp hrest
      obtain rfl := Option.some.inj hrest
      simp [exprResolveVariableExpressions, ihl hleft, ihr hright]

theorem eq_literal_iff_of_resolve {value : Literal}
    (h : exprResolveVariableExpressions D lookup e = some e') :
    e' = .literal value ↔ e = .literal value := by
  cases e with
  | literal value' =>
      obtain rfl := Option.some.inj h
      rfl
  | var type ref =>
      cases ref with
      | resolved inst =>
          obtain rfl := Option.some.inj h
          rfl
      | unresolved name =>
          obtain ⟨inst, -, hmap⟩ := Option.bind_eq_some_iff.mp h
          obtain ⟨var, -, rfl⟩ := Option.map_eq_some_iff.mp hmap
          simp
  | logicalNot arg | tobool arg =>
      obtain ⟨arg', -, hrest⟩ := Option.bind_eq_some_iff.mp h
      obtain rfl := Option.some.inj hrest
      simp
  | logicalAnd left right | logicalOr left right | equal left right | unequal left right
  | regexMatch left right =>
      obtain ⟨left', -, hrest⟩ := Option.bind_eq_some_iff.mp h
      obtain ⟨right', -, hrest⟩ := Option.bind_eq_some_iff.mp hrest
      obtain rfl := Option.some.inj hrest
      simp

/-- An expression that is resolved, type-checked and boolean. -/
structure IsCondition (D : Defs) (lookup : CString → Option VarId) (e : Expr) : Prop where
  resolved : exprResolveVariableExpressions D lookup e = some e
  typechecked : exprTypecheckExpression e = true
  boolean : e.type = .boolean

theorem IsCondition.literal (b : Bool) : IsCondition D lookup (.literal (.boolean b)) :=
  ⟨rfl, rfl, rfl⟩

theorem checkCondition_isCondition (condition : Expr) :
    IsCondition D lookup (checkCondition D lookup condition).1 := by
  unfold checkCondition
  cases hresolve : exprResolveVariableExpressions D lookup condition with
  | none => exact IsCondition.literal false
  | some condition' =>
      dsimp only
      by_cases hcheck : exprTypecheckExpression condition' = true ∧ condition'.type = .boolean
      · rw [if_pos hcheck]
        exact ⟨exprResolveVariableExpressions_idem hresolve, hcheck.1, hcheck.2⟩
      · rw [if_neg hcheck]
        exact IsCondition.literal false

theorem checkCondition_of_resolve (hresolve : exprResolveVariableExpressions D lookup e = some e')
    (h : IsCondition D lookup e') : checkCondition D lookup e = (e', true) := by
  unfold checkCondition
  rw [hresolve]
  dsimp only
  rw [if_pos ⟨h.typechecked, h.boolean⟩]

end resolved

/-! ### Evaluating assembled conditions -/

/-- The expressions come back, in their order, up to the first one that is TRUE. -/
def Decided (D : Defs) (s : Slots) (context : VarInstance) : List Expr → Prop
  | [] => True
  | e :: es => ComesBack D s context e ∧ (¬ Holds D s context e → Decided D s context es)

theorem decided_append {D : Defs} {s : Slots} {context : VarInstance} :
    Decided D s context (es ++ es') ↔
      Decided D s context es ∧
        ((∀ e ∈ es, ¬ Holds D s context e) → Decided D s context es') := by
  induction es with
  | nil => simp [Decided]
  | cons e es ih =>
      simp only [List.cons_append, Decided, ih, List.forall_mem_cons]
      tauto

theorem Decided.comesBack {D : Defs} {s : Slots} {context : VarInstance}
    (h : Decided D s context es) (hnot : ∀ e ∈ es, ¬ Holds D s context e)
    (he : e ∈ es) : ComesBack D s context e := by
  induction es with
  | nil => exact nomatch he
  | cons e' es ih =>
      rcases List.mem_cons.mp he with rfl | hrest
      · exact h.1
      · exact ih (h.2 (hnot e' (by simp))) (fun x hx => hnot x (List.mem_cons_of_mem _ hx)) hrest

theorem exprGetBooleanValue_eq_some {lit : Literal} {b : Bool} :
    exprGetBooleanValue lit = some b ↔ lit = .boolean b := by
  cases lit with
  | error => simp [exprGetBooleanValue, exprCast, exprIsAssignableTo, Literal.type]
  | string value => simp [exprGetBooleanValue, exprCast, exprIsAssignableTo, Literal.type]
  | integer value => simp [exprGetBooleanValue, exprCast, exprIsAssignableTo, Literal.type]
  | boolean value => simp [exprGetBooleanValue, exprCast, exprIsAssignableTo, Literal.type]

theorem booleanLiteral_eq_true {lit : Literal} :
    booleanLiteral lit = .boolean true ↔ lit = .boolean true := by
  unfold booleanLiteral
  cases hbool : exprGetBooleanValue lit with
  | none =>
      have hne : lit ≠ .boolean true := by
        intro heq
        rw [exprGetBooleanValue_eq_some.mpr heq] at hbool
        contradiction
      simp [hne]
  | some b =>
      rw [exprGetBooleanValue_eq_some.mp hbool]
      simp

theorem getD_exprGetBooleanValue_eq_true {lit : Literal} :
    (exprGetBooleanValue lit).getD false = true ↔ lit = .boolean true := by
  rw [← exprGetBooleanValue_eq_some]
  cases exprGetBooleanValue lit with
  | none => simp
  | some b => simp

section evaluate

variable {D : Defs} {s s' : Slots} {context : VarInstance} {left right : Expr} {lit : Literal}

theorem yields_or_tobool_iff :
    Yields D s context (.logicalOr (.tobool left) right) lit s' ↔
      (Yields D s context left (.boolean true) s' ∧ lit = .boolean true) ∨
        ∃ result s₁ result', Yields D s context left result s₁ ∧ result ≠ .boolean true ∧
          Yields D s₁ context right result' s' ∧ lit = booleanLiteral result' := by
  simp only [yields_junction_iff fun c => exprEvaluate_or D c (.tobool left) right context,
    yields_tobool_iff]
  constructor
  · rintro ⟨_, s₁, ⟨result, hleft, rfl⟩, ⟨hbool, -⟩ | ⟨hbool, rfl, rfl⟩ | ⟨hbool, result', hright, rfl⟩⟩
    · exact nomatch hbool
    · rw [getD_exprGetBooleanValue_eq_true.mp (Option.some.inj hbool)] at hleft
      exact Or.inl ⟨hleft, rfl⟩
    · refine Or.inr ⟨result, s₁, result', hleft, ?_, hright, rfl⟩
      rintro rfl
      exact nomatch hbool
  · rintro (⟨hleft, rfl⟩ | ⟨result, s₁, result', hleft, hne, hright, rfl⟩)
    · exact ⟨_, s', ⟨_, hleft, rfl⟩, Or.inr (Or.inl ⟨rfl, rfl, rfl⟩)⟩
    · refine ⟨_, s₁, ⟨result, hleft, rfl⟩, Or.inr (Or.inr ⟨?_, result', hright, rfl⟩)⟩
      have hfalse : (exprGetBooleanValue result).getD false = false := by
        rw [← Bool.not_eq_true, getD_exprGetBooleanValue_eq_true]
        exact hne
      rw [hfalse]
      rfl

theorem comesBack_and_iff :
    ComesBack D s context (.logicalAnd left right) ↔ ComesBack D s context left ∧
      ∀ s₁, Yields D s context left (.boolean true) s₁ → ComesBack D s₁ context right := by
  have heval := fun c => exprEvaluate_and D c left right context
  constructor
  · rintro ⟨lit, hlit⟩
    obtain ⟨s', hrun⟩ := hlit.yields
    obtain ⟨result, s₁, hleft, hcases⟩ := (yields_junction_iff heval).mp hrun
    refine ⟨⟨result, hleft.outcome⟩, fun s₂ htrue => ?_⟩
    obtain ⟨rfl, rfl⟩ := hleft.unique htrue
    rcases hcases with ⟨hbool, -⟩ | ⟨hbool, -⟩ | ⟨-, result', hright, -⟩
    · exact nomatch hbool
    · exact nomatch hbool
    · exact ⟨result', hright.outcome⟩
  · rintro ⟨⟨result, hresult⟩, hright⟩
    obtain ⟨s₁, hleft⟩ := hresult.yields
    cases hbool : exprGetBooleanValue result with
    | none => exact ⟨_, ((yields_junction_iff heval).mpr ⟨result, s₁, hleft, Or.inl ⟨hbool, rfl, rfl⟩⟩).outcome⟩
    | some b =>
        cases b with
        | false =>
            exact ⟨_, ((yields_junction_iff heval).mpr
              ⟨result, s₁, hleft, Or.inr (Or.inl ⟨hbool, rfl, rfl⟩)⟩).outcome⟩
        | true =>
            obtain rfl := exprGetBooleanValue_eq_some.mp hbool
            obtain ⟨result', hresult'⟩ := hright s₁ hleft
            obtain ⟨s₂, hlast⟩ := hresult'.yields
            exact ⟨_, ((yields_junction_iff heval).mpr
              ⟨_, s₁, hleft, Or.inr (Or.inr ⟨hbool, result', hlast, rfl⟩)⟩).outcome⟩

theorem holds_and_iff :
    Holds D s context (.logicalAnd left right) ↔
      ∃ s₁, Yields D s context left (.boolean true) s₁ ∧ Holds D s₁ context right := by
  have heval := fun c => exprEvaluate_and D c left right context
  constructor
  · intro hholds
    obtain ⟨s', hrun⟩ := hholds.yields
    obtain ⟨result, s₁, hleft, hcases⟩ := (yields_junction_iff heval).mp hrun
    rcases hcases with ⟨-, hlit, -⟩ | ⟨-, hlit, -⟩ | ⟨hbool, result', hright, hlit⟩
    · exact nomatch hlit
    · exact nomatch hlit
    · rw [exprGetBooleanValue_eq_some.mp hbool] at hleft
      rw [booleanLiteral_eq_true.mp hlit.symm] at hright
      exact ⟨s₁, hleft, hright.outcome⟩
  · rintro ⟨s₁, hleft, hright⟩
    obtain ⟨s₂, hlast⟩ := hright.yields
    exact ((yields_junction_iff heval).mpr ⟨_, s₁, hleft, Or.inr (Or.inr ⟨rfl, _, hlast, rfl⟩)⟩).outcome

end evaluate

/-! ### One condition after the other -/

section sequence

variable (D : Defs) (context : VarInstance)

/-- Evaluating the expressions one after the other ends in the store `u'`, and none of them is TRUE. -/
def Falls (u : Slots) : List Expr → Slots → Prop
  | [], u' => u' = u
  | e :: es, u' => ∃ lit u₁, Yields D u context e lit u₁ ∧ lit ≠ .boolean true ∧ Falls u₁ es u'

/-- Evaluating the expressions one after the other comes to one that is TRUE. -/
def Finds (u : Slots) : List Expr → Prop
  | [] => False
  | e :: es => Holds D u context e ∨
      ∃ lit u₁, Yields D u context e lit u₁ ∧ lit ≠ .boolean true ∧ Finds u₁ es

/-- Where the expressions are evaluated one after the other, up to the first one that is TRUE, each of them
comes back, and is TRUE, exactly if it is so in the store `s`. -/
def Steady (s u : Slots) : List Expr → Prop
  | [] => True
  | e :: es => (ComesBack D u context e ↔ ComesBack D s context e) ∧
      (Holds D u context e ↔ Holds D s context e) ∧
      ∀ lit u₁, Yields D u context e lit u₁ → lit ≠ .boolean true → Steady s u₁ es

variable {D context} {s u u' : Slots}

theorem falls_concat :
    Falls D context u (es ++ [e]) u' ↔ ∃ u₁ lit, Falls D context u es u₁ ∧
      Yields D u₁ context e lit u' ∧ lit ≠ .boolean true := by
  induction es generalizing u with
  | nil =>
      constructor
      · rintro ⟨lit, u₁, hrun, hne, rfl⟩
        exact ⟨u, lit, rfl, hrun, hne⟩
      · rintro ⟨u₁, lit, rfl, hrun, hne⟩
        exact ⟨lit, u', hrun, hne, rfl⟩
  | cons e' es ih =>
      constructor
      · rintro ⟨lit', u₁, hrun', hne', hrest⟩
        obtain ⟨u₂, lit, hfalls, hrun, hne⟩ := ih.mp hrest
        exact ⟨u₂, lit, ⟨lit', u₁, hrun', hne', hfalls⟩, hrun, hne⟩
      · rintro ⟨u₂, lit, ⟨lit', u₁, hrun', hne', hfalls⟩, hrun, hne⟩
        exact ⟨lit', u₁, hrun', hne', ih.mpr ⟨u₂, lit, hfalls, hrun, hne⟩⟩

theorem finds_concat :
    Finds D context u (es ++ [e]) ↔ Finds D context u es ∨
      ∃ u₁, Falls D context u es u₁ ∧ Holds D u₁ context e := by
  induction es generalizing u with
  | nil => simp [Finds, Falls]
  | cons e' es ih =>
      simp only [List.cons_append, Finds, Falls, ih]
      constructor
      · rintro (hholds | ⟨lit, u₁, hrun, hne, hfinds | ⟨u₂, hfalls, hholds⟩⟩)
        · exact Or.inl (Or.inl hholds)
        · exact Or.inl (Or.inr ⟨lit, u₁, hrun, hne, hfinds⟩)
        · exact Or.inr ⟨u₂, ⟨lit, u₁, hrun, hne, hfalls⟩, hholds⟩
      · rintro ((hholds | ⟨lit, u₁, hrun, hne, hfinds⟩) | ⟨u₂, ⟨lit, u₁, hrun, hne, hfalls⟩, hholds⟩)
        · exact Or.inl hholds
        · exact Or.inr ⟨lit, u₁, hrun, hne, Or.inl hfinds⟩
        · exact Or.inr ⟨lit, u₁, hrun, hne, Or.inr ⟨u₂, hfalls, hholds⟩⟩

theorem Steady.decided_iff (h : Steady D context s u es) :
    ((∃ u', Falls D context u es u') ∨ Finds D context u es ↔ Decided D s context es) ∧
      (Finds D context u es ↔ Decided D s context es ∧ ∃ e ∈ es, Holds D s context e) := by
  induction es generalizing u with
  | nil => simp [Falls, Finds, Decided]
  | cons e es ih =>
      obtain ⟨hback, hholds, hrest⟩ := h
      simp only [Falls, Finds, Decided, List.mem_cons, exists_eq_or_imp]
      by_cases htrue : Holds D u context e
      · -- the evaluation ends here
        have hs := hholds.mp htrue
        simp [htrue, hs, hs.comesBack]
      · have hs : ¬ Holds D s context e := hholds.not.mp htrue
        by_cases hcomes : ComesBack D u context e
        · obtain ⟨lit, hlit⟩ := hcomes
          obtain ⟨u₁, hrun⟩ := hlit.yields
          have hne : lit ≠ .boolean true := by
            rintro rfl
            exact htrue hlit
          obtain ⟨hdecided, hfinds⟩ := ih (hrest lit u₁ hrun hne)
          have hunique : ∀ P : Slots → Prop, (∃ lit' u₂, Yields D u context e lit' u₂ ∧
              lit' ≠ .boolean true ∧ P u₂) ↔ P u₁ := by
            intro P
            constructor
            · rintro ⟨lit', u₂, hrun', -, hP⟩
              obtain ⟨-, rfl⟩ := hrun.unique hrun'
              exact hP
            · exact fun hP => ⟨lit, u₁, hrun, hne, hP⟩
          have hs' := hback.mp ⟨lit, hlit⟩
          simp only [hunique, htrue, hs, hs', false_or, not_false_eq_true, true_and, forall_const]
          exact ⟨hdecided, hfinds⟩
        · have hs' : ¬ ComesBack D s context e := hback.not.mp hcomes
          have hnone : ∀ lit u₁, ¬ Yields D u context e lit u₁ :=
            fun lit u₁ hrun => hcomes ⟨lit, hrun.outcome⟩
          simp [htrue, hs', hnone]

theorem steady_of_settled (hfree : D.MatchFree) (hsettled : DefaultsMeant D s)
    (hes : ∀ e ∈ es, e.matchFree = true) (hu : View D s s u) : Steady D context s u es := by
  induction es generalizing u with
  | nil => trivial
  | cons e es ih =>
      have hmatch := hes e (by simp)
      refine ⟨?_, outcome_view_iff hfree hsettled hmatch hu, fun lit u₁ hrun _ => ?_⟩
      · exact exists_congr fun lit => outcome_view_iff hfree hsettled hmatch hu
      · exact ih (fun e' he' => hes e' (List.mem_cons_of_mem _ he'))
          (hrun.of_view hfree hsettled hmatch hu).2

end sequence

theorem joinConditions_concat (es : List Expr) (e : Expr) :
    joinConditions (es ++ [e]) =
      some ((joinConditions es).elim e fun result => .logicalOr (.tobool result) e) := by
  simp [joinConditions]

theorem joinConditions_eq_none : joinConditions es = none ↔ es = [] := by
  induction es using List.reverseRecOn with
  | nil => simp [joinConditions]
  | append_singleton es e ih => simp [joinConditions_concat]

section join

variable {D : Defs} {s : Slots} {context : VarInstance}

variable {r : Expr}

theorem joinConditions_isCondition {lookup : CString → Option VarId}
    (h : joinConditions es = some r) (hes : ∀ e ∈ es, IsCondition D lookup e) :
    IsCondition D lookup r := by
  induction es using List.reverseRecOn generalizing r with
  | nil => exact nomatch h
  | append_singleton es e ih =>
      have hlast : IsCondition D lookup e := hes e (by simp)
      rw [joinConditions_concat] at h
      obtain rfl := Option.some.inj h
      cases hjoin : joinConditions es with
      | none => exact hlast
      | some r =>
          have hr := ih hjoin fun e he => hes e (by simp [he])
          have htobool : (Expr.tobool r).type = .boolean := rfl
          refine ⟨?_, ?_, rfl⟩
          · simp [exprResolveVariableExpressions, hr.resolved, hlast.resolved]
          · simp [exprTypecheckExpression, hr.typechecked, hlast.typechecked, hr.boolean,
              hlast.boolean, htobool, exprIsAssignableTo]

theorem joinConditions_yields {u : Slots} (h : joinConditions es = some r) :
    (∀ u', (∃ lit, Yields D u context r lit u' ∧ lit ≠ .boolean true) ↔ Falls D context u es u') ∧
      (Holds D u context r ↔ Finds D context u es) := by
  induction es using List.reverseRecOn generalizing r with
  | nil => exact nomatch h
  | append_singleton es e ih =>
      rw [joinConditions_concat] at h
      obtain rfl := Option.some.inj h
      cases hjoin : joinConditions es with
      | none =>
          obtain rfl := joinConditions_eq_none.mp hjoin
          constructor
          · intro u'
            constructor
            · rintro ⟨lit, hrun, hne⟩
              exact ⟨lit, u', hrun, hne, rfl⟩
            · rintro ⟨lit, _, hrun, hne, rfl⟩
              exact ⟨lit, hrun, hne⟩
          · simp [Finds]
      | some r =>
          obtain ⟨hfalls, hfinds⟩ := ih hjoin
          simp only [Option.elim_some, falls_concat, finds_concat, ← hfalls, ← hfinds]
          constructor
          · intro u'
            constructor
            · rintro ⟨lit, hrun, hne⟩
              rcases yields_or_tobool_iff.mp hrun with ⟨-, htrue⟩ |
                  ⟨result, u₁, result', hrun₁, hne₁, hrun₂, rfl⟩
              · exact absurd htrue hne
              · exact ⟨u₁, result', ⟨result, hrun₁, hne₁⟩, hrun₂, booleanLiteral_eq_true.not.mp hne⟩
            · rintro ⟨u₁, result', ⟨result, hrun₁, hne₁⟩, hrun₂, hne⟩
              exact ⟨booleanLiteral result', yields_or_tobool_iff.mpr
                (Or.inr ⟨result, u₁, result', hrun₁, hne₁, hrun₂, rfl⟩), booleanLiteral_eq_true.not.mpr hne⟩
          · constructor
            · intro hholds
              obtain ⟨u', hrun⟩ := hholds.yields
              rcases yields_or_tobool_iff.mp hrun with ⟨hfirst, -⟩ |
                  ⟨result, u₁, result', hrun₁, hne₁, hrun₂, hlit⟩
              · exact Or.inl hfirst.outcome
              · rw [booleanLiteral_eq_true.mp hlit.symm] at hrun₂
                exact Or.inr ⟨u₁, ⟨result, hrun₁, hne₁⟩, hrun₂.outcome⟩
            · rintro (hholds | ⟨u₁, ⟨result, hrun₁, hne₁⟩, hholds⟩)
              · obtain ⟨u', hrun⟩ := hholds.yields
                exact (yields_or_tobool_iff.mpr (Or.inl ⟨hrun, rfl⟩)).outcome
              · obtain ⟨u', hrun₂⟩ := hholds.yields
                exact (yields_or_tobool_iff.mpr
                  (Or.inr ⟨result, u₁, _, hrun₁, hne₁, hrun₂, rfl⟩)).outcome

theorem Steady.joinConditions_outcome {u : Slots}
    (hsteady : Steady D context s u es) (h : joinConditions es = some r) :
    (ComesBack D u context r ↔ Decided D s context es) ∧
      (Holds D u context r ↔ Decided D s context es ∧ ∃ e ∈ es, Holds D s context e) := by
  obtain ⟨hfalls, hfinds⟩ : _ ∧ (Holds D u context r ↔ Finds D context u es) := joinConditions_yields h
  obtain ⟨hdecided, hfound⟩ := hsteady.decided_iff
  refine ⟨?_, hfinds.trans hfound⟩
  rw [← hdecided, ← hfinds]
  constructor
  · rintro ⟨lit, hlit⟩
    by_cases htrue : lit = .boolean true
    · subst htrue
      exact Or.inr hlit
    · obtain ⟨u', hrun⟩ := hlit.yields
      exact Or.inl ⟨u', (hfalls u').mp ⟨lit, hrun, htrue⟩⟩
  · rintro (⟨u', hrest⟩ | hholds)
    · obtain ⟨lit, hrun, -⟩ := (hfalls u').mpr hrest
      exact ⟨lit, hrun.outcome⟩
    · exact hholds.comesBack

end join

/-! ### Leaving out literals and duplicates -/

section collect

variable {D : Defs} {s : Slots} {context : VarInstance}

/-- What the loop over the conditions of the clients does with them. -/
inductive Collects : List Expr → List Expr → List Expr → Prop
  | done (es : List Expr) : Collects es [] es
  | skip {es conds es' : List Expr} {cond : Expr} (h : cond = exprFalse ∨ cond ∈ es)
      (hrest : Collects es conds es') : Collects es (cond :: conds) es'
  | keep {es conds es' : List Expr} {cond : Expr} (h : cond ≠ exprFalse)
      (hrest : Collects (es ++ [cond]) conds es') : Collects es (cond :: conds) es'

theorem collects_of_eq (h : collectConditions es conds = some es') : Collects es conds es' := by
  induction conds generalizing es with
  | nil =>
      obtain rfl := Option.some.inj h
      exact Collects.done es
  | cons cond conds ih =>
      rw [collectConditions] at h
      by_cases htrue : cond = exprTrue
      · rw [if_pos htrue] at h
        exact nomatch h
      rw [if_neg htrue] at h
      by_cases hfalse : cond = exprFalse
      · rw [if_pos hfalse] at h
        exact Collects.skip (Or.inl hfalse) (ih h)
      rw [if_neg hfalse] at h
      by_cases hmem : cond ∈ es
      · rw [if_pos hmem] at h
        exact Collects.skip (Or.inr hmem) (ih h)
      · rw [if_neg hmem] at h
        exact Collects.keep hfalse (ih h)

theorem Collects.mem_iff (h : Collects es conds es') (e : Expr) :
    e ∈ es' ↔ e ∈ es ∨ e ∈ conds ∧ e ≠ exprFalse := by
  induction h with
  | done es => simp
  | @skip es conds es' cond hskip _ ih =>
      rw [ih, List.mem_cons]
      constructor
      · exact Or.imp_right fun hrest => ⟨Or.inr hrest.1, hrest.2⟩
      · rintro (hes | ⟨rfl | hconds, hne⟩)
        · exact Or.inl hes
        · exact Or.inl (hskip.resolve_left hne)
        · exact Or.inr ⟨hconds, hne⟩
  | @keep es conds es' cond hne _ ih =>
      rw [ih, List.mem_append, List.mem_singleton, List.mem_cons]
      constructor
      · rintro ((hes | rfl) | hrest)
        · exact Or.inl hes
        · exact Or.inr ⟨Or.inl rfl, hne⟩
        · exact Or.inr ⟨Or.inr hrest.1, hrest.2⟩
      · rintro (hes | ⟨rfl | hconds, hne'⟩)
        · exact Or.inl (Or.inl hes)
        · exact Or.inl (Or.inr rfl)
        · exact Or.inr ⟨hconds, hne'⟩

theorem collectConditions_eq_none : collectConditions es conds = none ↔ exprTrue ∈ conds := by
  induction conds generalizing es with
  | nil => simp [collectConditions]
  | cons cond conds ih =>
      rw [collectConditions]
      by_cases htrue : cond = exprTrue
      · simp [htrue]
      · have hne : ¬ exprTrue = cond := fun heq => htrue heq.symm
        simp only [if_neg htrue, List.mem_cons, hne, false_or]
        split
        · exact ih
        · split
          · exact ih
          · exact ih

theorem not_holds_exprFalse : ¬ Holds D s context exprFalse := by
  intro h
  obtain ⟨s', hrun⟩ := h.yields
  exact nomatch (yields_literal_iff.mp hrun).1

theorem comesBack_literal (value : Literal) : ComesBack D s context (.literal value) :=
  ⟨value, (yields_literal_iff.mpr ⟨rfl, rfl⟩).outcome⟩

theorem Collects.decided_iff (h : Collects es conds es') :
    Decided D s context es' ↔ Decided D s context (es ++ conds) := by
  induction h with
  | done es => rw [List.append_nil]
  | keep _ _ ih => rw [ih, List.append_assoc, List.singleton_append]
  | @skip es conds es' cond hskip _ ih =>
      rw [ih, decided_append, decided_append]
      refine and_congr_right fun hdecided => forall_congr' fun hnot => ?_
      -- the condition that is skipped comes back and is not TRUE
      have hcond : ComesBack D s context cond ∧ ¬ Holds D s context cond := by
        rcases hskip with rfl | hmem
        · exact ⟨comesBack_literal _, not_holds_exprFalse⟩
        · exact ⟨hdecided.comesBack hnot hmem, hnot cond hmem⟩
      simp [Decided, hcond.1, hcond.2]

theorem Collects.holds_iff (h : Collects [] conds es) :
    (∃ e ∈ es, Holds D s context e) ↔ ∃ e ∈ conds, Holds D s context e := by
  constructor
  · rintro ⟨e, he, hholds⟩
    rcases (h.mem_iff e).mp he with hnil | hconds
    · exact nomatch hnil
    · exact ⟨e, hconds.1, hholds⟩
  · rintro ⟨e, he, hholds⟩
    refine ⟨e, (h.mem_iff e).mpr (Or.inr ⟨he, ?_⟩), hholds⟩
    rintro rfl
    exact not_holds_exprFalse hholds

end collect

/-! ### The condition of a bound -/

/-- What the condition of a variable is made of: nothing but FALSE, its own condition, the
conditions of its clients, or both. -/
theorem assembleCondition_cases (own : Expr) (clients : List Expr) :
    (assembleCondition own clients = exprFalse ∧
      (own = exprFalse ∨ clients ≠ [] ∧ ∀ cond ∈ clients, cond = exprFalse)) ∨
    (assembleCondition own clients = own ∧ (clients = [] ∨ exprTrue ∈ clients)) ∨
    ∃ es result, clients ≠ [] ∧ exprTrue ∉ clients ∧ (∃ e ∈ clients, e ≠ exprFalse) ∧
      collectConditions [] clients = some es ∧ joinConditions es = some result ∧
      ((own = exprTrue ∧ assembleCondition own clients = result) ∨
        assembleCondition own clients = .logicalAnd own result) := by
  unfold assembleCondition
  by_cases hown : own = exprFalse
  · rw [if_pos hown]
    exact Or.inl ⟨rfl, Or.inl hown⟩
  rw [if_neg hown]
  by_cases hnil : clients = []
  · rw [if_pos hnil]
    exact Or.inr (Or.inl ⟨rfl, Or.inl hnil⟩)
  rw [if_neg hnil]
  cases hcollect : collectConditions [] clients with
  | none => exact Or.inr (Or.inl ⟨rfl, Or.inr (collectConditions_eq_none.mp hcollect)⟩)
  | some es =>
      have hcollects := collects_of_eq hcollect
      have htrue : exprTrue ∉ clients := by
        intro hmem
        rw [collectConditions_eq_none.mpr hmem] at hcollect
        contradiction
      dsimp only
      cases hjoin : joinConditions es with
      | none =>
          obtain rfl := joinConditions_eq_none.mp hjoin
          refine Or.inl ⟨rfl, Or.inr ⟨hnil, fun cond hcond => ?_⟩⟩
          by_contra hne
          exact nomatch (hcollects.mem_iff cond).mpr (Or.inr ⟨hcond, hne⟩)
      | some result =>
          have hproper : ∃ e ∈ clients, e ≠ exprFalse := by
            have hne : es ≠ [] := fun heq => by
              rw [joinConditions_eq_none.mpr heq] at hjoin
              contradiction
            obtain ⟨e, he⟩ := List.exists_mem_of_ne_nil es hne
            exact ⟨e, ((hcollects.mem_iff e).mp he).resolve_left List.not_mem_nil⟩
          refine Or.inr (Or.inr ⟨es, result, hnil, htrue, hproper, rfl, hjoin, ?_⟩)
          dsimp only
          by_cases hlit : own = exprTrue
          · rw [if_pos hlit]
            exact Or.inl ⟨hlit, rfl⟩
          · rw [if_neg hlit]
            exact Or.inr rfl

/-- An instance of a bound is enabled if its own condition is TRUE and, unless it has no clients,
the condition of one of its clients is. -/
def EnabledByClients (D : Defs) (s : Slots) (inst : VarInstance) (own : Expr)
    (clients : List VarId) : Prop :=
  ∃ d enabled s', varInstanceIsEnabled D (calls D d) inst s = .ok (enabled, s') ∧
    (enabled = true ↔ Holds D s inst own ∧
      (clients = [] ∨ ∃ client ∈ clients, Holds D s inst (D.condition client)))

/-- Whatever has to be evaluated to find out whether a bound is enabled comes back: its own
condition, unless all its clients are disabled by the literal FALSE, and the conditions of its
clients up to the first one that is TRUE, unless one of them is the literal TRUE. -/
def ClientsDecide (D : Defs) (s : Slots) (inst : VarInstance) (own : Expr)
    (clients : List VarId) : Prop :=
  (clients ≠ [] ∧ ∀ client ∈ clients, D.condition client = exprFalse) ∨
    ComesBack D s inst own ∧
      (Holds D s inst own →
        (∃ client ∈ clients, D.condition client = exprTrue) ∨
          Decided D s inst (clients.map D.condition))

/-- Where the own condition is TRUE, evaluating it does not disturb the conditions of the clients, and these do
not disturb each other, as far as they are evaluated. -/
def Undisturbed (D : Defs) (s : Slots) (inst : VarInstance) (own : Expr) (clients : List VarId) : Prop :=
  ∀ es s₁, collectConditions [] (clients.map D.condition) = some es →
    Yields D s inst own (.boolean true) s₁ → Steady D inst s s₁ es

section bound

variable {D : Defs} {lookup : CString → Option VarId} {s : Slots} {inst : VarInstance} {var : Var}
  {own : Expr}

theorem assembleCondition_isCondition (hown : IsCondition D lookup own)
    (hconds : ∀ cond ∈ conds, IsCondition D lookup cond) :
    IsCondition D lookup (assembleCondition own conds) := by
  rcases assembleCondition_cases own conds with
    ⟨heq, -⟩ | ⟨heq, -⟩ | ⟨es, result, -, -, -, hcollect, hjoin, hcases⟩
  · rw [heq]
    exact IsCondition.literal false
  · rw [heq]
    exact hown
  · have hresult : IsCondition D lookup result := by
      refine joinConditions_isCondition hjoin fun e he => ?_
      rcases ((collects_of_eq hcollect).mem_iff e).mp he with hmem | hmem
      · exact nomatch hmem
      · exact hconds e hmem.1
    rcases hcases with ⟨-, heq⟩ | heq
    · rw [heq]
      exact hresult
    · rw [heq]
      refine ⟨?_, ?_, rfl⟩
      · simp [exprResolveVariableExpressions, hown.resolved, hresult.resolved]
      · simp [exprTypecheckExpression, hown.typechecked, hresult.typechecked, hown.boolean,
          hresult.boolean, exprIsAssignableTo]

theorem assembleCondition_resolve (hresolve : exprResolveVariableExpressions D lookup e = some own)
    (hconds : ∀ cond ∈ conds, IsCondition D lookup cond) :
    exprResolveVariableExpressions D lookup (assembleCondition e conds) =
      some (assembleCondition own conds) := by
  have hlitFalse : own = exprFalse ↔ e = exprFalse := eq_literal_iff_of_resolve hresolve
  have hlitTrue : own = exprTrue ↔ e = exprTrue := eq_literal_iff_of_resolve hresolve
  unfold assembleCondition
  by_cases hfalse : e = exprFalse
  · rw [if_pos hfalse, if_pos (hlitFalse.mpr hfalse)]
    rfl
  rw [if_neg hfalse, if_neg (hlitFalse.not.mpr hfalse)]
  by_cases hnil : conds = []
  · rw [if_pos hnil, if_pos hnil]
    exact hresolve
  rw [if_neg hnil, if_neg hnil]
  cases hcollect : collectConditions [] conds with
  | none => exact hresolve
  | some es =>
      dsimp only
      cases hjoin : joinConditions es with
      | none => rfl
      | some result =>
          have hresult : IsCondition D lookup result := by
            refine joinConditions_isCondition hjoin fun e he => ?_
            rcases ((collects_of_eq hcollect).mem_iff e).mp he with hmem | hmem
            · exact nomatch hmem
            · exact hconds e hmem.1
          dsimp only
          by_cases htrue : e = exprTrue
          · rw [if_pos htrue, if_pos (hlitTrue.mpr htrue)]
            exact hresult.resolved
          · rw [if_neg htrue, if_neg (hlitTrue.not.mpr htrue)]
            simp [exprResolveVariableExpressions, hresolve, hresult.resolved]

theorem condition_eq_assembled (hcomputes : ComputesConditions D lookup)
    (hvar : D.vars inst.var = some var)
    (hresolve : exprResolveVariableExpressions D lookup var.props.condition = some own)
    (hown : IsCondition D lookup own) :
    D.condition inst.var = assembleCondition own (var.varNClients.map D.condition) := by
  have hconds : ∀ cond ∈ var.varNClients.map D.condition, IsCondition D lookup cond := by
    intro cond hcond
    obtain ⟨client, hclient, rfl⟩ := List.mem_map.mp hcond
    obtain ⟨clientVar, hlive, -⟩ := D.boundGraph.client hvar hclient
    rw [hcomputes client clientVar hlive]
    exact checkCondition_isCondition _
  have hcheck := checkCondition_of_resolve (assembleCondition_resolve hresolve hconds)
    (assembleCondition_isCondition hown hconds)
  rw [hcomputes inst.var var hvar, varComputeCondition, hcheck]

theorem undisturbed_of_settled (hfree : D.MatchFree) (hsettled : DefaultsMeant D s)
    (hown : own.matchFree = true) (clients : List VarId) : Undisturbed D s inst own clients := by
  intro es s₁ hcollect hrun
  have hview : View D s s s := ⟨Sees.refl D s, fun _ _ => rfl⟩
  refine steady_of_settled hfree hsettled (fun e he => ?_) (hrun.of_view hfree hsettled hown hview).2
  have hmem := (((collects_of_eq hcollect).mem_iff e).mp he).resolve_left List.not_mem_nil
  obtain ⟨client, -, rfl⟩ := List.mem_map.mp hmem.1
  exact hfree.1 client

/-- Behind the own condition, the conditions of the clients have the outcomes that they have before. -/
theorem Undisturbed.joinConditions_outcome {clients : List VarId} {es : List Expr} {result : Expr} {s₁ : Slots}
    (h : Undisturbed D s inst own clients) (hcollect : collectConditions [] (clients.map D.condition) = some es)
    (hjoin : joinConditions es = some result) (hrun : Yields D s inst own (.boolean true) s₁) :
    (ComesBack D s₁ inst result ↔ Decided D s inst (clients.map D.condition)) ∧
      (Holds D s₁ inst result ↔ Decided D s inst (clients.map D.condition) ∧
        ∃ client ∈ clients, Holds D s inst (D.condition client)) := by
  have hcollects := collects_of_eq hcollect
  have hexists : (∃ e ∈ clients.map D.condition, Holds D s inst e) ↔
      ∃ client ∈ clients, Holds D s inst (D.condition client) := by
    simp
  obtain ⟨hback, hholds⟩ := (h es s₁ hcollect hrun).joinConditions_outcome hjoin
  rw [hcollects.decided_iff, List.nil_append] at hback
  rw [hcollects.decided_iff, List.nil_append, hcollects.holds_iff, hexists] at hholds
  exact ⟨hback, hholds⟩

/-- When and with what the assembled condition comes back. -/
theorem assembleCondition_outcome {clients : List VarId} (hundisturbed : Undisturbed D s inst own clients) :
    (ComesBack D s inst (assembleCondition own (clients.map D.condition)) ↔
      ClientsDecide D s inst own clients) ∧
    (ClientsDecide D s inst own clients →
      (Holds D s inst (assembleCondition own (clients.map D.condition)) ↔
        Holds D s inst own ∧
          (clients = [] ∨ ∃ client ∈ clients, Holds D s inst (D.condition client)))) := by
  have hrunTrue : Yields D s inst exprTrue (.boolean true) s := yields_literal_iff.mpr ⟨rfl, rfl⟩
  have hholdsTrue : Holds D s inst exprTrue := hrunTrue.outcome
  rcases assembleCondition_cases own (clients.map D.condition) with
    ⟨heq, hcases⟩ | ⟨heq, hcases⟩ | ⟨es, result, hnil, htrue, hproper, hcollect, hjoin, hcases⟩
  · -- nothing is evaluated
    rw [heq]
    have hback : ComesBack D s inst exprFalse := comesBack_literal _
    have hnot : ¬ Holds D s inst exprFalse := not_holds_exprFalse
    rcases hcases with rfl | ⟨hne, hall⟩
    · have hdecide : ClientsDecide D s inst exprFalse clients :=
        Or.inr ⟨hback, fun hholds => (hnot hholds).elim⟩
      simp [hback, hnot, hdecide]
    · have hconds : ∀ client ∈ clients, D.condition client = exprFalse :=
        fun client hclient => hall _ (List.mem_map_of_mem hclient)
      have hnil : clients ≠ [] := fun heq => hne (by rw [heq]; rfl)
      have hdecide : ClientsDecide D s inst own clients := Or.inl ⟨hnil, hconds⟩
      have hnone : ¬ ∃ client ∈ clients, Holds D s inst (D.condition client) := by
        rintro ⟨client, hclient, hholds⟩
        rw [hconds client hclient] at hholds
        exact hnot hholds
      simp [hback, hnot, hdecide, hnil, hnone]
  · -- the own condition is evaluated
    rw [heq]
    have hsome : ¬ (clients ≠ [] ∧ ∀ client ∈ clients, D.condition client = exprFalse) := by
      rintro ⟨hne, hall⟩
      rcases hcases with hnil | hmem
      · exact hne (List.map_eq_nil_iff.mp hnil)
      · obtain ⟨client, hclient, hcond⟩ := List.mem_map.mp hmem
        rw [hall client hclient] at hcond
        exact nomatch hcond
    have hquick : (∃ client ∈ clients, D.condition client = exprTrue) ∨
        Decided D s inst (clients.map D.condition) := by
      rcases hcases with hnil | hmem
      · rw [hnil]
        exact Or.inr trivial
      · exact Or.inl (List.mem_map.mp hmem)
    have hclients : clients = [] ∨ ∃ client ∈ clients, Holds D s inst (D.condition client) := by
      rcases hcases with hnil | hmem
      · exact Or.inl (List.map_eq_nil_iff.mp hnil)
      · obtain ⟨client, hclient, hcond⟩ := List.mem_map.mp hmem
        exact Or.inr ⟨client, hclient, by rw [hcond]; exact hholdsTrue⟩
    simp [ClientsDecide, hsome, hquick, hclients]
  · -- the conditions of the clients are evaluated, in general behind the own condition
    have hsome : ¬ (clients ≠ [] ∧ ∀ client ∈ clients, D.condition client = exprFalse) := by
      rintro ⟨-, hall⟩
      obtain ⟨e, he, hne⟩ := hproper
      obtain ⟨client, hclient, rfl⟩ := List.mem_map.mp he
      exact hne (hall client hclient)
    have hlit : ¬ ∃ client ∈ clients, D.condition client = exprTrue :=
      fun hmem => htrue (List.mem_map.mpr hmem)
    have hnone : clients ≠ [] := fun heq => hnil (by rw [heq]; rfl)
    have houtcome : ∀ s₁, Yields D s inst own (.boolean true) s₁ → _ :=
      fun _ hrun => hundisturbed.joinConditions_outcome hcollect hjoin hrun
    have hdecide : ClientsDecide D s inst own clients ↔ ComesBack D s inst own ∧
        (Holds D s inst own → Decided D s inst (clients.map D.condition)) := by
      simp [ClientsDecide, hsome, hlit]
    rcases hcases with ⟨rfl, heq⟩ | heq
    · obtain ⟨hback, hholds⟩ := houtcome s hrunTrue
      rw [heq, hback, hdecide]
      simp +contextual [hholdsTrue, hholdsTrue.comesBack, hholds, hnone]
    · rw [heq, comesBack_and_iff, holds_and_iff, hdecide]
      constructor
      · refine and_congr_right fun _ => ⟨fun hback hown => ?_, fun hdecided s₁ hrun => ?_⟩
        · obtain ⟨s₁, hrun⟩ := hown.yields
          exact (houtcome s₁ hrun).1.mp (hback s₁ hrun)
        · exact (houtcome s₁ hrun).1.mpr (hdecided hrun.outcome)
      · rintro ⟨-, hdecided⟩
        simp only [hnone, false_or]
        constructor
        · rintro ⟨s₁, hrun, hholds⟩
          exact ⟨hrun.outcome, ((houtcome s₁ hrun).2.mp hholds).2⟩
        · rintro ⟨hown, hclient⟩
          obtain ⟨s₁, hrun⟩ := hown.yields
          exact ⟨s₁, hrun, (houtcome s₁ hrun).2.mpr ⟨hdecided hown, hclient⟩⟩

/-- Where the conditions do not disturb each other, a bound is enabled as its own condition and the conditions
of its clients say if and only if whatever has to be evaluated to find out comes back. -/
theorem enabledByClients_iff_clientsDecide
    (hundisturbed : Undisturbed D s inst own var.varNClients) (hcomputes : ComputesConditions D lookup)
    (hvar : D.vars inst.var = some var)
    (hresolve : exprResolveVariableExpressions D lookup var.props.condition = some own)
    (htype : exprTypecheckExpression own = true ∧ own.type = .boolean) :
    EnabledByClients D s inst own var.varNClients ↔
      ClientsDecide D s inst own var.varNClients := by
  have hown : IsCondition D lookup own :=
    ⟨exprResolveVariableExpressions_idem hresolve, htype.1, htype.2⟩
  have hcondition := condition_eq_assembled hcomputes hvar hresolve hown
  obtain ⟨hback, hholds⟩ := assembleCondition_outcome hundisturbed
  rw [← hcondition] at hback hholds
  constructor
  · rintro ⟨d, enabled, s', hrun, -⟩
    obtain ⟨lit, s₁, heval, -⟩ := Exec.bind_ok_iff.mp hrun
    exact hback.mp ⟨lit, d, s₁, heval⟩
  · intro hdecide
    obtain ⟨lit, d, s₁, heval⟩ := hback.mpr hdecide
    refine ⟨d, (exprGetBooleanValue lit).getD false, s₁,
      Exec.bind_ok_iff.mpr ⟨lit, s₁, heval, rfl⟩, ?_⟩
    rw [← hholds hdecide, getD_exprGetBooleanValue_eq_true]
    constructor
    · rintro rfl
      exact ⟨d, s₁, heval⟩
    · intro htrue
      exact Outcome.unique ⟨d, s₁, heval⟩ htrue

end bound

/-! ### A client that gets in the way -/

/-- `Y_% == 5`, the condition of `X_%`. -/
def lengthCondition (ref : ExprType × VarRef) : Expr :=
  .equal (.var ref.1 ref.2) (.literal (.integer 5))

/-- `MODE == "on"`, the condition of `Z_%`. -/
def modeCondition (ref : ExprType × VarRef) : Expr :=
  .equal (.var ref.1 ref.2) (.literal (.string "on".toList))

/-- The bound `X_N` of `X_%` and `Z_%`, which are registered in the given order, the array `Y_%`
with its bound, and `MODE`, which is `on` by default. -/
def clientVars (clients : List VarId) : List Var :=
  [ { name := "X_N".toList, type := 0, level := 0, varN := none, varNClients := clients,
      priority := .configuration, props := boundProps },
    { name := "X_%".toList, type := 1, level := 1, varN := some 0, varNClients := [],
      priority := .configuration,
      props := { plainProps with
        condition := lengthCondition (.unknown, .unresolved "Y_%".toList) } },
    { name := "Z_%".toList, type := 1, level := 1, varN := some 0, varNClients := [],
      priority := .configuration,
      props := { plainProps with
        condition := modeCondition (.unknown, .unresolved "MODE".toList) } },
    { name := "MODE".toList, type := 1, level := 0, varN := none, varNClients := [],
      priority := .configuration,
      props := { plainProps with defValue := some (.literal (.string "on".toList)) } },
    { name := "Y_N".toList, type := 0, level := 0, varN := none, varNClients := [5],
      priority := .configuration, props := boundProps },
    { name := "Y_%".toList, type := 1, level := 1, varN := some 4, varNClients := [],
      priority := .configuration, props := plainProps } ]

/-- The names of these variables. -/
def clientNames (name : CString) : Option VarId :=
  (clientVars []).findIdx? fun var => var.name = name

/-- The conditions of these variables, given that of `X_N`. -/
def clientCondition (bound : Expr) : VarId → Expr
  | 0 => bound
  | 1 => lengthCondition (.string, .resolved ⟨5, []⟩)
  | 2 => modeCondition (.string, .resolved ⟨3, []⟩)
  | _ => exprTrue

/-- The definitions made of these variables. -/
def clientDefs (clients : List VarId) (bound : Expr)
    (h : boundLinksOk 0 (clientVars clients) = true) : Defs where
  types := sampleTypes
  vars := fun v => (clientVars clients)[v]?
  condition := clientCondition bound
  defValue := fun v => ((clientVars clients)[v]?).bind fun var => var.props.defValue
  matchArray := none
  boundGraph := BoundGraph.of_list h

section sample

variable {clients : List VarId} {bound : Expr} {h : boundLinksOk 0 (clientVars clients) = true}

theorem clientDefs_literal {v : VarId}
    (hdef : (clientDefs clients bound h).defValue v = some e) : ∃ value, e = .literal value := by
  match v with
  | 0 => exact ⟨_, (Option.some.inj hdef).symm⟩
  | 1 => exact nomatch hdef
  | 2 => exact nomatch hdef
  | 3 => exact ⟨_, (Option.some.inj hdef).symm⟩
  | 4 => exact ⟨_, (Option.some.inj hdef).symm⟩
  | 5 => exact nomatch hdef
  | v + 6 => exact nomatch hdef

theorem clientDefs_matchFree (hbound : bound.matchFree = true) :
    (clientDefs clients bound h).MatchFree := by
  refine ⟨fun v => ?_, fun v e hdef => ?_⟩
  · match v with
    | 0 => exact hbound
    | 1 => rfl
    | 2 => rfl
    | v + 3 => rfl
  · obtain ⟨value, rfl⟩ := clientDefs_literal hdef
    rfl

theorem clientDefs_computes
    (hbound : bound = (varComputeCondition (clientDefs clients bound h) clientNames
      ⟨"X_N".toList, 0, 0, none, clients, .configuration, boundProps⟩).1) :
    ComputesConditions (clientDefs clients bound h) clientNames := by
  intro v var hvar
  match v with
  | 0 =>
      obtain rfl := Option.some.inj hvar
      exact hbound
  | 1 =>
      obtain rfl := Option.some.inj hvar
      rfl
  | 2 =>
      obtain rfl := Option.some.inj hvar
      rfl
  | 3 =>
      obtain rfl := Option.some.inj hvar
      rfl
  | 4 =>
      obtain rfl := Option.some.inj hvar
      rfl
  | 5 =>
      obtain rfl := Option.some.inj hvar
      rfl
  | v + 6 => exact nomatch hvar

end sample

/-- The definitions if `Z_%` is registered at `X_N` before `X_%`. -/
def modeFirst : Defs :=
  clientDefs [2, 1] (.logicalOr (.tobool (modeCondition (.string, .resolved ⟨3, []⟩)))
    (lengthCondition (.string, .resolved ⟨5, []⟩))) (by decide)

/-- The definitions if `X_%` is registered at `X_N` before `Z_%`. -/
def lengthFirst : Defs :=
  clientDefs [1, 2] (.logicalOr (.tobool (lengthCondition (.string, .resolved ⟨5, []⟩)))
    (modeCondition (.string, .resolved ⟨3, []⟩))) (by decide)

/-- If `Z_%` comes first, `X_N` is enabled because `MODE` is `on`: the condition of `X_%` is not
evaluated. -/
theorem enabledByClients_modeFirst :
    EnabledByClients modeFirst Slots.init ⟨0, []⟩ exprTrue [2, 1] := by
  have hfree : modeFirst.MatchFree := clientDefs_matchFree rfl
  have hsettled : DefaultsMeant modeFirst Slots.init :=
    DefaultsMeant.of_literals (fun _ _ => clientDefs_literal) _
  have hcomputes : ComputesConditions modeFirst clientNames := clientDefs_computes (by decide)
  have hvar : modeFirst.vars (⟨0, []⟩ : VarInstance).var = some
      ⟨"X_N".toList, 0, 0, none, [2, 1], .configuration, boundProps⟩ := rfl
  have hdecide : ClientsDecide modeFirst Slots.init ⟨0, []⟩ exprTrue [2, 1] := by
    refine Or.inr ⟨comesBack_literal _, fun _ => Or.inr ⟨?_, fun hnot => ?_⟩⟩
    · exact ⟨.boolean true, 8, _, rfl⟩
    · exact (hnot ⟨8, _, rfl⟩).elim
  exact (enabledByClients_iff_clientsDecide (undisturbed_of_settled hfree hsettled rfl _) hcomputes hvar rfl
    ⟨rfl, rfl⟩).mpr hdecide

/-- If `X_%` comes first, its condition `Y_% == 5` is evaluated without an index for `Y_%`: the
boolean condition of `Y_%` is compared with a number, and nothing is returned although the
condition of `Z_%` is TRUE. -/
theorem enabledByClients_broken_by_lengthFirst :
    ComputesConditions lengthFirst clientNames ∧
      (∀ v var, lengthFirst.vars v = some var →
        (varComputeCondition lengthFirst clientNames var).2 = true) ∧
      lengthFirst.MatchFree ∧ Undisturbed lengthFirst Slots.init ⟨0, []⟩ exprTrue [1, 2] ∧
      Holds lengthFirst Slots.init ⟨0, []⟩ exprTrue ∧
      Holds lengthFirst Slots.init ⟨0, []⟩ (lengthFirst.condition 2) ∧
      ¬ EnabledByClients lengthFirst Slots.init ⟨0, []⟩ exprTrue [1, 2] := by
  have hfree : lengthFirst.MatchFree := clientDefs_matchFree rfl
  refine ⟨clientDefs_computes (by decide), ?_, hfree, ?_, ⟨1, _, rfl⟩, ⟨8, _, rfl⟩, ?_⟩
  · intro v var hvar
    match v with
    | 0 | 1 | 2 | 3 | 4 | 5 =>
        obtain rfl := Option.some.inj hvar
        decide
    | v + 6 => exact nomatch hvar
  · exact undisturbed_of_settled hfree (DefaultsMeant.of_literals (fun _ _ => clientDefs_literal) _) rfl _
  · rintro ⟨d, enabled, s', hrun, -⟩
    match d with
    | 0 => exact nomatch hrun
    | 1 => exact nomatch hrun
    | d + 2 => exact nomatch hrun

end Mkfli4l
