import Mkfli4l.Var.GraphRuns

/-!
# Definitions that fail

`var_add_with_array_bound` may have to make the bound of an array, the bound of this
bound and so on before it finds out that the array cannot be defined.  Only one of
its exits takes a bound back, and only the topmost one.

This module tells from the state before the call what the call is going to make.
The predicates `canMake` and `makesBounds` follow the search for bounds, but they
never change the store: a failed attempt to make a bound from a template does not
change what can be made afterwards.
-/

namespace Mkfli4l

open Lib

/-- The variables, their properties and their clients are as before; identifiers may have been
used up. -/
structure SameVariables (g g' : Graph) : Prop where
  vars_eq : g'.vars = g.vars
  members_eq : g'.members = g.members

/-- What a bound is made from if there is no template for it. -/
def boundSpec (E : GraphEnv) (name : CString) (priority : Priority) : VarSpec :=
  ⟨name, E.arrayBoundType, priority, boundProps⟩

/-- What the first template that matches the name makes. -/
def templateSpec (E : GraphEnv) (g : Graph) (name : CString) : Option VarSpec :=
  ((E.visitOrder g.templates).find? fun tmpl => E.regexec tmpl.name name).map fun tmpl =>
    ⟨name, tmpl.type, tmpl.priority, tmpl.props⟩

/-- The variable described by `spec`, before it is linked to a bound. -/
def VarSpec.bare (spec : VarSpec) : Var :=
  ⟨spec.name, spec.type, 0, none, [], spec.priority, spec.props⟩

/-- There is a bound of this name that suits an array, or one can be made. -/
def boundAvailable (E : GraphEnv) (g : Graph) (canMake : VarSpec → Bool) (name : CString)
    (props : VarProperties) (priority : Priority) : Bool :=
  match g.tryGetMember name with
  | some (.var _ b) => (g.vars b).any fun varN => varCheckArrayBound E varN props priority
  | some (.tmpl _) => false
  | none =>
      match templateSpec E g name with
      | none => canMake (boundSpec E name priority)
      | some spec =>
          if canMake spec then varCheckArrayBound E spec.bare props priority
          else canMake (boundSpec E name priority)

/-- A variable can be made under a name that does not belong to a variable.  The recursion is on
the number of placeholders in the name. -/
def canMake (E : GraphEnv) (g : Graph) : Nat → VarSpec → Bool
  | 0, spec => isVarName spec.name && (g.tryGetMember spec.name).isNone
  | n + 1, spec =>
      isVarName spec.name && (g.tryGetMember spec.name).isNone &&
        (computedBoundName spec.name).any fun bound =>
          boundAvailable E g (canMake E g n) bound spec.props spec.priority

/-- A template makes the bound of this name or one below it. -/
def templateMakes (E : GraphEnv) (g : Graph) (canMake makes : VarSpec → Bool) (name : CString) :
    Bool :=
  (g.tryGetMember name).isNone &&
    (templateSpec E g name).any fun spec => canMake spec || makes spec

/-- The name belongs to a variable. -/
def isVariable (g : Graph) (name : CString) : Bool :=
  match g.tryGetMember name with
  | some (.var _ _) => true
  | _ => false

/-- The attempt to make a variable makes bounds, whether it succeeds or not. -/
def makesBounds (E : GraphEnv) (g : Graph) : Nat → VarSpec → Bool
  | 0, _ => false
  | n + 1, spec =>
      isVarName spec.name && (computedBoundName spec.name).any fun bound =>
        !isVariable g bound &&
          (templateMakes E g (canMake E g n) (makesBounds E g n) bound ||
            makesBounds E g n (boundSpec E bound spec.priority) ||
            canMake E g n (boundSpec E bound spec.priority))

/-- The name is free, or it belongs to a weak variable that may be redefined. -/
def NameOpen (g : Graph) (spec : VarSpec) : Prop :=
  g.tryGetMember spec.name = none ∨
    ∃ old oldVar, Redefines g spec.name spec.type spec.priority old oldVar ∧
      (spec.props.optional = true → ∀ client ∈ oldVar.varNClients, ∀ clientVar,
        g.vars client = some clientVar → clientVar.props.optional = true)

/-- The call makes bounds that it does not remove, and the definition fails: the bound is of the
wrong level, it does not suit the array, or the name is taken. -/
def LeavesBounds (E : GraphEnv) (g : Graph) (spec : VarSpec) (arrayBoundName : Option CString) :
    Prop :=
  isVarName spec.name = true ∧ ∃ computed, computedBoundName spec.name = some computed ∧
    let bound := arrayBoundName.getD computed
    let level := numPlaceholders bound
    let plain := boundSpec E bound spec.priority
    isVariable g bound = false ∧
      (templateMakes E g (canMake E g level) (makesBounds E g level) bound = true ∨
        makesBounds E g level plain = true ∨
        (canMake E g level plain = true ∧ level + 1 = numPlaceholders spec.name)) ∧
      ¬ (level + 1 = numPlaceholders spec.name ∧
        boundAvailable E g (canMake E g level) bound spec.props spec.priority = true ∧
        NameOpen g spec)

/-! ### Growing stores -/

section growing

variable {E : GraphEnv} {n : Nat} {g g' g'' : Graph} {name : CString}

theorem SameVariables.refl (g : Graph) : SameVariables g g := ⟨rfl, rfl⟩

theorem SameVariables.trans (h : SameVariables g g') (h' : SameVariables g' g'') :
    SameVariables g g'' :=
  ⟨h'.vars_eq.trans h.vars_eq, h'.members_eq.trans h.members_eq⟩

theorem SameVariables.symm (h : SameVariables g g') : SameVariables g' g :=
  ⟨h.vars_eq.symm, h.members_eq.symm⟩

theorem Growths.members_eq (h : Growths E n g g') :
    ∃ made : List (CString × VarId),
      g'.members = g.members ++ made.map fun p => ScopeMember.var p.1 p.2 := by
  induction h with
  | refl => exact ⟨[], (List.append_nil _).symm⟩
  | @tail h _ _ hgrowth ih =>
      obtain ⟨made, hmade⟩ := ih
      cases hgrowth with
      | burn => exact ⟨made, hmade⟩
      | @create var hnew hclients hlevel hbound hle =>
          refine ⟨made ++ [(var.name, h.nextId)], ?_⟩
          simp [hmade]

theorem Growths.same_of_members (h : Growths E n g g') (hmembers : g'.members = g.members) :
    SameVariables g g' := by
  refine ⟨?_, hmembers⟩
  induction h with
  | refl => rfl
  | tail hgrowths hgrowth ih =>
      obtain ⟨made, hmade⟩ := Growths.members_eq hgrowths
      cases hgrowth with
      | burn => exact ih hmembers
      | create hnew hclients hlevel hbound hle =>
          have hlength := congrArg List.length hmembers
          simp [hmade] at hlength

theorem Growths.same_trans_iff (h : Growths E n g g') (h' : Growths E n g' g'') :
    SameVariables g g'' ↔ SameVariables g g' ∧ SameVariables g' g'' := by
  constructor
  · intro hsame
    obtain ⟨made, hmade⟩ := h.members_eq
    obtain ⟨made', hmade'⟩ := h'.members_eq
    have hlength := congrArg List.length hsame.members_eq
    simp only [hmade', hmade, List.length_append, List.length_map] at hlength
    have hnil : made = [] := List.length_eq_zero_iff.mp (by omega)
    have hnil' : made' = [] := List.length_eq_zero_iff.mp (by omega)
    refine ⟨h.same_of_members ?_, h'.same_of_members ?_⟩
    · simp [hmade, hnil]
    · simp [hmade', hnil']
  · rintro ⟨hsame, hsame'⟩
    exact hsame.trans hsame'

theorem Growths.templates_eq (h : Growths E n g g') : g'.templates = g.templates := by
  obtain ⟨made, hmade⟩ := h.members_eq
  simp [Graph.templates, hmade, List.filterMap_append, List.filterMap_map]

theorem Growths.templateSpec_eq (h : Growths E n g g') (name : CString) :
    templateSpec E g' name = templateSpec E g name := by
  rw [templateSpec, h.templates_eq, templateSpec]

theorem Growths.vars_eq_of_level (h : Growths E n g g') (hvalid : g.Valid E) {v : VarId}
    {var : Var} (hv : g.vars v = some var) (hlevel : n ≤ var.level) : g'.vars v = some var := by
  induction h with
  | refl => exact hv
  | tail hgrowths hgrowth ih =>
      have hvalid' := Growths.valid hgrowths hvalid
      cases hgrowth with
      | burn => exact ih
      | @create new hnew hclients hlevelNew hbound hle =>
          have hne := hbound.ne_nextId hvalid'
          refine (allocVar_vars_old hvalid' hne ih).trans (congrArg some ?_)
          rw [Var.withClient, if_neg]
          -- the bound of the new variable is of a lower level
          intro hvarN
          simp only [BoundFits, hvarN] at hbound
          obtain ⟨varN, hvarN', hlevelN, -⟩ := hbound
          obtain rfl : varN = var := Option.some.inj (hvarN'.symm.trans ih)
          omega

theorem notVariable_iff : NotVariable g name ↔ isVariable g name = false := by
  unfold NotVariable isVariable
  cases hfound : g.tryGetMember name with
  | none => simp
  | some member => cases member <;> simp

end growing

/-! ### What can be made depends on the variables only -/

section congruence

variable {E : GraphEnv} {g g' : Graph}

theorem SameVariables.canMake_eq (h : SameVariables g g') (n : Nat) :
    canMake E g' n = canMake E g n := by
  obtain ⟨hvars, hmembers⟩ := h
  induction n with
  | zero =>
      funext spec
      simp only [canMake, Graph.tryGetMember, hmembers]
  | succ n ih =>
      funext spec
      simp only [canMake, boundAvailable, templateSpec, Graph.templates, Graph.tryGetMember,
        hmembers, hvars, ih]

theorem SameVariables.makesBounds_eq (h : SameVariables g g') (n : Nat) :
    makesBounds E g' n = makesBounds E g n := by
  have hcan := fun m => h.canMake_eq (E := E) m
  obtain ⟨hvars, hmembers⟩ := h
  induction n with
  | zero => rfl
  | succ n ih =>
      funext spec
      simp only [makesBounds, templateMakes, isVariable, templateSpec, Graph.templates,
        Graph.tryGetMember, hmembers, hcan, ih]

end congruence

/-! ### The predictions are right -/

/-- An attempt to make a variable ends as predicted.  If the variable has been made, `before` is
the state with its bounds and without itself. -/
structure Predicted (E : GraphEnv) (n : Nat) (spec : VarSpec) (g : Graph)
    (outcome : Option VarId × Graph) : Prop where
  isSome_eq : outcome.1.isSome = canMake E g n spec
  failed : outcome.1 = none → (SameVariables g outcome.2 ↔ makesBounds E g n spec = false)
  stable : outcome.1 = none → ∀ spec', spec'.name = spec.name →
    canMake E outcome.2 n spec' = canMake E g n spec'
  made : ∀ v, outcome.1 = some v → ∃ before, Growths E n g before ∧
    SameVariables before (varRemove outcome.2 v) ∧
    (SameVariables g before ↔ makesBounds E g n spec = false)

/-- The predictions for an adder are right. -/
def Predicts (E : GraphEnv) (n : Nat) (add : VarAdder) : Prop :=
  ∀ (spec : VarSpec) (g : Graph), g.Valid E → numPlaceholders spec.name = n →
    NotVariable g spec.name → Predicted E n spec g (add spec g)

section predictions

variable {E : GraphEnv} {n : Nat} {add : VarAdder} {g g₁ : Graph} {name : CString}

theorem canMake_of_taken {spec : VarSpec} {member : ScopeMember}
    (htaken : g.tryGetMember spec.name = some member) : canMake E g n spec = false := by
  cases n <;> simp [canMake, htaken]

theorem canMake_of_invalid {spec : VarSpec} (hinvalid : isVarName spec.name = false) :
    canMake E g n spec = false := by
  cases n <;> simp [canMake, hinvalid]

theorem makesBounds_of_invalid {spec : VarSpec} (hinvalid : isVarName spec.name = false) :
    makesBounds E g n spec = false := by
  cases n <;> simp [makesBounds, hinvalid]

theorem FreshlyMade.not_same {g' : Graph} {spec : VarSpec} {v : VarId}
    (h : FreshlyMade g' spec v) (hvalid : g.Valid E) (hfree : NotVariable g spec.name) :
    ¬ SameVariables g g' := by
  intro hsame
  obtain ⟨var, hvar, hname, -⟩ := h
  rw [hsame.vars_eq] at hvar
  have hmember := hvalid.tryGetMember_name hvar
  rw [hname] at hmember
  exact hfree _ _ hmember

theorem same_varRemove_create {var : Var} (hvalid : g.Valid E)
    (hnew : g.tryGetMember var.name = none) (hclients : var.varNClients = [])
    (hlevel : var.level = numPlaceholders var.name) (hbound : BoundFits E g var) :
    SameVariables g (varRemove
      { allocVar g var with members := g.members ++ [.var var.name g.nextId] } g.nextId) := by
  have hne := hbound.ne_nextId hvalid
  have hvalid' := hvalid.create hnew hclients hlevel hbound
  have hmade : ({ allocVar g var with members := g.members ++ [.var var.name g.nextId] } :
      Graph).vars g.nextId = some var := by
    change (allocVar g var).vars g.nextId = some var
    rw [allocVar_vars hne, if_pos rfl]
  have hundo := varDestroy_allocVar hvalid hclients hne
  constructor
  · funext u
    rw [hvalid'.varRemove_vars hmade, ← congrFun (congrArg Graph.vars hundo) u]
    exact (varDestroy_vars (g := allocVar g var) hmade u).symm
  · rw [hvalid'.varRemove_eq hmade, varDestroy_members]
    have hnot : ScopeMember.var var.name g.nextId ∉ g.members := by
      intro hmem
      have := Graph.tryGetMember_eq_none hnew _ hmem
      simp [ScopeMember.name] at this
    change (g.members ++ [ScopeMember.var var.name g.nextId]).erase
      (ScopeMember.var var.name g.nextId) = g.members
    rw [List.erase_append_right _ hnot, List.erase_cons_head, List.append_nil]

theorem enrollVar_predicted {spec : VarSpec} {level : Nat} {varN : Option VarId} {m : Nat}
    (hvalid₁ : g₁.Valid E) (hgrowths : Growths E m g g₁) (hle : m ≤ n)
    (hmember : g₁.tryGetMember spec.name = g.tryGetMember spec.name)
    (hfree : NotVariable g spec.name) (hlevel : level = numPlaceholders spec.name)
    (hbound : BoundFits E g₁ ⟨spec.name, spec.type, level, varN, [], spec.priority, spec.props⟩)
    (hcan : canMake E g n spec = (g.tryGetMember spec.name).isNone)
    (hmakes : SameVariables g g₁ ↔ makesBounds E g n spec = false) :
    Predicted E n spec g (enrollVar g₁
      ⟨spec.name, spec.type, level, varN, [], spec.priority, spec.props⟩) := by
  rcases enrollVar_cases hvalid₁ rfl hlevel hbound with
    ⟨hnew, henroll⟩ | ⟨old, oldVar, hredef, -, -⟩ | ⟨htaken, -, henroll⟩
  · rw [henroll]
    have hnone : g.tryGetMember spec.name = none := hmember.symm.trans hnew
    refine ⟨by simp [hcan, hnone], fun h => (nomatch h), fun h => (nomatch h), ?_⟩
    intro v hv
    obtain rfl := Option.some.inj hv
    exact ⟨g₁, hgrowths.mono hle, same_varRemove_create hvalid₁ hnew rfl hlevel hbound, hmakes⟩
  · obtain ⟨key, hkey⟩ := hredef.found
    exact absurd (hmember.symm.trans hkey) (hfree key old)
  · rw [henroll]
    obtain ⟨member, htaken'⟩ := Option.ne_none_iff_exists'.mp htaken
    have hmember' : g.tryGetMember spec.name = some member := hmember.symm.trans htaken'
    refine ⟨by simp [hcan, hmember'], fun _ => ?_, fun _ => ?_, fun _ h => (nomatch h)⟩
    · have hburn : SameVariables g { g₁ with nextId := g₁.nextId + 1 } ↔ SameVariables g g₁ :=
        ⟨fun h => ⟨h.vars_eq, h.members_eq⟩, fun h => ⟨h.vars_eq, h.members_eq⟩⟩
      exact hburn.trans hmakes
    · intro spec' hspec'
      rw [canMake_of_taken (hspec' ▸ htaken'), canMake_of_taken (hspec' ▸ hmember')]

/-- No template can make the bound, so a plain bound is the only chance. -/
structure PlainOnly (E : GraphEnv) (n : Nat) (g : Graph) (name : CString) : Prop where
  free : NotVariable g name
  noTemplate : ∀ spec, templateSpec E g name = some spec → canMake E g n spec = false

theorem templateSpec_name {spec : VarSpec} (h : templateSpec E g name = some spec) :
    spec.name = name := by
  obtain ⟨tmpl, -, rfl⟩ := Option.map_eq_some_iff.mp h
  rfl

theorem PlainOnly.boundAvailable_eq (h : PlainOnly E n g name) (props : VarProperties)
    (priority : Priority) :
    boundAvailable E g (canMake E g n) name props priority =
      canMake E g n (boundSpec E name priority) := by
  unfold boundAvailable
  cases hfound : g.tryGetMember name with
  | none =>
      cases hspec : templateSpec E g name with
      | none => rfl
      | some spec => simp [h.noTemplate spec hspec]
  | some member =>
      cases member with
      | var key v => exact absurd hfound (h.free key v)
      | tmpl template => exact (canMake_of_taken hfound).symm

/-- The outcome of the search for a bound is as predicted. -/
structure BoundPredicted (E : GraphEnv) (n : Nat) (name : CString) (props : VarProperties)
    (priority : Priority) (g : Graph) (outcome : Option (VarId × Bool) × Graph) : Prop where
  isSome_eq : outcome.1.isSome = boundAvailable E g (canMake E g n) name props priority
  stable : outcome.1 = none → ∀ props' priority',
    boundAvailable E outcome.2 (canMake E outcome.2 n) name props' priority' =
      boundAvailable E g (canMake E g n) name props' priority'
  present : isVariable g name = true → outcome.2 = g ∧ ∀ b, outcome.1 ≠ some (b, true)
  missing : isVariable g name = false → (SameVariables g outcome.2 ↔
    templateMakes E g (canMake E g n) (makesBounds E g n) name = false ∧
      makesBounds E g n (boundSpec E name priority) = false ∧
      canMake E g n (boundSpec E name priority) = false)
  found : isVariable g name = false → ∀ b, outcome.1 = some (b, false) →
    templateMakes E g (canMake E g n) (makesBounds E g n) name = true
  created : ∀ b, outcome.1 = some (b, true) → ∃ before, Growths E n g before ∧
    SameVariables before (varRemove outcome.2 b) ∧
    (SameVariables g before ↔
      templateMakes E g (canMake E g n) (makesBounds E g n) name = false ∧
        makesBounds E g n (boundSpec E name priority) = false)

/-- The outcome of adding a plain bound, as `var_get_or_add_array_bound` returns it. -/
def addedBound (outcome : Option VarId × Graph) : Option (VarId × Bool) × Graph :=
  match outcome with
  | (some b, g) => (some (b, true), g)
  | (none, g) => (none, g)

/-- Adding a plain bound in the state `g₁` after all templates have failed. -/
theorem addedBound_predicted (hadd : Predicts E n add) (hmakes : MakesVariables E n add)
    (hvalid : g.Valid E) (hname : numPlaceholders name = n) (props : VarProperties)
    (priority : Priority) (hgrowths : Growths E n g g₁) (hplain : PlainOnly E n g name)
    (hplain₁ : PlainOnly E n g₁ name)
    (hstable : ∀ spec', spec'.name = name → canMake E g₁ n spec' = canMake E g n spec')
    (hsame : SameVariables g g₁ ↔
      templateMakes E g (canMake E g n) (makesBounds E g n) name = false) :
    BoundPredicted E n name props priority g
      (addedBound (add (boundSpec E name priority) g₁)) := by
  have hvalid₁ := hgrowths.valid hvalid
  have hpred := hadd (boundSpec E name priority) g₁ hvalid₁ hname hplain₁.free
  obtain ⟨hgrowths₂, hfresh, hfree₂⟩ := hmakes (boundSpec E name priority) g₁ hvalid₁ hname
    hplain₁.free
  have hmissing : isVariable g name = false := notVariable_iff.mp hplain.free
  have hcan := hpred.isSome_eq
  rw [hstable _ rfl] at hcan
  -- the bounds made for the templates and for the plain bound
  have hboth : ∀ h : Graph, Growths E n g₁ h →
      (SameVariables g₁ h ↔ makesBounds E g₁ n (boundSpec E name priority) = false) →
      (SameVariables g h ↔
        templateMakes E g (canMake E g n) (makesBounds E g n) name = false ∧
          makesBounds E g n (boundSpec E name priority) = false) := by
    intro h hgrowths' hplainSame
    rw [Growths.same_trans_iff hgrowths hgrowths', hsame, hplainSame]
    refine and_congr_right fun htemplate => ?_
    rw [(hsame.mpr htemplate).makesBounds_eq]
  rcases hadded : add (boundSpec E name priority) g₁ with ⟨_ | b, g₂⟩
  · rw [hadded] at hpred hgrowths₂ hfree₂ hcan
    have hfailed : canMake E g n (boundSpec E name priority) = false := by
      simpa using hcan.symm
    refine ⟨?_, fun _ props' priority' => ?_, fun h => ?_, fun _ => ?_, fun _ _ h => (nomatch h),
      fun _ h => (nomatch h)⟩
    · rw [hplain.boundAvailable_eq]
      exact hfailed.symm
    · have hplain₂ : PlainOnly E n g₂ name := by
        refine ⟨hfree₂ rfl, fun spec hspec => ?_⟩
        rw [hgrowths₂.templateSpec_eq] at hspec
        have hname' := templateSpec_name hspec
        exact (hpred.stable rfl spec hname').trans (hplain₁.noTemplate spec hspec)
      change boundAvailable E g₂ (canMake E g₂ n) name props' priority' = _
      rw [hplain₂.boundAvailable_eq, hplain.boundAvailable_eq]
      exact (hpred.stable rfl (boundSpec E name priority') rfl).trans (hstable _ rfl)
    · rw [hmissing] at h
      contradiction
    · rw [addedBound, hboth g₂ hgrowths₂ (hpred.failed rfl)]
      simp [hfailed]
  · rw [hadded] at hpred hgrowths₂ hfresh hcan
    have hsuccess : canMake E g n (boundSpec E name priority) = true := hcan.symm
    refine ⟨?_, fun h => (nomatch h), fun h => ?_, fun _ => ?_, fun _ _ h => (nomatch h), ?_⟩
    · rw [hplain.boundAvailable_eq]
      exact hsuccess.symm
    · rw [hmissing] at h
      contradiction
    · have hnot := (hfresh b rfl).not_same hvalid₁ hplain₁.free
      have hnot' : ¬ SameVariables g g₂ := fun h =>
        hnot ((Growths.same_trans_iff hgrowths hgrowths₂).mp h).2
      simp [addedBound, hnot', hsuccess]
    · intro b' hb'
      obtain ⟨rfl, -⟩ := Prod.mk.inj (Option.some.inj hb')
      obtain ⟨before, hbefore, hremove, hsame'⟩ := hpred.made b rfl
      exact ⟨before, hgrowths.trans hbefore, hremove, hboth before hbefore hsame'⟩

theorem varCheckArrayBound_of_made {spec : VarSpec} {var : Var} (props : VarProperties)
    (priority : Priority) (htype : var.type = spec.type) (hprio : var.priority = spec.priority)
    (hprops : var.props = spec.props) :
    varCheckArrayBound E var props priority = varCheckArrayBound E spec.bare props priority := by
  simp only [varCheckArrayBound, htype, hprio, hprops, VarSpec.bare]

theorem varGetOrAddArrayBound_of_none {props : VarProperties} {priority : Priority}
    (htry : varScopeTryGet E add name g = (none, g₁)) :
    varGetOrAddArrayBound E add name props priority g =
      addedBound (add (boundSpec E name priority) g₁) := by
  unfold varGetOrAddArrayBound
  rw [htry]
  rfl

/-- The search for a bound that has to be made from a template. -/
theorem templateBound_predicted {spec : VarSpec} (hadd : Predicts E n add)
    (hmakes : MakesVariables E n add) (hvalid : g.Valid E) (hname : numPlaceholders name = n)
    (props : VarProperties) (priority : Priority) (hnone : g.tryGetMember name = none)
    (hspec : templateSpec E g name = some spec)
    (htry : varScopeTryGet E add name g = add spec g) :
    BoundPredicted E n name props priority g
      (varGetOrAddArrayBound E add name props priority g) := by
  have hspecName := templateSpec_name hspec
  have hmissing : isVariable g name = false := by simp [isVariable, hnone]
  have hfree : NotVariable g name := notVariable_iff.mpr hmissing
  have hfree' : NotVariable g spec.name := hspecName ▸ hfree
  have hcount : numPlaceholders spec.name = n := hspecName ▸ hname
  have hpred := hadd spec g hvalid hcount hfree'
  obtain ⟨hgrowths, hfresh, hfree₁⟩ := hmakes spec g hvalid hcount hfree'
  have htemplate : templateMakes E g (canMake E g n) (makesBounds E g n) name =
      (canMake E g n spec || makesBounds E g n spec) := by
    simp [templateMakes, hnone, hspec]
  rcases hadded : add spec g with ⟨_ | b, g₁⟩
  · rw [hadded] at hpred hgrowths hfree₁ htry
    have hfailed : canMake E g n spec = false := by
      simpa using hpred.isSome_eq.symm
    have hstable : ∀ spec', spec'.name = name →
        canMake E g₁ n spec' = canMake E g n spec' :=
      fun spec' h => hpred.stable rfl spec' (h.trans hspecName.symm)
    rw [varGetOrAddArrayBound_of_none htry]
    refine addedBound_predicted hadd hmakes hvalid hname props priority hgrowths
      ⟨hfree, ?_⟩ ⟨hspecName ▸ hfree₁ rfl, ?_⟩ hstable ?_
    · intro spec' hspec'
      obtain rfl := Option.some.inj (hspec.symm.trans hspec')
      exact hfailed
    · intro spec' hspec'
      rw [hgrowths.templateSpec_eq] at hspec'
      obtain rfl := Option.some.inj (hspec.symm.trans hspec')
      exact (hstable spec hspecName).trans hfailed
    · rw [htemplate, hfailed, Bool.false_or]
      exact hpred.failed rfl
  · rw [hadded] at hpred hgrowths hfresh htry
    have hsuccess : canMake E g n spec = true := hpred.isSome_eq.symm
    have hnot := (hfresh b rfl).not_same hvalid hfree'
    obtain ⟨varN, hvarN, hvarName, htype, hprio, hprops, -⟩ := hfresh b rfl
    have hcheck := fun props' priority' =>
      varCheckArrayBound_of_made (E := E) props' priority' htype hprio hprops
    have havailable : ∀ props' priority',
        boundAvailable E g (canMake E g n) name props' priority' =
          varCheckArrayBound E varN props' priority' := by
      intro props' priority'
      simp [boundAvailable, hnone, hspec, hsuccess, hcheck]
    have hmember : g₁.tryGetMember name = some (.var varN.name b) := by
      have h := (hgrowths.valid hvalid).tryGetMember_name hvarN
      rwa [show varN.name = name from hvarName.trans hspecName] at h ⊢
    have hget : varGetOrAddArrayBound E add name props priority g =
        if varCheckArrayBound E varN props priority then (some (b, false), g₁)
        else (none, g₁) := by
      unfold varGetOrAddArrayBound
      have hvarN' : g₁.vars b = some varN := hvarN
      simp only [htry, hvarN']
    have hsame : SameVariables g g₁ ↔
        templateMakes E g (canMake E g n) (makesBounds E g n) name = false ∧
          makesBounds E g n (boundSpec E name priority) = false ∧
          canMake E g n (boundSpec E name priority) = false := by
      rw [htemplate, hsuccess]
      exact ⟨fun h => absurd h hnot, fun h => nomatch h.1⟩
    rw [hget]
    split
    · next hok =>
        refine ⟨?_, fun h => (nomatch h), fun h => ?_, fun _ => hsame, fun _ _ _ => ?_, ?_⟩
        · rw [havailable, hok]
          rfl
        · rw [hmissing] at h
          contradiction
        · rw [htemplate, hsuccess]
          rfl
        · intro b' hb'
          exact nomatch (Prod.mk.inj (Option.some.inj hb')).2
    · next hbad =>
        refine ⟨?_, fun _ props' priority' => ?_, fun h => ?_, fun _ => hsame,
          fun _ _ h => (nomatch h), fun _ h => (nomatch h)⟩
        · rw [havailable, Bool.eq_false_iff.mpr hbad]
          rfl
        · have hvarN' : g₁.vars b = some varN := hvarN
          rw [havailable]
          simp [boundAvailable, hmember, hvarN']
        · rw [hmissing] at h
          contradiction

/-- The predictions for `var_get_or_add_array_bound` are right. -/
theorem varGetOrAddArrayBound_predicted (hadd : Predicts E n add)
    (hmakes : MakesVariables E n add) (hvalid : g.Valid E) (hname : numPlaceholders name = n)
    (props : VarProperties) (priority : Priority) :
    BoundPredicted E n name props priority g
      (varGetOrAddArrayBound E add name props priority g) := by
  cases hfound : g.tryGetMember name with
  | some member =>
      cases member with
      | var key b =>
          obtain ⟨hmem, -⟩ := Graph.tryGetMember_some hfound
          obtain ⟨varN, hvarN, -⟩ := hvalid.member_live key b hmem
          have hpresent : isVariable g name = true := by simp [isVariable, hfound]
          have havailable : boundAvailable E g (canMake E g n) name props priority =
              varCheckArrayBound E varN props priority := by
            simp [boundAvailable, hfound, hvarN]
          have hget : varGetOrAddArrayBound E add name props priority g =
              if varCheckArrayBound E varN props priority then (some (b, false), g)
              else (none, g) := by
            simp only [varGetOrAddArrayBound, varScopeTryGet, hfound, hvarN]
          rw [hget]
          split
          · next hok =>
              refine ⟨by rw [havailable, hok]; rfl, fun h => (nomatch h), fun _ => ⟨rfl, ?_⟩,
                fun h => ?_, fun h => ?_, ?_⟩
              · intro b' hb'
                exact nomatch (Prod.mk.inj (Option.some.inj hb')).2
              · rw [hpresent] at h
                contradiction
              · rw [hpresent] at h
                contradiction
              · intro b' hb'
                exact nomatch (Prod.mk.inj (Option.some.inj hb')).2
          · next hbad =>
              refine ⟨by rw [havailable, Bool.eq_false_iff.mpr hbad]; rfl, fun _ _ _ => rfl,
                fun _ => ⟨rfl, fun _ h => (nomatch h)⟩, fun h => ?_, fun _ _ h => (nomatch h),
                fun _ h => (nomatch h)⟩
              rw [hpresent] at h
              contradiction
      | tmpl template =>
          have htry : varScopeTryGet E add name g = (none, g) := by
            simp only [varScopeTryGet, hfound]
          have hplain : PlainOnly E n g name := by
            refine ⟨notVariable_iff.mpr (by simp [isVariable, hfound]), fun spec hspec => ?_⟩
            exact canMake_of_taken (by rw [templateSpec_name hspec]; exact hfound)
          rw [varGetOrAddArrayBound_of_none htry]
          refine addedBound_predicted hadd hmakes hvalid hname props priority
            Relation.ReflTransGen.refl hplain hplain (fun _ _ => rfl) ?_
          simp [SameVariables.refl, templateMakes, hfound]
  | none =>
      cases hspec : templateSpec E g name with
      | none =>
          have htry : varScopeTryGet E add name g = (none, g) := by
            have hno := Option.map_eq_none_iff.mp hspec
            simp only [varScopeTryGet, hfound, varTemplateInstantiateFromString, hno]
          have hplain : PlainOnly E n g name := by
            refine ⟨notVariable_iff.mpr (by simp [isVariable, hfound]), fun spec h => ?_⟩
            rw [hspec] at h
            contradiction
          rw [varGetOrAddArrayBound_of_none htry]
          refine addedBound_predicted hadd hmakes hvalid hname props priority
            Relation.ReflTransGen.refl hplain hplain (fun _ _ => rfl) ?_
          simp [SameVariables.refl, templateMakes, hspec]
      | some spec =>
          refine templateBound_predicted hadd hmakes hvalid hname props priority hfound hspec ?_
          obtain ⟨tmpl, htmpl, rfl⟩ := Option.map_eq_some_iff.mp hspec
          simp only [varScopeTryGet, hfound, varTemplateInstantiateFromString, htmpl]

theorem canMake_succ {spec : VarSpec} {bound : CString} (hvalidName : isVarName spec.name = true)
    (hcomputed : computedBoundName spec.name = some bound) :
    canMake E g (n + 1) spec = ((g.tryGetMember spec.name).isNone &&
      boundAvailable E g (canMake E g n) bound spec.props spec.priority) := by
  simp [canMake, hvalidName, hcomputed]

theorem BoundPredicted.same_iff {spec : VarSpec} {bound : CString}
    {outcome : Option (VarId × Bool) × Graph}
    (h : BoundPredicted E n bound spec.props spec.priority g outcome)
    (hvalidName : isVarName spec.name = true)
    (hcomputed : computedBoundName spec.name = some bound) :
    SameVariables g outcome.2 ↔ makesBounds E g (n + 1) spec = false := by
  cases hpresent : isVariable g bound with
  | true =>
      rw [(h.present hpresent).1]
      simp [SameVariables.refl, makesBounds, hcomputed, hpresent]
  | false =>
      rw [h.missing hpresent]
      simp [makesBounds, hvalidName, hcomputed, hpresent, and_assoc]

theorem varCreate_predicted {spec : VarSpec} (hadd : Predicts E n add)
    (hmakes : MakesVariables E n add) (hvalid : g.Valid E)
    (hname : numPlaceholders spec.name = n + 1) (hfree : NotVariable g spec.name)
    (hvalidName : isVarName spec.name = true) :
    Predicted E (n + 1) spec g (varCreate E add spec none g) := by
  unfold varCreate
  cases hcomputed : computedBoundName spec.name with
  | none =>
      have := computedBoundName_eq_none hcomputed
      omega
  | some bound =>
      have hcount := numPlaceholders_computedBoundName hcomputed
      have hbelow : numPlaceholders bound = n := by omega
      obtain ⟨hgrowths, hbound⟩ :=
        varGetOrAddArrayBound_spec hmakes hvalid hbelow spec.props spec.priority
      have hpred :=
        varGetOrAddArrayBound_predicted hadd hmakes hvalid hbelow spec.props spec.priority
      have hsame := hpred.same_iff hvalidName hcomputed
      have hsome := hpred.isSome_eq
      simp only [Option.getD_none]
      rcases hget : varGetOrAddArrayBound E add bound spec.props spec.priority g with
        ⟨_ | ⟨b, created⟩, g₁⟩
      · rw [hget] at hgrowths hpred hsame hsome
        have hmember : g₁.tryGetMember spec.name = g.tryGetMember spec.name :=
          hgrowths.tryGetMember_eq (by omega)
        have hnot : boundAvailable E g (canMake E g n) bound spec.props spec.priority = false := by
          simpa using hsome.symm
        refine ⟨?_, fun _ => hsame, fun _ spec' hspec' => ?_, fun _ h => (nomatch h)⟩
        · simp [canMake_succ hvalidName hcomputed, hnot]
        · have hvalidName' : isVarName spec'.name = true := hspec' ▸ hvalidName
          have hcomputed' : computedBoundName spec'.name = some bound := hspec' ▸ hcomputed
          have hstable := hpred.stable rfl spec'.props spec'.priority
          simp only at hstable
          rw [canMake_succ hvalidName' hcomputed', canMake_succ hvalidName' hcomputed', hspec',
            hmember, hstable]
      · rw [hget] at hgrowths hbound hsame hsome
        have hmember : g₁.tryGetMember spec.name = g.tryGetMember spec.name :=
          hgrowths.tryGetMember_eq (by omega)
        obtain ⟨varN, hvarN, hsuit⟩ := hbound b created rfl
        have hfits : BoundFits E g₁ ⟨spec.name, spec.type, numPlaceholders spec.name, some b, [],
            spec.priority, spec.props⟩ := by
          refine ⟨varN, hvarN, ?_, hsuit.type_eq, hsuit.priority_eq, hsuit.optional⟩
          rw [hsuit.level_eq]
          exact hname.symm
        simp only [ne_eq, not_true_eq_false, false_and, if_false]
        refine enrollVar_predicted (hgrowths.valid hvalid) hgrowths (Nat.le_succ n) hmember hfree
          rfl hfits ?_ hsame
        have hyes : boundAvailable E g (canMake E g n) bound spec.props spec.priority = true :=
          hsome.symm
        simp [canMake_succ hvalidName hcomputed, hyes]

theorem predicted_of_invalid {spec : VarSpec} (hinvalid : ¬ isVarName spec.name = true) :
    Predicted E n spec g (none, g) := by
  have hfalse := Bool.eq_false_iff.mpr hinvalid
  refine ⟨(canMake_of_invalid hfalse).symm, fun _ => ?_, fun _ _ _ => rfl, fun _ h => (nomatch h)⟩
  simp [SameVariables.refl, makesBounds_of_invalid hfalse]

theorem varAdd_predicts (E : GraphEnv) (n : Nat) : Predicts E n (varAdd E n) := by
  induction n with
  | zero =>
      intro spec g hvalid hname hfree
      unfold varAdd
      split
      · next hvalidName =>
          unfold varCreate
          cases hcomputed : computedBoundName spec.name with
          | some computed =>
              have := numPlaceholders_computedBoundName hcomputed
              omega
          | none =>
              refine enrollVar_predicted hvalid (m := 0) Relation.ReflTransGen.refl
                (Nat.le_refl 0) rfl hfree hname.symm rfl ?_ ?_
              · simp [canMake, hvalidName]
              · simp [SameVariables.refl, makesBounds]
      · next hinvalid => exact predicted_of_invalid hinvalid
  | succ n ih =>
      intro spec g hvalid hname hfree
      unfold varAdd
      split
      · next hvalidName =>
          exact varCreate_predicted ih (varAdd_makes E n) hvalid hname hfree hvalidName
      · next hinvalid => exact predicted_of_invalid hinvalid

end predictions

/-! ### The whole call -/

section call

variable {E : GraphEnv} {g g₁ : Graph} {spec : VarSpec}

theorem nameOpen_growths {n : Nat} (hgrowths : Growths E n g g₁) (hvalid : g.Valid E)
    (hlevel : n + 1 = numPlaceholders spec.name) : NameOpen g₁ spec ↔ NameOpen g spec := by
  have hmember : g₁.tryGetMember spec.name = g.tryGetMember spec.name :=
    hgrowths.tryGetMember_eq (by omega)
  -- the variable that may be redefined is of a higher level than the bounds
  have hold : ∀ {key v var}, g.tryGetMember spec.name = some (.var key v) →
      g.vars v = some var → g₁.vars v = some var := by
    intro key v var hkey hv
    obtain ⟨hmem, hsame⟩ := Graph.tryGetMember_some hkey
    obtain ⟨var', hv', hname⟩ := hvalid.member_live key v hmem
    obtain rfl : var' = var := Option.some.inj (hv'.symm.trans hv)
    refine hgrowths.vars_eq_of_level hvalid hv ?_
    have hcount := numPlaceholders_of_sameName hsame
    have hlevel' := hvalid.level_eq v var' hv
    simp only [ScopeMember.name] at hcount
    rw [hname] at hlevel'
    omega
  unfold NameOpen
  rw [hmember]
  refine or_congr Iff.rfl ⟨?_, ?_⟩
  · rintro ⟨old, oldVar, hredef, hcheck⟩
    obtain ⟨key, hkey⟩ := hredef.found
    rw [hmember] at hkey
    obtain ⟨before, hbefore⟩ := hredef.of_growths hgrowths hvalid hmember
    obtain rfl : before = oldVar :=
      Option.some.inj ((hold hkey hbefore.live).symm.trans hredef.live)
    refine ⟨old, before, hbefore, fun hoptional client hclient clientVar hclientVar => ?_⟩
    obtain ⟨clients, hclientVar'⟩ := hgrowths.vars_eq hvalid hclientVar
    have hclientOptional := hcheck hoptional client hclient _ hclientVar'
    exact hclientOptional
  · rintro ⟨old, oldVar, hredef, hcheck⟩
    obtain ⟨key, hkey⟩ := hredef.found
    refine ⟨old, oldVar, ⟨⟨key, hmember.trans hkey⟩, hold hkey hredef.live, hredef.weak,
      hredef.type_eq, hredef.priority_eq⟩, fun hoptional client hclient clientVar hclientVar => ?_⟩
    obtain ⟨before, hbefore, -⟩ := hvalid.boundGraph.client hredef.live hclient
    obtain ⟨clients, hafter⟩ := hgrowths.vars_eq hvalid hbefore
    obtain rfl := Option.some.inj (hafter.symm.trans hclientVar)
    exact hcheck hoptional client hclient before hbefore

theorem enrollVar_open {level : Nat} {varN : Option VarId} (hvalid : g.Valid E)
    (hlevel : level = numPlaceholders spec.name)
    (hbound : BoundFits E g ⟨spec.name, spec.type, level, varN, [], spec.priority, spec.props⟩) :
    (NameOpen g spec ∧ (enrollVar g
      ⟨spec.name, spec.type, level, varN, [], spec.priority, spec.props⟩).1 ≠ none) ∨
    (¬ NameOpen g spec ∧ enrollVar g
      ⟨spec.name, spec.type, level, varN, [], spec.priority, spec.props⟩ =
        (none, { g with nextId := g.nextId + 1 })) := by
  rcases enrollVar_cases hvalid rfl hlevel hbound with
    ⟨hnew, henroll⟩ | ⟨old, oldVar, hredef, hcheck, henroll⟩ | ⟨htaken, hno, henroll⟩
  · exact Or.inl ⟨Or.inl hnew, by simp [henroll]⟩
  · exact Or.inl ⟨Or.inr ⟨old, oldVar, hredef, hcheck⟩, by simp [henroll]⟩
  · refine Or.inr ⟨?_, henroll⟩
    rintro (hnew | ⟨old, oldVar, hredef, hcheck⟩)
    · exact htaken hnew
    · exact hno old oldVar hredef hcheck

theorem templateMakes_of_not_available {n : Nat} {name : CString} {priority : Priority}
    {props : VarProperties} (hmissing : isVariable g name = false)
    (hnot : boundAvailable E g (canMake E g n) name props priority = false)
    (hcan : canMake E g n (boundSpec E name priority) = true) :
    templateMakes E g (canMake E g n) (makesBounds E g n) name = true := by
  by_contra hno
  have hplain : PlainOnly E n g name := by
    refine ⟨notVariable_iff.mpr hmissing, fun spec hspec => ?_⟩
    cases hfound : g.tryGetMember name with
    | some member => exact canMake_of_taken (by rw [templateSpec_name hspec]; exact hfound)
    | none =>
        simp only [templateMakes, hfound, hspec] at hno
        simp at hno
        exact hno.1
  rw [hplain.boundAvailable_eq, hcan] at hnot
  contradiction

/-- `var_create` for an array, whose bound has the given name. -/
theorem varCreate_same_iff {add : VarAdder} {arrayBoundName : Option CString}
    {computed bound : CString} (hvalid : g.Valid E)
    (hcomputed : computedBoundName spec.name = some computed)
    (hboundName : arrayBoundName.getD computed = bound)
    (hadd : Predicts E (numPlaceholders bound) add)
    (hmakes : MakesVariables E (numPlaceholders bound) add) :
    ((varCreate E add spec arrayBoundName g).1 = none →
        SameVariables g (varCreate E add spec arrayBoundName g).2) ↔
      ¬ (isVariable g bound = false ∧
        (templateMakes E g (canMake E g (numPlaceholders bound))
            (makesBounds E g (numPlaceholders bound)) bound = true ∨
          makesBounds E g (numPlaceholders bound) (boundSpec E bound spec.priority) = true ∨
          (canMake E g (numPlaceholders bound) (boundSpec E bound spec.priority) = true ∧
            numPlaceholders bound + 1 = numPlaceholders spec.name)) ∧
        ¬ (numPlaceholders bound + 1 = numPlaceholders spec.name ∧
          boundAvailable E g (canMake E g (numPlaceholders bound)) bound spec.props
            spec.priority = true ∧
          NameOpen g spec)) := by
  have hcount := numPlaceholders_computedBoundName hcomputed
  obtain ⟨hgrowths, hbound⟩ :=
    varGetOrAddArrayBound_spec hmakes hvalid rfl spec.props spec.priority
  have hpred :=
    varGetOrAddArrayBound_predicted hadd hmakes hvalid rfl spec.props spec.priority
  have hsome := hpred.isSome_eq
  have hmissing := hpred.missing
  unfold varCreate
  simp only [hcomputed, hboundName]
  rcases hget : varGetOrAddArrayBound E add bound spec.props spec.priority g with
    ⟨_ | ⟨b, created⟩, g₁⟩
  · rw [hget] at hpred hsome hmissing
    have hnot : boundAvailable E g (canMake E g (numPlaceholders bound)) bound spec.props
        spec.priority = false := by
      simpa using hsome.symm
    cases hpresent : isVariable g bound with
    | true =>
        obtain rfl : g₁ = g := (hpred.present hpresent).1
        simp [SameVariables.refl]
    | false =>
        have htemplate := templateMakes_of_not_available hpresent hnot
        simp only [true_implies, hmissing hpresent, hnot]
        grind
  · rw [hget] at hpred hsome hmissing hgrowths hbound
    have hyes : boundAvailable E g (canMake E g (numPlaceholders bound)) bound spec.props
        spec.priority = true := hsome.symm
    obtain ⟨varN, hvarN, hsuit⟩ := hbound b created rfl
    have hlevelN := hsuit.level_eq
    -- without an explicit bound the levels match
    have hcomputedLevel : arrayBoundName = none →
        numPlaceholders bound + 1 = numPlaceholders spec.name := by
      rintro rfl
      rw [← hboundName]
      exact hcount
    simp only at hvarN ⊢
    have hsame₁ : ∀ {h : Graph}, SameVariables g { h with nextId := h.nextId + 1 } ↔
        SameVariables g h :=
      ⟨fun h => ⟨h.vars_eq, h.members_eq⟩, fun h => ⟨h.vars_eq, h.members_eq⟩⟩
    by_cases hlevel : numPlaceholders bound + 1 = numPlaceholders spec.name
    · have hfits : BoundFits E g₁ ⟨spec.name, spec.type, numPlaceholders spec.name, some b, [],
          spec.priority, spec.props⟩ :=
        ⟨varN, hvarN, by rw [hlevelN]; exact hlevel, hsuit.type_eq, hsuit.priority_eq,
          hsuit.optional⟩
      have hmatch : ¬ (arrayBoundName ≠ none ∧
          (g₁.vars b).map (fun varN => varN.level + 1) ≠ some (numPlaceholders spec.name)) := by
        rintro ⟨-, hne⟩
        rw [hvarN] at hne
        exact hne (by simp [hlevelN, hlevel])
      have hopen := nameOpen_growths hgrowths hvalid hlevel
      rw [if_neg hmatch]
      rcases enrollVar_open (hgrowths.valid hvalid) rfl hfits with ⟨hyesOpen, hmade⟩ | ⟨hno, henroll⟩
      · have hopen' := hopen.mp hyesOpen
        simp [hmade, hlevel, hyes, hopen']
      · have hno' : ¬ NameOpen g spec := fun h => hno (hopen.mpr h)
        rw [henroll]
        simp only [true_implies, hsame₁]
        cases hpresent : isVariable g bound with
        | true =>
            obtain rfl : g₁ = g := (hpred.present hpresent).1
            simp [SameVariables.refl]
        | false =>
            simp only [hmissing hpresent, hlevel, hno']
            grind
    · have hmatch : arrayBoundName ≠ none ∧
          (g₁.vars b).map (fun varN => varN.level + 1) ≠ some (numPlaceholders spec.name) := by
        refine ⟨fun h => hlevel (hcomputedLevel h), ?_⟩
        rw [hvarN]
        intro heq
        exact hlevel (hlevelN ▸ Option.some.inj heq)
      rw [if_pos hmatch]
      simp only [true_implies, hlevel, and_false, or_false, false_and, not_false_eq_true, and_true]
      cases hpresent : isVariable g bound with
      | true =>
          obtain ⟨hsameGraph, hnotCreated⟩ := hpred.present hpresent
          obtain rfl : g₁ = g := hsameGraph
          cases created with
          | true => exact absurd rfl (hnotCreated b)
          | false => simp [SameVariables.refl]
      | false =>
          cases created with
          | true =>
              obtain ⟨before, -, hremoved, hsame⟩ := hpred.created b rfl
              have hiff : SameVariables g (varRemove g₁ b) ↔ SameVariables g before :=
                ⟨fun h => h.trans hremoved.symm, fun h => h.trans hremoved⟩
              rw [if_pos rfl, hiff, hsame]
              grind
          | false =>
              have htemplate := hpred.found hpresent b rfl
              rw [if_neg (by simp), hmissing hpresent, htemplate]
              simp

theorem varAddWithArrayBound_of_invalid (hinvalid : isVarName spec.name = false)
    (arrayBoundName : Option CString) :
    varAddWithArrayBound E spec arrayBoundName g = (none, g) := by
  cases arrayBoundName with
  | some name => simp [varAddWithArrayBound, hinvalid]
  | none =>
      rw [varAddWithArrayBound]
      cases numPlaceholders spec.name <;> simp [varAdd, hinvalid]

theorem varAddWithArrayBound_of_array (hvalidName : isVarName spec.name = true)
    {computed : CString} (hcomputed : computedBoundName spec.name = some computed)
    (arrayBoundName : Option CString) :
    varAddWithArrayBound E spec arrayBoundName g =
      varCreate E (varAdd E (numPlaceholders (arrayBoundName.getD computed))) spec
        arrayBoundName g := by
  cases arrayBoundName with
  | some name => simp [varAddWithArrayBound, hvalidName]
  | none =>
      rw [varAddWithArrayBound, ← numPlaceholders_computedBoundName hcomputed]
      simp [varAdd, hvalidName]

theorem varAddWithArrayBound_of_scalar (hvalid : g.Valid E)
    (hcomputed : computedBoundName spec.name = none) (arrayBoundName : Option CString)
    (hfailed : (varAddWithArrayBound E spec arrayBoundName g).1 = none) :
    SameVariables g (varAddWithArrayBound E spec arrayBoundName g).2 := by
  cases hvalidName : isVarName spec.name with
  | false =>
      rw [varAddWithArrayBound_of_invalid hvalidName]
      exact SameVariables.refl g
  | true =>
      have hlevel := computedBoundName_eq_none hcomputed
      cases arrayBoundName with
      | some name =>
          simp only [varAddWithArrayBound, hvalidName, if_true, varCreate, hcomputed]
          exact SameVariables.refl g
      | none =>
          have hadd : varAddWithArrayBound E spec none g =
              enrollVar g ⟨spec.name, spec.type, 0, none, [], spec.priority, spec.props⟩ := by
            simp only [varAddWithArrayBound, hlevel, varAdd, hvalidName, if_true, varCreate,
              hcomputed]
          have hfits : BoundFits E g
              ⟨spec.name, spec.type, 0, none, [], spec.priority, spec.props⟩ := rfl
          rw [hadd] at hfailed ⊢
          rcases enrollVar_open hvalid hlevel.symm hfits with ⟨-, hmade⟩ | ⟨-, henroll⟩
          · exact absurd hfailed hmade
          · rw [henroll]
            exact ⟨rfl, rfl⟩

end call

/-- When a definition fails, it leaves the variables, their properties and their clients as they
were, if and only if it does not leave bounds behind that it has made on its way to the
failure. -/
theorem failed_definition_same_iff {E : GraphEnv} {g : Graph} (hrun : GraphRun E Graph.empty g)
    (spec : VarSpec) (arrayBoundName : Option CString) :
    ((varAddWithArrayBound E spec arrayBoundName g).1 = none →
        SameVariables g (varAddWithArrayBound E spec arrayBoundName g).2) ↔
      ¬ LeavesBounds E g spec arrayBoundName := by
  have hvalid := hrun.valid (Graph.Valid.empty E)
  cases hcomputed : computedBoundName spec.name with
  | none =>
      have hno : ¬ LeavesBounds E g spec arrayBoundName := by
        rintro ⟨-, computed, h, -⟩
        exact nomatch hcomputed.symm.trans h
      exact ⟨fun _ => hno, fun _ => varAddWithArrayBound_of_scalar hvalid hcomputed arrayBoundName⟩
  | some computed =>
      cases hvalidName : isVarName spec.name with
      | false =>
          rw [varAddWithArrayBound_of_invalid hvalidName]
          refine ⟨fun _ h => ?_, fun _ _ => SameVariables.refl g⟩
          exact nomatch hvalidName.symm.trans h.1
      | true =>
          rw [varAddWithArrayBound_of_array hvalidName hcomputed,
            varCreate_same_iff hvalid hcomputed rfl (varAdd_predicts E _) (varAdd_makes E _)]
          refine not_congr ⟨fun h => ⟨hvalidName, computed, hcomputed, h⟩, ?_⟩
          rintro ⟨-, computed', hcomputed', h⟩
          obtain rfl := Option.some.inj (hcomputed.symm.trans hcomputed')
          exact h

/-- A definition whose bound is there already: it fails, and nothing has changed. -/
theorem failed_definition_same_iff_X_N :
    let g := (varAddWithArrayBound sampleEnv (sampleSpec "X_N".toList false false) none
      Graph.empty).2
    (varAddWithArrayBound sampleEnv (sampleSpec "X_%".toList false false) none g).1 = none ∧
      SameVariables g
        (varAddWithArrayBound sampleEnv (sampleSpec "X_%".toList false false) none g).2 := by
  intro g
  have hrun : GraphRun sampleEnv Graph.empty g :=
    Relation.ReflTransGen.single ⟨.add (sampleSpec "X_N".toList false false) none, rfl⟩
  have hfailed : (varAddWithArrayBound sampleEnv (sampleSpec "X_%".toList false false) none g).1 =
      none := by decide
  refine ⟨hfailed, (failed_definition_same_iff hrun _ _).mpr ?_ hfailed⟩
  rintro ⟨-, computed, hcomputed, hmissing, -⟩
  obtain rfl : "X_N".toList = computed := Option.some.inj hcomputed
  exact absurd hmissing (by decide)

/-- In the empty store, the array `X_%` cannot have the bound `Y_%_N`, which has been removed
when the call returns.  The bound of this bound, `Y_N`, is left behind. -/
theorem failed_definition_leaves_Y_N :
    ¬ ∀ (E : GraphEnv) (g : Graph), GraphRun E Graph.empty g →
      ∀ (spec : VarSpec) (arrayBoundName : Option CString),
        (varAddWithArrayBound E spec arrayBoundName g).1 = none →
          SameVariables g (varAddWithArrayBound E spec arrayBoundName g).2 := by
  intro h
  have hsame := h sampleEnv Graph.empty Relation.ReflTransGen.refl
    (sampleSpec "X_%".toList false false) (some "Y_%_N".toList) (by decide)
  exact absurd hsame.members_eq (by decide)

end Mkfli4l
