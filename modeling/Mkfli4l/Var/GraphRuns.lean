import Mkfli4l.Var.GraphMoves

/-!
# Runs of definitions

A run is any sequence of calls that add, look up, redefine or remove variables.
This module shows that every call makes moves only, and concludes that the links
between arrays and bounds are consistent in every state that a run reaches.

Adding an array may create bounds first.  These creations are described by `Growth`:
they add variables with a bounded number of placeholders and touch nothing but the
client lists of the variables that exist.
-/

namespace Mkfli4l

open Lib Relation

/-- Sequences of moves. -/
abbrev GraphMoves (E : GraphEnv) (R : Graph → VarId → Prop)
    (P : Graph → VarId → VarProperties → Prop) : Graph → Graph → Prop :=
  ReflTransGen (GraphMove E R P)

/-- A move that creates a variable with at most `n` placeholders, or none at all. -/
inductive Growth (E : GraphEnv) (n : Nat) : Graph → Graph → Prop
  | burn {g : Graph} : Growth E n g { g with nextId := g.nextId + 1 }
  | create {g : Graph} {var : Var} (hnew : g.tryGetMember var.name = none)
      (hclients : var.varNClients = []) (hlevel : var.level = numPlaceholders var.name)
      (hbound : BoundFits E g var) (hle : numPlaceholders var.name ≤ n) :
      Growth E n g { allocVar g var with members := g.members ++ [.var var.name g.nextId] }

abbrev Growths (E : GraphEnv) (n : Nat) : Graph → Graph → Prop :=
  ReflTransGen (Growth E n)

variable {v : VarId} {var : Var}

section growth

variable {E : GraphEnv} {n m : Nat} {g g' : Graph}

theorem Growth.move {R : Graph → VarId → Prop} {P : Graph → VarId → VarProperties → Prop}
    (h : Growth E n g g') : GraphMove E R P g g' := by
  cases h with
  | burn => exact GraphMove.burn
  | create hnew hclients hlevel hbound hle => exact GraphMove.create hnew hclients hlevel hbound

theorem Growths.moves {R : Graph → VarId → Prop} {P : Graph → VarId → VarProperties → Prop}
    (h : Growths E n g g') : GraphMoves E R P g g' :=
  ReflTransGen.mono (fun _ _ hgrowth => Growth.move hgrowth) _ _ h

theorem Growths.mono (h : Growths E n g g') (hnm : n ≤ m) : Growths E m g g' := by
  refine ReflTransGen.mono (fun _ _ hgrowth => ?_) _ _ h
  cases hgrowth with
  | burn => exact Growth.burn
  | create hnew hclients hlevel hbound hle =>
      exact Growth.create hnew hclients hlevel hbound (hle.trans hnm)

theorem GraphMoves.valid {R : Graph → VarId → Prop}
    {P : Graph → VarId → VarProperties → Prop} (h : GraphMoves E R P g g')
    (hvalid : g.Valid E) : g'.Valid E := by
  induction h with
  | refl => exact hvalid
  | tail _ hmove ih => exact hmove.valid ih

theorem Growths.valid (h : Growths E n g g') (hvalid : g.Valid E) : g'.Valid E :=
  GraphMoves.valid (R := fun _ _ => True) (P := fun _ _ _ => True) h.moves hvalid

theorem Growth.vars_eq (h : Growth E n g g') (hvalid : g.Valid E) (hv : g.vars v = some var) :
    ∃ clients, g'.vars v = some { var with varNClients := clients } := by
  cases h with
  | burn => exact ⟨var.varNClients, hv⟩
  | @create new hnew hclients hlevel hbound hle =>
      refine ⟨(var.withClient new.varN v g.nextId).varNClients, ?_⟩
      have hold := allocVar_vars_old hvalid (hbound.ne_nextId hvalid) hv
      refine hold.trans (congrArg some ?_)
      unfold Var.withClient
      split <;> rfl

theorem Growths.vars_eq (h : Growths E n g g') (hvalid : g.Valid E) (hv : g.vars v = some var) :
    ∃ clients, g'.vars v = some { var with varNClients := clients } := by
  induction h with
  | refl => exact ⟨var.varNClients, hv⟩
  | tail hgrowths hgrowth ih =>
      obtain ⟨clients, hmid⟩ := ih
      obtain ⟨clients', hlast⟩ := hgrowth.vars_eq (Growths.valid hgrowths hvalid) hmid
      exact ⟨clients', hlast⟩

theorem Growth.tryGetMember_eq (h : Growth E n g g') {name : CString}
    (hname : n < numPlaceholders name) : g'.tryGetMember name = g.tryGetMember name := by
  cases h with
  | burn => rfl
  | @create var hnew hclients hlevel hbound hle =>
      have hdiffer : sameName var.name name = false := by
        rw [Bool.eq_false_iff]
        intro hsame
        have := numPlaceholders_of_sameName hsame
        omega
      simp [Graph.tryGetMember, List.find?_append, ScopeMember.name, hdiffer]

theorem Growths.tryGetMember_eq (h : Growths E n g g') {name : CString}
    (hname : n < numPlaceholders name) : g'.tryGetMember name = g.tryGetMember name := by
  induction h with
  | refl => rfl
  | tail _ hgrowth ih => exact (hgrowth.tryGetMember_eq hname).trans ih

end growth

/-! ### Enrolling a new variable -/

section enrolling

variable {E : GraphEnv} {g : Graph}

theorem varDestroy_allocVar (hvalid : g.Valid E) (hclients : var.varNClients = [])
    (hb : var.varN ≠ some g.nextId) :
    varDestroy (allocVar g var) g.nextId = { g with nextId := g.nextId + 1 } := by
  have hnew : (allocVar g var).vars g.nextId = some var := by
    rw [allocVar_vars hb, if_pos rfl]
  ext1
  · funext u
    rw [varDestroy_vars hnew]
    by_cases hu : u = g.nextId
    · rw [if_pos hu, hu, hvalid.fresh _ (Nat.le_refl _)]
    · rw [if_neg hu, allocVar_vars hb, if_neg hu]
      cases hold : g.vars u with
      | none => rfl
      | some old =>
          have hnot := hvalid.nextId_not_client hold
          simp only [Option.map_some, Var.withoutLinksTo, Var.withClient, hclients,
            List.not_mem_nil, if_false]
          by_cases hreg : var.varN = some u
          · simp [hreg, List.erase_append_right _ hnot]
          · simp [hreg]
  · rw [varDestroy_members, allocVar_members]
  · rw [varDestroy_nextId, allocVar_nextId]

theorem updateVar_allocVar {old : VarId} (props : VarProperties)
    (hold : old ≠ g.nextId) (hb : var.varN ≠ some g.nextId) :
    (allocVar g var).updateVar old (fun w => { w with props := props }) =
      allocVar (g.updateVar old fun w => { w with props := props }) var := by
  have hb' : var.varN ≠ some (g.updateVar old fun w => { w with props := props }).nextId := hb
  ext1
  · funext u
    rw [allocVar_vars hb']
    change (if u = old then ((allocVar g var).vars u).map _ else (allocVar g var).vars u) =
      if u = g.nextId then some var else
        ((if u = old then (g.vars u).map _ else g.vars u) : Option Var).map _
    rw [allocVar_vars hb]
    by_cases hu : u = old
    · subst hu
      simp only [if_true, if_neg hold, Option.map_map]
      congr 1
      funext w
      simp only [Function.comp_apply, Var.withClient]
      split <;> rfl
    · simp only [if_neg hu]
      rfl
  · rw [allocVar_members]
    exact allocVar_members
  · rw [allocVar_nextId]
    exact allocVar_nextId

theorem varSetProperties_cases (props : VarProperties) (hv : g.vars v = some var) :
    (varSetProperties g v props = (false, g) ∧
        ¬ (props.optional = true → ∀ client ∈ var.varNClients, ∀ clientVar,
          g.vars client = some clientVar → clientVar.props.optional = true)) ∨
      (varSetProperties g v props =
          (true, g.updateVar v fun var => { var with props := props }) ∧
        (props.optional = true → ∀ client ∈ var.varNClients, ∀ clientVar,
          g.vars client = some clientVar → clientVar.props.optional = true)) := by
  simp only [varSetProperties, hv]
  split
  · next hrefused =>
      refine Or.inl ⟨rfl, fun hcheck => ?_⟩
      obtain ⟨hoptional, hany⟩ := Bool.and_eq_true_iff.mp hrefused
      obtain ⟨client, hclient, hnot⟩ := List.any_eq_true.mp hany
      cases hclientVar : g.vars client with
      | none => simp [hclientVar] at hnot
      | some clientVar =>
          simp [hclientVar, hcheck hoptional client hclient clientVar hclientVar] at hnot
  · next hfree =>
      refine Or.inr ⟨rfl, fun hoptional client hclient clientVar hclientVar => ?_⟩
      by_contra hnot
      refine hfree ?_
      rw [hoptional, Bool.true_and, List.any_eq_true]
      exact ⟨client, hclient, by simp [hclientVar, hnot]⟩

/-- The redefinition of a weak variable by `spec` succeeds. -/
structure Redefines (g : Graph) (name : CString) (type : VarTypeId) (priority : Priority)
    (v : VarId) (var : Var) : Prop where
  found : ∃ key, g.tryGetMember name = some (.var key v)
  live : g.vars v = some var
  weak : var.props.weak = true
  type_eq : var.type = type
  priority_eq : var.priority = priority

/-- What enrolling a variable does: it is created, it redefines a weak variable, or nothing but
an identifier is lost. -/
theorem enrollVar_cases (hvalid : g.Valid E) (hclients : var.varNClients = [])
    (hlevel : var.level = numPlaceholders var.name) (hbound : BoundFits E g var) :
    (g.tryGetMember var.name = none ∧
      enrollVar g var = (some g.nextId,
        { allocVar g var with members := g.members ++ [.var var.name g.nextId] })) ∨
    (∃ old oldVar, Redefines g var.name var.type var.priority old oldVar ∧
      (var.props.optional = true → ∀ client ∈ oldVar.varNClients, ∀ clientVar,
        g.vars client = some clientVar → clientVar.props.optional = true) ∧
      enrollVar g var = (some old,
        { g.updateVar old fun w => { w with props := var.props } with
          nextId := g.nextId + 1 })) ∨
    (g.tryGetMember var.name ≠ none ∧
      (∀ old oldVar, Redefines g var.name var.type var.priority old oldVar →
        ¬ (var.props.optional = true → ∀ client ∈ oldVar.varNClients, ∀ clientVar,
          g.vars client = some clientVar → clientVar.props.optional = true)) ∧
      enrollVar g var = (none, { g with nextId := g.nextId + 1 })) := by
  have hb := hbound.ne_nextId hvalid
  have hnew : (allocVar g var).vars g.nextId = some var := by
    rw [allocVar_vars hb, if_pos rfl]
  have hmember : (allocVar g var).tryGetMember var.name = g.tryGetMember var.name := by
    rw [Graph.tryGetMember, allocVar_members, Graph.tryGetMember]
  have hundo := varDestroy_allocVar hvalid hclients hb
  cases hfound : g.tryGetMember var.name with
  | none =>
      left
      refine ⟨rfl, ?_⟩
      simp only [enrollVar, varScopeAddVar, hmember, hfound, allocVar_members]
  | some member =>
      right
      cases member with
      | tmpl template =>
          right
          refine ⟨by simp, fun old oldVar hredef => ?_, ?_⟩
          · obtain ⟨key, hkey⟩ := hredef.found
            exact nomatch hfound.symm.trans hkey
          · simp only [enrollVar, varScopeAddVar, hmember, hfound, hundo]
      | var key old =>
          obtain ⟨hmem, hsame⟩ := Graph.tryGetMember_some hfound
          obtain ⟨oldVar, holdVar, hkey⟩ := hvalid.member_live key old hmem
          have hne : old ≠ g.nextId := by
            rintro rfl
            rw [hvalid.fresh _ (Nat.le_refl _)] at holdVar
            contradiction
          have halloc := allocVar_vars_old hvalid hb holdVar
          -- the bound has a lower level, so the redefined variable is not the bound
          have hnotBound : var.varN ≠ some old := by
            intro hvarN
            simp only [BoundFits, hvarN] at hbound
            obtain ⟨varN, hvarN', hlevelN, -⟩ := hbound
            obtain rfl : varN = oldVar := Option.some.inj (hvarN'.symm.trans holdVar)
            have hcount := numPlaceholders_of_sameName hsame
            have holdLevel := hvalid.level_eq old varN holdVar
            simp only [ScopeMember.name] at hcount
            rw [hkey] at holdLevel
            omega
          have hsameVar : oldVar.withClient var.varN old g.nextId = oldVar := by
            simp [Var.withClient, hnotBound]
          rw [hsameVar] at halloc
          have hunique : ∀ u w, Redefines g var.name var.type var.priority u w →
              u = old ∧ w = oldVar := by
            intro u w hredef
            obtain ⟨key', hkey'⟩ := hredef.found
            obtain ⟨-, rfl⟩ := ScopeMember.var.inj (Option.some.inj (hfound.symm.trans hkey'))
            exact ⟨rfl, Option.some.inj (hredef.live.symm.trans holdVar)⟩
          by_cases hcan : oldVar.props.weak = true ∧ oldVar.type = var.type ∧
              oldVar.priority = var.priority
          · rcases varSetProperties_cases var.props halloc with ⟨hset, hrefused⟩ | ⟨hset, hcheck⟩
            · right
              refine ⟨by simp, fun u w hredef hcheck => ?_, ?_⟩
              · obtain ⟨rfl, rfl⟩ := hunique u w hredef
                refine hrefused fun hoptional client hclient clientVar hclientVar => ?_
                rcases allocVar_vars_cases hb hclientVar with ⟨-, rfl⟩ | ⟨-, before, hbefore, rfl⟩
                · exact hoptional
                · rw [Var.withClient_props]
                  exact hcheck hoptional client hclient before hbefore
              · simp only [enrollVar, varScopeAddVar, hmember, hfound, varRedefine, halloc, hnew,
                  if_pos hcan, hset, hundo]
            · left
              refine ⟨old, oldVar, ⟨⟨key, hfound⟩, holdVar, hcan.1, hcan.2.1, hcan.2.2⟩, ?_, ?_⟩
              · intro hoptional client hclient clientVar hclientVar
                have := hcheck hoptional client hclient _ (allocVar_vars_old hvalid hb hclientVar)
                simpa using this
              · have hundo' := varDestroy_allocVar (hvalid.setProps old var.props) hclients hb
                rw [← updateVar_allocVar var.props hne hb] at hundo'
                simp only [enrollVar, varScopeAddVar, hmember, hfound, varRedefine, halloc, hnew,
                  if_pos hcan, hset]
                exact congrArg (fun h => (some old, h)) hundo'
          · right
            refine ⟨by simp, fun u w hredef => ?_, ?_⟩
            · obtain ⟨rfl, rfl⟩ := hunique u w hredef
              exact absurd ⟨hredef.weak, hredef.type_eq, hredef.priority_eq⟩ hcan
            · simp only [enrollVar, varScopeAddVar, hmember, hfound, varRedefine, halloc, hnew,
                if_neg hcan, hundo]

end enrolling

/-! ### Adding bounds -/

/-- The name does not belong to a variable. -/
def NotVariable (g : Graph) (name : CString) : Prop :=
  ∀ key v, g.tryGetMember name ≠ some (.var key v)

/-- The variable `v` has just been made from `spec`. -/
def FreshlyMade (g : Graph) (spec : VarSpec) (v : VarId) : Prop :=
  ∃ var, g.vars v = some var ∧ var.name = spec.name ∧ var.type = spec.type ∧
    var.priority = spec.priority ∧ var.props = spec.props ∧ var.varNClients = []

/-- Under a name that is not taken, the function makes variables with at most `n` placeholders
and returns the one that has been asked for. -/
def MakesVariables (E : GraphEnv) (n : Nat) (add : VarAdder) : Prop :=
  ∀ (spec : VarSpec) (g : Graph), g.Valid E → numPlaceholders spec.name = n →
    NotVariable g spec.name →
    Growths E n g (add spec g).2 ∧
      (∀ v, (add spec g).1 = some v → FreshlyMade (add spec g).2 spec v) ∧
      ((add spec g).1 = none → NotVariable (add spec g).2 spec.name)

section adding

variable {E : GraphEnv} {n : Nat} {add : VarAdder} {g : Graph} {name : CString}

theorem NotVariable.growths {g' : Graph} (h : NotVariable g name) (hgrowths : Growths E n g g')
    (hname : n < numPlaceholders name) : NotVariable g' name := by
  intro key v
  rw [hgrowths.tryGetMember_eq hname]
  exact h key v

theorem varScopeTryGet_spec (hadd : MakesVariables E n add) (hvalid : g.Valid E)
    (hname : numPlaceholders name = n) :
    Growths E n g (varScopeTryGet E add name g).2 ∧
      (∀ v, (varScopeTryGet E add name g).1 = some v →
        ((∃ key, g.tryGetMember name = some (.var key v)) ∧ (varScopeTryGet E add name g).2 = g) ∨
          (∃ spec, spec.name = name ∧ FreshlyMade (varScopeTryGet E add name g).2 spec v)) ∧
      ((varScopeTryGet E add name g).1 = none →
        NotVariable (varScopeTryGet E add name g).2 name) := by
  unfold varScopeTryGet
  cases hfound : g.tryGetMember name with
  | some member =>
      cases member with
      | var key v =>
          refine ⟨ReflTransGen.refl, ?_, fun h => nomatch h⟩
          intro u hu
          obtain rfl := Option.some.inj hu
          exact Or.inl ⟨⟨key, rfl⟩, rfl⟩
      | tmpl template =>
          refine ⟨ReflTransGen.refl, fun _ h => (nomatch h), fun _ key v => ?_⟩
          rw [hfound]
          exact fun h => nomatch h
  | none =>
      have hfree : NotVariable g name := by
        intro key v
        rw [hfound]
        exact fun h => nomatch h
      simp only [varTemplateInstantiateFromString]
      cases (E.visitOrder g.templates).find? fun tmpl => E.regexec tmpl.name name with
      | none => exact ⟨ReflTransGen.refl, fun _ h => (nomatch h), fun _ => hfree⟩
      | some tmpl =>
          obtain ⟨hgrowths, hmade, hnone⟩ :=
            hadd ⟨name, tmpl.type, tmpl.priority, tmpl.props⟩ g hvalid hname hfree
          exact ⟨hgrowths, fun v hv => Or.inr ⟨_, rfl, hmade v hv⟩, hnone⟩

/-- The bound that `var_create` works with. -/
structure SuitableBound (E : GraphEnv) (g : Graph) (level : Nat) (priority : Priority)
    (props : VarProperties) (created : Bool) (varN : Var) : Prop where
  level_eq : varN.level = level
  type_eq : varN.type = E.arrayBoundType
  priority_eq : varN.priority = priority
  optional : varN.props.optional = true → props.optional = true
  clients_eq : created = true → varN.varNClients = []

/-- What finding or creating a bound does. -/
theorem varGetOrAddArrayBound_spec (hadd : MakesVariables E n add) (hvalid : g.Valid E)
    (hname : numPlaceholders name = n) (props : VarProperties) (priority : Priority) :
    Growths E n g (varGetOrAddArrayBound E add name props priority g).2 ∧
      ∀ b created, (varGetOrAddArrayBound E add name props priority g).1 = some (b, created) →
        ∃ varN, (varGetOrAddArrayBound E add name props priority g).2.vars b = some varN ∧
          SuitableBound E g n priority props created varN := by
  obtain ⟨hgrowths, hfound, hnone⟩ := varScopeTryGet_spec hadd hvalid hname
  unfold varGetOrAddArrayBound
  rcases htry : varScopeTryGet E add name g with ⟨_ | b, g₁⟩
  · rw [htry] at hgrowths hnone
    have hvalid₁ := hgrowths.valid hvalid
    obtain ⟨hgrowths', hmade, -⟩ := hadd ⟨name, E.arrayBoundType, priority, boundProps⟩ g₁
      hvalid₁ hname (hnone rfl)
    simp only
    rcases hadded : add ⟨name, E.arrayBoundType, priority, boundProps⟩ g₁ with ⟨_ | b, g₂⟩
    · rw [hadded] at hgrowths'
      exact ⟨hgrowths.trans hgrowths', fun _ _ h => nomatch h⟩
    · rw [hadded] at hgrowths' hmade
      refine ⟨hgrowths.trans hgrowths', ?_⟩
      intro b' created hb'
      obtain ⟨rfl, rfl⟩ := Prod.mk.inj (Option.some.inj hb')
      obtain ⟨varN, hvarN, hvarName, htype, hprio, hprops, hclients⟩ := hmade b rfl
      have hlevel := (hgrowths'.valid hvalid₁).level_eq b varN hvarN
      refine ⟨varN, hvarN, ⟨?_, htype, hprio, ?_, fun _ => hclients⟩⟩
      · rw [hlevel, hvarName]
        exact hname
      · rw [hprops]
        exact fun h => nomatch h
  · rw [htry] at hgrowths hfound
    have hvalid₁ := hgrowths.valid hvalid
    simp only
    have hlevel : ∀ varN, g₁.vars b = some varN → varN.level = n := by
      intro varN hvarN
      rw [hvalid₁.level_eq b varN hvarN]
      rcases hfound b rfl with ⟨⟨key, hkey⟩, rfl⟩ | ⟨spec, hspec, made, hmade, hmadeName, -⟩
      · obtain ⟨hmem, hsame⟩ := Graph.tryGetMember_some hkey
        obtain ⟨varN', hvarN', hvarName⟩ := hvalid.member_live key b hmem
        obtain rfl : varN' = varN := Option.some.inj (hvarN'.symm.trans hvarN)
        rw [hvarName, ← hname]
        exact numPlaceholders_of_sameName hsame
      · obtain rfl : made = varN := Option.some.inj (hmade.symm.trans hvarN)
        rw [hmadeName, hspec, hname]
    cases hvarN : g₁.vars b with
    | none => exact ⟨hgrowths, fun _ _ h => nomatch h⟩
    | some varN =>
        simp only
        split
        · next hcheck =>
            refine ⟨hgrowths, ?_⟩
            intro b' created hb'
            obtain ⟨rfl, rfl⟩ := Prod.mk.inj (Option.some.inj hb')
            simp only [varCheckArrayBound, Bool.and_eq_true, beq_iff_eq, Bool.not_eq_true',
              Bool.and_eq_false_iff, Bool.not_eq_false'] at hcheck
            refine ⟨varN, hvarN, ⟨hlevel varN hvarN, hcheck.1.1, hcheck.1.2, ?_,
              fun h => nomatch h⟩⟩
            intro hoptional
            rcases hcheck.2 with hnot | hprops
            · rw [hoptional] at hnot
              contradiction
            · exact hprops
        · exact ⟨hgrowths, fun _ _ h => nomatch h⟩

theorem enrollVar_makes (hvalid : g.Valid E) (hclients : var.varNClients = [])
    (hlevel : var.level = numPlaceholders var.name) (hbound : BoundFits E g var)
    (hle : numPlaceholders var.name ≤ n) (hfree : NotVariable g var.name) :
    Growths E n g (enrollVar g var).2 ∧
      (∀ v, (enrollVar g var).1 = some v → (enrollVar g var).2.vars v = some var) ∧
      ((enrollVar g var).1 = none → NotVariable (enrollVar g var).2 var.name) := by
  rcases enrollVar_cases hvalid hclients hlevel hbound with
    ⟨hnew, henroll⟩ | ⟨old, oldVar, hredef, -, -⟩ | ⟨-, -, henroll⟩
  · rw [henroll]
    refine ⟨ReflTransGen.single (Growth.create hnew hclients hlevel hbound hle), ?_,
      fun h => nomatch h⟩
    intro v hv
    obtain rfl := Option.some.inj hv
    change (allocVar g var).vars g.nextId = some var
    rw [allocVar_vars (hbound.ne_nextId hvalid), if_pos rfl]
  · obtain ⟨key, hkey⟩ := hredef.found
    exact absurd hkey (hfree key old)
  · rw [henroll]
    exact ⟨ReflTransGen.single Growth.burn, fun _ h => (nomatch h), fun _ => hfree⟩

theorem varCreate_makes {spec : VarSpec} (hadd : MakesVariables E n add)
    (hvalid : g.Valid E) (hname : numPlaceholders spec.name = n + 1)
    (hfree : NotVariable g spec.name) :
    Growths E (n + 1) g (varCreate E add spec none g).2 ∧
      (∀ v, (varCreate E add spec none g).1 = some v →
        FreshlyMade (varCreate E add spec none g).2 spec v) ∧
      ((varCreate E add spec none g).1 = none →
        NotVariable (varCreate E add spec none g).2 spec.name) := by
  unfold varCreate
  cases hcomputed : computedBoundName spec.name with
  | none =>
      have := computedBoundName_eq_none hcomputed
      omega
  | some computed =>
      have hcount := numPlaceholders_computedBoundName hcomputed
      have hbelow : numPlaceholders computed = n := by omega
      obtain ⟨hgrowths, hbound⟩ :=
        varGetOrAddArrayBound_spec hadd hvalid hbelow spec.props spec.priority
      simp only [Option.getD_none]
      rcases hget : varGetOrAddArrayBound E add computed spec.props spec.priority g with
        ⟨_ | ⟨b, created⟩, g₁⟩
      · rw [hget] at hgrowths
        exact ⟨hgrowths.mono (Nat.le_succ n), fun _ h => (nomatch h),
          fun _ => hfree.growths hgrowths (by omega)⟩
      · rw [hget] at hgrowths hbound
        obtain ⟨varN, hvarN, hsuit⟩ := hbound b created rfl
        have hfits : BoundFits E g₁ ⟨spec.name, spec.type, numPlaceholders spec.name, some b, [],
            spec.priority, spec.props⟩ := by
          refine ⟨varN, hvarN, ?_, hsuit.type_eq, hsuit.priority_eq, hsuit.optional⟩
          rw [hsuit.level_eq]
          exact hname.symm
        obtain ⟨hmake, hmade, hnone⟩ := enrollVar_makes (n := n + 1) (hgrowths.valid hvalid) rfl
          rfl hfits (le_of_eq hname) (hfree.growths hgrowths (by omega))
        simp only [ne_eq, not_true_eq_false, false_and, if_false]
        refine ⟨(hgrowths.mono (Nat.le_succ n)).trans hmake, ?_, hnone⟩
        intro v hv
        exact ⟨_, hmade v hv, rfl, rfl, rfl, rfl, rfl⟩

theorem varAdd_makes (E : GraphEnv) (n : Nat) : MakesVariables E n (varAdd E n) := by
  induction n with
  | zero =>
      intro spec g hvalid hname hfree
      unfold varAdd
      split
      · unfold varCreate
        cases hcomputed : computedBoundName spec.name with
        | some computed =>
            have := numPlaceholders_computedBoundName hcomputed
            omega
        | none =>
            let var : Var := ⟨spec.name, spec.type, 0, none, [], spec.priority, spec.props⟩
            have hlevel : var.level = numPlaceholders var.name := hname.symm
            have hbound : BoundFits E g var := rfl
            obtain ⟨hmake, hmade, hnone⟩ :=
              enrollVar_makes hvalid rfl hlevel hbound (le_of_eq hname) hfree
            refine ⟨hmake, fun v hv => ?_, hnone⟩
            exact ⟨_, hmade v hv, rfl, rfl, rfl, rfl, rfl⟩
      · exact ⟨ReflTransGen.refl, fun _ h => (nomatch h), fun _ => hfree⟩
  | succ n ih =>
      intro spec g hvalid hname hfree
      unfold varAdd
      split
      · exact varCreate_makes ih hvalid hname hfree
      · exact ⟨ReflTransGen.refl, fun _ h => (nomatch h), fun _ => hfree⟩

end adding

/-! ### The calls of a run -/

/-- What adding a variable comes down to. -/
inductive AddOutcome (E : GraphEnv) (g : Graph) (spec : VarSpec) : Graph → Prop
  | growth {n : Nat} {g' : Graph} (hgrowths : Growths E n g g') : AddOutcome E g spec g'
  | undone {n : Nat} {g₁ : Graph} {b : VarId} {varN : Var} (hgrowths : Growths E n g g₁)
      (hb : g₁.vars b = some varN) (hclients : varN.varNClients = []) :
      AddOutcome E g spec (varRemove g₁ b)
  | redefined {n : Nat} {g₁ : Graph} {old : VarId} {oldVar : Var}
      (hgrowths : Growths E n g g₁)
      (hsame : g₁.tryGetMember spec.name = g.tryGetMember spec.name)
      (hredef : Redefines g₁ spec.name spec.type spec.priority old oldVar)
      (hcheck : spec.props.optional = true → ∀ client ∈ oldVar.varNClients, ∀ clientVar,
        g₁.vars client = some clientVar → clientVar.props.optional = true) :
      AddOutcome E g spec
        { g₁.updateVar old fun w => { w with props := spec.props } with nextId := g₁.nextId + 1 }

section outcome

variable {E : GraphEnv} {n : Nat} {g : Graph} {spec : VarSpec}

theorem enrollVar_outcome {g₁ : Graph} {level : Nat} {varN : Option VarId}
    (hgrowths : Growths E n g g₁) (hvalid : g.Valid E)
    (hsame : g₁.tryGetMember spec.name = g.tryGetMember spec.name)
    (hlevel : level = numPlaceholders spec.name)
    (hbound : BoundFits E g₁ ⟨spec.name, spec.type, level, varN, [], spec.priority, spec.props⟩) :
    AddOutcome E g spec (enrollVar g₁
      ⟨spec.name, spec.type, level, varN, [], spec.priority, spec.props⟩).2 := by
  rcases enrollVar_cases (hgrowths.valid hvalid) rfl hlevel hbound with
    ⟨hnew, henroll⟩ | ⟨old, oldVar, hredef, hcheck, henroll⟩ | ⟨-, -, henroll⟩
  · rw [henroll]
    refine AddOutcome.growth ((hgrowths.mono (Nat.le_add_right n level)).tail ?_)
    exact Growth.create hnew rfl hlevel hbound (by simp [hlevel])
  · rw [henroll]
    exact AddOutcome.redefined hgrowths hsame hredef hcheck
  · rw [henroll]
    exact AddOutcome.growth (hgrowths.tail Growth.burn)

theorem varCreate_outcome {add : VarAdder} {arrayBoundName : Option CString}
    (hvalid : g.Valid E)
    (hadd : ∀ computed, computedBoundName spec.name = some computed →
      MakesVariables E (numPlaceholders (arrayBoundName.getD computed)) add) :
    AddOutcome E g spec (varCreate E add spec arrayBoundName g).2 := by
  unfold varCreate
  cases hcomputed : computedBoundName spec.name with
  | none =>
      cases arrayBoundName with
      | some name => exact AddOutcome.growth (n := 0) ReflTransGen.refl
      | none =>
          have hlevel := (computedBoundName_eq_none hcomputed).symm
          exact enrollVar_outcome (n := 0) ReflTransGen.refl hvalid rfl hlevel rfl
  | some computed =>
      have hcount := numPlaceholders_computedBoundName hcomputed
      obtain ⟨hgrowths, hbound⟩ := varGetOrAddArrayBound_spec (hadd computed hcomputed) hvalid rfl
        spec.props spec.priority
      simp only
      rcases hget : varGetOrAddArrayBound E add (arrayBoundName.getD computed) spec.props
        spec.priority g with ⟨_ | ⟨b, created⟩, g₁⟩
      · rw [hget] at hgrowths
        exact AddOutcome.growth hgrowths
      · rw [hget] at hgrowths hbound
        obtain ⟨varN, hvarN, hsuit⟩ := hbound b created rfl
        simp only at hvarN ⊢
        split
        · cases created with
          | false => exact AddOutcome.growth hgrowths
          | true => exact AddOutcome.undone hgrowths hvarN (hsuit.clients_eq rfl)
        · next hmatch =>
            have hlevel : varN.level + 1 = numPlaceholders spec.name := by
              cases arrayBoundName with
              | none =>
                  rw [hsuit.level_eq]
                  exact hcount
              | some name =>
                  by_contra hne
                  exact hmatch ⟨by simp, by simpa [hvarN] using hne⟩
            refine enrollVar_outcome hgrowths hvalid (hgrowths.tryGetMember_eq ?_) rfl
              ⟨varN, hvarN, hlevel, hsuit.type_eq, hsuit.priority_eq, hsuit.optional⟩
            have := hsuit.level_eq
            omega

theorem varAddWithArrayBound_outcome (hvalid : g.Valid E) (arrayBoundName : Option CString) :
    AddOutcome E g spec (varAddWithArrayBound E spec arrayBoundName g).2 := by
  cases arrayBoundName with
  | some name =>
      simp only [varAddWithArrayBound]
      split
      · exact varCreate_outcome hvalid fun _ _ => varAdd_makes E _
      · exact AddOutcome.growth (n := 0) ReflTransGen.refl
  | none =>
      simp only [varAddWithArrayBound]
      cases hname : numPlaceholders spec.name with
      | zero =>
          unfold varAdd
          split
          · refine varCreate_outcome hvalid fun computed hcomputed => ?_
            have := numPlaceholders_computedBoundName hcomputed
            omega
          · exact AddOutcome.growth (n := 0) ReflTransGen.refl
      | succ n =>
          unfold varAdd
          split
          · refine varCreate_outcome hvalid fun computed hcomputed => ?_
            have hcount := numPlaceholders_computedBoundName hcomputed
            obtain rfl : numPlaceholders computed = n := by omega
            exact varAdd_makes E _
          · exact AddOutcome.growth (n := 0) ReflTransGen.refl

end outcome

/-- A call that changes the definitions. -/
inductive GraphOp
  | add (spec : VarSpec) (arrayBoundName : Option CString)
  | tryGet (name : CString)
  | templateAdd (tmpl : VarTemplate)
  | remove (v : VarId)
  | setProperties (v : VarId) (props : VarProperties)
  | weakDeclaration (name : CString) (type : VarTypeId)
deriving DecidableEq, Repr

namespace GraphOp

/-- Execute a call; `none` is a fatal exit. -/
def exec (E : GraphEnv) : GraphOp → Graph → Option Graph
  | add spec arrayBoundName, g => some (varAddWithArrayBound E spec arrayBoundName g).2
  | tryGet name, g => some (varTryGet E name g).2
  | templateAdd tmpl, g => some (varTemplateAdd g tmpl)
  | remove v, g => some (varRemove g v)
  | setProperties v props, g => some (varSetProperties g v props).2
  | weakDeclaration name type, g => varAddWeakDeclaration E name type g

/-- The variables that exist before the call and are removed by it. -/
def Removes : GraphOp → Graph → VarId → Prop
  | remove v, _, u => u = v
  | weakDeclaration name _, g, u =>
      ∃ key, g.tryGetMember (name.map Char.toUpper) = some (.var key u)
  | _, _, _ => False

/-- The variables whose properties are replaced by the call, unless their clients object. -/
def Replaces : GraphOp → Graph → VarId → VarProperties → Prop
  | setProperties v props, _, u, newProps => u = v ∧ newProps = props
  | add spec _, g, u, newProps =>
      (∃ var, Redefines g spec.name spec.type spec.priority u var) ∧ newProps = spec.props
  | _, _, _, _ => False

end GraphOp

/-- The clients of a variable. -/
def Graph.clientsOf (g : Graph) (v : VarId) : List VarId :=
  (g.vars v).elim [] Var.varNClients

/-- Is the bound of a variable optional? -/
def Graph.boundOptional (g : Graph) (v : VarId) : Bool :=
  ((g.vars v).bind Var.varN).any fun b => (g.vars b).any fun varN => varN.props.optional

section ops

variable {E : GraphEnv} {g g' : Graph} {n : Nat}

theorem Growths.boundOptional_eq (h : Growths E n g g') (hvalid : g.Valid E)
    (hv : g.vars v = some var) : g'.boundOptional v = g.boundOptional v := by
  obtain ⟨clients, hv'⟩ := h.vars_eq hvalid hv
  unfold Graph.boundOptional
  rw [hv, hv']
  cases hvarN : var.varN with
  | none => simp [hvarN]
  | some b =>
      obtain ⟨varN, hb, -⟩ := hvalid.boundGraph.bound hv hvarN
      obtain ⟨clients', hb'⟩ := h.vars_eq hvalid hb
      simp [hvarN, hb, hb']

theorem Redefines.of_growths {g₁ : Graph} {name : CString} {type : VarTypeId}
    {priority : Priority} (hgrowths : Growths E n g g₁)
    (hvalid : g.Valid E) (hsame : g₁.tryGetMember name = g.tryGetMember name)
    (h : Redefines g₁ name type priority v var) :
    ∃ old, Redefines g name type priority v old := by
  obtain ⟨key, hkey⟩ := h.found
  rw [hsame] at hkey
  obtain ⟨hmem, -⟩ := Graph.tryGetMember_some hkey
  obtain ⟨old, hold, -⟩ := hvalid.member_live key v hmem
  obtain ⟨clients, hnew⟩ := hgrowths.vars_eq hvalid hold
  obtain rfl : { old with varNClients := clients } = var :=
    Option.some.inj (hnew.symm.trans h.live)
  exact ⟨old, ⟨⟨key, hkey⟩, hold, h.weak, h.type_eq, h.priority_eq⟩⟩

variable {R : Graph → VarId → Prop} {P : Graph → VarId → VarProperties → Prop}

theorem AddOutcome.moves {spec : VarSpec} (h : AddOutcome E g spec g') (hvalid : g.Valid E)
    (hfresh : ∀ h u, h.clientsOf u = [] → R h u)
    (hreplace : ∀ h u, (∃ var, Redefines g spec.name spec.type spec.priority u var) →
      h.boundOptional u = g.boundOptional u → P h u spec.props) :
    GraphMoves E R P g g' := by
  cases h with
  | growth hgrowths => exact hgrowths.moves
  | undone hgrowths hb hclients =>
      refine hgrowths.moves.tail (GraphMove.remove (hfresh _ _ ?_))
      simp [Graph.clientsOf, hb, hclients]
  | redefined hgrowths hsame hredef hcheck =>
      obtain ⟨old, hold⟩ := hredef.of_growths hgrowths hvalid hsame
      have hallowed := hreplace _ _ ⟨old, hold⟩ (hgrowths.boundOptional_eq hvalid hold.live)
      exact (hgrowths.moves.tail (GraphMove.replaceProps hredef.live hallowed hcheck)).tail
        GraphMove.burn

theorem notVariable_varRemove (hvalid : g.Valid E) {name : CString}
    (hv : g.vars v = some var) (hname : sameName var.name name = true) :
    NotVariable (varRemove g v) name := by
  intro key u hfound
  have hvalid' := hvalid.remove v
  obtain ⟨hmem, hsame⟩ := Graph.tryGetMember_some hfound
  obtain ⟨w, hw, hkey⟩ := hvalid'.member_live key u hmem
  rw [hvalid.varRemove_vars hv] at hw
  split at hw
  · contradiction
  · next huv =>
      obtain ⟨old, hold, rfl⟩ := Option.map_eq_some_iff.mp hw
      have hnames : sameName old.name var.name = true := by
        rw [show old.name = key from hkey]
        exact sameName_trans hsame (sameName_symm hname)
      have hunique := hvalid.member_unique (hvalid.live_member u old hold)
        (hvalid.live_member v var hv) hnames
      exact huv (ScopeMember.var.inj hunique).2

theorem varAddWeakDeclaration_moves {name : CString} {type : VarTypeId} (hvalid : g.Valid E)
    (hexec : varAddWeakDeclaration E name type g = some g')
    (hfresh : ∀ h u, h.clientsOf u = [] → R h u)
    (hremove : ∀ u, (∃ key, g.tryGetMember (name.map Char.toUpper) = some (.var key u)) → R g u) :
    GraphMoves E R P g g' := by
  unfold varAddWeakDeclaration at hexec
  simp only at hexec
  generalize name.map Char.toUpper = upper at hexec hremove
  obtain ⟨hgrowths, hfound, hnone⟩ :=
    varScopeTryGet_spec (varAdd_makes E (numPlaceholders upper)) hvalid rfl
  change Growths E _ g (varTryGet E upper g).2 at hgrowths
  change ∀ v, (varTryGet E upper g).1 = some v → _ at hfound
  have hvalid₁ := hgrowths.valid hvalid
  -- the state in which the new variable is added
  obtain ⟨g₂, hg₂, hmoves, hvalid₂, hfree⟩ : ∃ g₂,
      (varTryGet E upper g).1.elim (varTryGet E upper g).2 (fun v => varRemove (varTryGet E upper g).2 v)
        = g₂ ∧ GraphMoves E R P g g₂ ∧ g₂.Valid E ∧ NotVariable g₂ upper := by
    cases hget : (varTryGet E upper g).1 with
    | none => exact ⟨_, rfl, hgrowths.moves, hvalid₁, hnone hget⟩
    | some v =>
        refine ⟨_, rfl, ?_, hvalid₁.remove v, ?_⟩
        · rcases hfound v hget with ⟨⟨key, hkey⟩, hsame⟩ | ⟨spec, -, made, hmade, hrest⟩
          · change (varTryGet E upper g).2 = g at hsame
            rw [Option.elim_some, hsame]
            exact ReflTransGen.single (GraphMove.remove (hremove v ⟨key, hkey⟩))
          · refine hgrowths.moves.tail (GraphMove.remove (hfresh _ _ ?_))
            have hmade' : (varTryGet E upper g).2.vars v = some made := hmade
            simp [Graph.clientsOf, hmade', hrest.2.2.2.2]
        · rcases hfound v hget with ⟨⟨key, hkey⟩, hsame⟩ | ⟨spec, hspec, made, hmade, hmadeName, -⟩
          · obtain ⟨hmem, hsameName⟩ := Graph.tryGetMember_some hkey
            obtain ⟨var, hvar, hvarName⟩ := hvalid.member_live key v hmem
            change (varTryGet E upper g).2 = g at hsame
            rw [Option.elim_some, hsame]
            exact notVariable_varRemove hvalid hvar (hvarName ▸ hsameName)
          · refine notVariable_varRemove hvalid₁ hmade ?_
            rw [hmadeName, hspec]
            exact sameName_refl upper
  rw [hg₂] at hexec
  obtain ⟨hgrowths₂, -, -⟩ := varAdd_makes E (numPlaceholders upper)
    ⟨upper, type, .scriptTransient, ⟨false, false, .literal (.boolean true), none, none⟩⟩ g₂
    hvalid₂ rfl hfree
  simp only [varAddWithArrayBound] at hexec
  split at hexec
  · next v g₃ hadd =>
      obtain rfl := Option.some.inj hexec
      rw [hadd] at hgrowths₂
      exact hmoves.trans hgrowths₂.moves
  · contradiction

/-- Every call makes moves only.  The variables it removes and the properties it replaces are
those that can be told beforehand, apart from the removal of a variable that the call itself has
created. -/
theorem GraphOp.exec_moves {op : GraphOp} (hvalid : g.Valid E) (hexec : op.exec E g = some g')
    (hfresh : ∀ h u, h.clientsOf u = [] → R h u) (hremove : ∀ u, op.Removes g u → R g u)
    (hreplace : ∀ h u props, op.Replaces g u props →
      h.boundOptional u = g.boundOptional u → P h u props) :
    GraphMoves E R P g g' := by
  cases op with
  | add spec arrayBoundName =>
      obtain rfl := Option.some.inj hexec
      refine (varAddWithArrayBound_outcome hvalid arrayBoundName).moves hvalid hfresh ?_
      intro h u hredef hsame
      exact hreplace h u spec.props ⟨hredef, rfl⟩ hsame
  | tryGet name =>
      obtain rfl := Option.some.inj hexec
      exact (varScopeTryGet_spec (varAdd_makes E _) hvalid rfl).1.moves
  | templateAdd tmpl =>
      obtain rfl := Option.some.inj hexec
      unfold varTemplateAdd
      cases hfound : g.tryGetMember tmpl.name with
      | some member => exact ReflTransGen.refl
      | none => exact ReflTransGen.single (GraphMove.addTemplate tmpl hfound)
  | remove v =>
      obtain rfl := Option.some.inj hexec
      exact ReflTransGen.single (GraphMove.remove (hremove v rfl))
  | setProperties v props =>
      obtain rfl := Option.some.inj hexec
      cases hv : g.vars v with
      | none =>
          simp only [varSetProperties, hv]
          exact ReflTransGen.refl
      | some var =>
          rcases varSetProperties_cases props hv with ⟨hset, -⟩ | ⟨hset, hcheck⟩
          · rw [hset]
          · rw [hset]
            exact ReflTransGen.single
              (GraphMove.replaceProps hv (hreplace g v props ⟨rfl, rfl⟩ rfl) hcheck)
  | weakDeclaration name type =>
      exact varAddWeakDeclaration_moves hvalid hexec hfresh hremove

theorem GraphOp.exec_anyMoves {op : GraphOp} (hvalid : g.Valid E) (hexec : op.exec E g = some g') :
    GraphMoves E (fun _ _ => True) (fun _ _ _ => True) g g' :=
  GraphOp.exec_moves hvalid hexec (fun _ _ _ => trivial) (fun _ _ => trivial)
    fun _ _ _ _ _ => trivial

/-- One call of a run. -/
def GraphStep (E : GraphEnv) (g g' : Graph) : Prop := ∃ op : GraphOp, op.exec E g = some g'

/-- A run of definitions. -/
abbrev GraphRun (E : GraphEnv) : Graph → Graph → Prop := ReflTransGen (GraphStep E)

theorem GraphRun.valid (h : GraphRun E g g') (hvalid : g.Valid E) : g'.Valid E := by
  induction h with
  | refl => exact hvalid
  | tail _ hstep ih =>
      obtain ⟨op, hexec⟩ := hstep
      exact (GraphOp.exec_anyMoves ih hexec).valid ih

end ops

/-- In every state that a run reaches from the empty store, successful and failing calls alike,
the links between arrays and their bounds are consistent. -/
theorem boundGraph_of_run {E : GraphEnv} {g : Graph} (hrun : GraphRun E Graph.empty g) :
    BoundGraph E.arrayBoundType g.vars :=
  (hrun.valid (Graph.Valid.empty E)).boundGraph

/-- An environment without templates that match. -/
def sampleEnv : GraphEnv where
  arrayBoundType := 0
  regexec := fun _ _ => false
  visitOrder := id
  visitOrder_perm := fun _ => List.Perm.refl _

/-- A variable of the type `ANYTHING` that is always enabled. -/
def sampleSpec (name : CString) (optional weak : Bool) : VarSpec where
  name := name
  type := 1
  priority := .configuration
  props := ⟨optional, weak, .literal (.boolean true), none, none⟩

/-- Adding `X_%` creates `X_N` (variable 0) and links `X_%` (variable 1) to it. -/
theorem boundGraph_of_run_add :
    ∃ g, GraphRun sampleEnv Graph.empty g ∧ (g.vars 1).bind Var.varN = some 0 ∧
      g.clientsOf 0 = [1] ∧ BoundGraph sampleEnv.arrayBoundType g.vars := by
  have hrun : GraphRun sampleEnv Graph.empty
      (varAddWithArrayBound sampleEnv (sampleSpec "X_%".toList false false) none Graph.empty).2 :=
    ReflTransGen.single
      ⟨.add (sampleSpec "X_%".toList false false) none, rfl⟩
  exact ⟨_, hrun, by decide, by decide, boundGraph_of_run hrun⟩

end Mkfli4l
