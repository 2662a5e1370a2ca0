import Mkfli4l.Var.GraphRuns

/-!
# Arrays keep their bounds

Two rules about arrays and their bounds that runs of definitions do not keep by
themselves.

* Every array has a bound variable.  `var_destroy` resets `var_n` of the clients, so
  the rule holds as long as no variable with clients is removed.
* The arrays of an optional bound are optional.  `var_create` checks the bound of the
  new array and `var_set_properties` checks the clients of the variable, but nobody
  checks the bound of a variable whose properties are replaced.
-/

namespace Mkfli4l

open Lib Relation

/-! ### Chains of bounds -/

/-- The variable has the given level, and its bounds lead down to level 0. -/
def HasBoundChain (g : Graph) : Nat → VarId → Prop
  | 0, v => ∃ var, g.vars v = some var ∧ var.level = 0
  | level + 1, v => ∃ var b, g.vars v = some var ∧ var.level = level + 1 ∧ var.varN = some b ∧
      HasBoundChain g level b

/-- Every array has a bound. -/
def ArraysBounded (g : Graph) : Prop :=
  ∀ v var, g.vars v = some var → 0 < var.level → var.varN ≠ none

section chains

variable {E : GraphEnv} {g g' : Graph}

theorem ArraysBounded.chain (hbounded : ArraysBounded g) (hvalid : g.Valid E) {v : VarId}
    {var : Var} (hv : g.vars v = some var) : HasBoundChain g var.level v := by
  generalize hlevel : var.level = level
  induction level generalizing v var with
  | zero => exact ⟨var, hv, hlevel⟩
  | succ level ih =>
      obtain ⟨b, hb⟩ := Option.ne_none_iff_exists'.mp (hbounded v var hv (by omega))
      obtain ⟨varN, hvarN, hlevelN, -⟩ := hvalid.boundGraph.bound hv hb
      exact ⟨var, b, hv, hlevel, hb, ih hvarN (by omega)⟩

theorem ArraysBounded.move {P : Graph → VarId → VarProperties → Prop}
    (h : GraphMove E (fun h u => h.clientsOf u = []) P g g') (hvalid : g.Valid E)
    (hbounded : ArraysBounded g) : ArraysBounded g' := by
  intro u w hw hlevel
  cases h with
  | burn => exact hbounded u w hw hlevel
  | create hnew hclients hlevelNew hbound =>
      rcases allocVar_vars_cases (hbound.ne_nextId hvalid) hw with ⟨-, rfl⟩ | ⟨-, old, hold, rfl⟩
      · intro hnone
        simp only [BoundFits, hnone] at hbound
        omega
      · rw [Var.withClient_varN]
        exact hbounded u old hold (by simpa using hlevel)
  | replaceProps hvar hallowed hcheck =>
      rcases Graph.updateVar_vars_cases hw with ⟨rfl, old, hold, rfl⟩ | ⟨-, hold⟩
      · exact hbounded u old hold hlevel
      · exact hbounded u w hold hlevel
  | @remove v hallowed =>
      cases hv : g.vars v with
      | none =>
          rw [varRemove_of_dead hv] at hw
          exact hbounded u w hw hlevel
      | some var =>
          have hclients : var.varNClients = [] := by simpa [Graph.clientsOf, hv] using hallowed
          rw [hvalid.varRemove_vars hv] at hw
          split at hw
          · contradiction
          · obtain ⟨old, hold, rfl⟩ := Option.map_eq_some_iff.mp hw
            simp only [Var.withoutLinksTo, hclients, List.not_mem_nil, if_false]
            exact hbounded u old hold hlevel
  | addTemplate tmpl hnew => exact hbounded u w hw hlevel

/-- A call that removes no variable with clients. -/
def RemovesNoBound (E : GraphEnv) (g g' : Graph) : Prop :=
  ∃ op : GraphOp, op.exec E g = some g' ∧ ∀ u, op.Removes g u → g.clientsOf u = []

theorem ArraysBounded.moves {P : Graph → VarId → VarProperties → Prop}
    (h : GraphMoves E (fun h u => h.clientsOf u = []) P g g') (hvalid : g.Valid E)
    (hbounded : ArraysBounded g) : ArraysBounded g' := by
  induction h with
  | refl => exact hbounded
  | tail hmoves hmove ih => exact ih.move hmove (GraphMoves.valid hmoves hvalid)

theorem arraysBounded_of_run (hrun : ReflTransGen (RemovesNoBound E) Graph.empty g) :
    g.Valid E ∧ ArraysBounded g := by
  induction hrun with
  | refl => exact ⟨Graph.Valid.empty E, fun _ _ h => nomatch h⟩
  | tail _ hstep ih =>
      obtain ⟨op, hexec, hremoves⟩ := hstep
      have hmoves := GraphOp.exec_moves (R := fun h u => h.clientsOf u = [])
        (P := fun _ _ _ => True) ih.1 hexec (fun _ _ h => h) hremoves
        fun _ _ _ _ _ => trivial
      exact ⟨GraphMoves.valid hmoves ih.1, ih.2.moves hmoves ih.1⟩

end chains

/-- In every run that removes no variable while it has clients, every variable keeps its whole
chain of bounds. -/
theorem boundChain_of_run {E : GraphEnv} {g : Graph}
    (hrun : ReflTransGen (RemovesNoBound E) Graph.empty g) {v : VarId} {var : Var}
    (hv : g.vars v = some var) : HasBoundChain g var.level v := by
  obtain ⟨hvalid, hbounded⟩ := arraysBounded_of_run hrun
  exact hbounded.chain hvalid hv

/-- `X_%` (variable 1) keeps its bound when another variable is removed. -/
theorem boundChain_of_run_remove :
    ∃ g, ReflTransGen (RemovesNoBound sampleEnv) Graph.empty g ∧
      (g.vars 1).map Var.level = some 1 ∧ HasBoundChain g 1 1 := by
  let g₁ := (varAddWithArrayBound sampleEnv (sampleSpec "X_%".toList false false) none
    Graph.empty).2
  let g₂ := (varAddWithArrayBound sampleEnv (sampleSpec "Y".toList false false) none g₁).2
  have hrun : ReflTransGen (RemovesNoBound sampleEnv) Graph.empty (varRemove g₂ 2) :=
    ((ReflTransGen.single ⟨.add (sampleSpec "X_%".toList false false) none, rfl,
        fun _ h => h.elim⟩).tail
      ⟨.add (sampleSpec "Y".toList false false) none, rfl, fun _ h => h.elim⟩).tail
      ⟨.remove 2, rfl, by rintro u rfl; decide⟩
  obtain ⟨var, hvar⟩ := Option.isSome_iff_exists.mp
    (show ((varRemove g₂ 2).vars 1).isSome = true by decide)
  have hlevel : ((varRemove g₂ 2).vars 1).map Var.level = some 1 := by decide
  have hchain := boundChain_of_run hrun hvar
  have hone : var.level = 1 := by
    rw [hvar] at hlevel
    exact Option.some.inj hlevel
  exact ⟨varRemove g₂ 2, hrun, hlevel, hone ▸ hchain⟩

/-- Declaring `x_n` weakly removes `X_N`, and `X_%` (variable 1) is left without a bound although
there is a new `X_N` (variable 2). -/
theorem boundChain_broken_by_declaration :
    ∃ g, GraphRun sampleEnv Graph.empty g ∧ (g.vars 1).map Var.level = some 1 ∧
      (g.vars 1).bind Var.varN = none ∧ (g.vars 2).map Var.name = some "X_N".toList ∧
      ¬ HasBoundChain g 1 1 := by
  let g₁ := (varAddWithArrayBound sampleEnv (sampleSpec "X_%".toList false false) none
    Graph.empty).2
  let g₂ := (varAddWeakDeclaration sampleEnv "x_n".toList 0 g₁).getD Graph.empty
  have hdeclare : (GraphOp.weakDeclaration "x_n".toList 0).exec sampleEnv g₁ = some g₂ := by
    obtain ⟨g, hg⟩ := Option.isSome_iff_exists.mp
      (show (varAddWeakDeclaration sampleEnv "x_n".toList 0 g₁).isSome = true by decide)
    change varAddWeakDeclaration sampleEnv "x_n".toList 0 g₁ = some g₂
    simp only [g₂, hg, Option.getD_some]
  have hfirst : GraphStep sampleEnv Graph.empty g₁ :=
    ⟨.add (sampleSpec "X_%".toList false false) none, rfl⟩
  have hrun : GraphRun sampleEnv Graph.empty g₂ :=
    (ReflTransGen.single hfirst).tail ⟨.weakDeclaration "x_n".toList 0, hdeclare⟩
  have hnone : (g₂.vars 1).bind Var.varN = none := by decide
  refine ⟨g₂, hrun, by decide, hnone, by decide, ?_⟩
  rintro ⟨var, b, hvar, -, hb, -⟩
  rw [hvar, Option.bind_some, hb] at hnone
  contradiction

/-! ### Optional bounds -/

/-- The arrays of an optional bound are optional. -/
def OptionalDiscipline (g : Graph) : Prop :=
  ∀ b varN v var, g.vars b = some varN → v ∈ varN.varNClients → g.vars v = some var →
    varN.props.optional = true → var.props.optional = true

section optional

variable {E : GraphEnv} {g g' : Graph}

theorem Graph.Valid.boundOptional_of_client (hvalid : g.Valid E) {b v : VarId} {varN : Var}
    (hb : g.vars b = some varN) (hv : v ∈ varN.varNClients)
    (hoptional : varN.props.optional = true) : g.boundOptional v = true := by
  obtain ⟨var, hvar, hbound⟩ := hvalid.boundGraph.client hb hv
  simp [Graph.boundOptional, hvar, hbound, hb, hoptional]

theorem Graph.Valid.not_own_client (hvalid : g.Valid E) {v : VarId} {var : Var}
    (hv : g.vars v = some var) : v ∉ var.varNClients := by
  intro hmem
  obtain ⟨var', hvar', hbound⟩ := hvalid.boundGraph.client hv hmem
  obtain rfl : var' = var := Option.some.inj (hvar'.symm.trans hv)
  obtain ⟨varN, hvarN, hlevel, -⟩ := hvalid.boundGraph.bound hv hbound
  obtain rfl : varN = var' := Option.some.inj (hvarN.symm.trans hv)
  omega

/-- A move keeps the discipline if new properties respect the bound of the variable. -/
theorem OptionalDiscipline.move {R : Graph → VarId → Prop}
    (h : GraphMove E R (fun h u props => h.boundOptional u = true → props.optional = true) g g')
    (hvalid : g.Valid E) (hdisc : OptionalDiscipline g) : OptionalDiscipline g' := by
  intro b varN v var hb hv hvar hoptional
  cases h with
  | burn => exact hdisc b varN v var hb hv hvar hoptional
  | @create new hnew hclients hlevel hbound =>
      have hne := hbound.ne_nextId hvalid
      rcases allocVar_vars_cases hne hb with ⟨-, rfl⟩ | ⟨-, oldN, holdN, rfl⟩
      · rw [hclients] at hv
        exact absurd hv List.not_mem_nil
      · rw [Var.withClient_props] at hoptional
        rcases allocVar_vars_cases hne hvar with ⟨rfl, rfl⟩ | ⟨hvne, old, hold, rfl⟩
        · -- the new variable is a client of its own bound only
          have hreg : var.varN = some b := by
            by_contra hnot
            rw [Var.withClient_clients, if_neg hnot] at hv
            exact hvalid.nextId_not_client holdN hv
          simp only [BoundFits, hreg] at hbound
          obtain ⟨varN', hvarN', -, -, -, hopt⟩ := hbound
          obtain rfl : varN' = oldN := Option.some.inj (hvarN'.symm.trans holdN)
          exact hopt hoptional
        · have hold' : v ∈ oldN.varNClients := by
            rw [Var.withClient_clients] at hv
            split at hv
            · rcases List.mem_append.mp hv with hv | hv
              · exact hv
              · exact absurd (List.mem_singleton.mp hv) hvne
            · exact hv
          rw [Var.withClient_props]
          exact hdisc b oldN v old holdN hold' hold hoptional
  | @replaceProps w wvar props hw hallowed hcheck =>
      rcases Graph.updateVar_vars_cases hb with ⟨rfl, oldN, holdN, rfl⟩ | ⟨hbw, holdN⟩
      · -- the clients have been checked
        obtain rfl : wvar = oldN := Option.some.inj (hw.symm.trans holdN)
        rcases Graph.updateVar_vars_cases hvar with ⟨rfl, -⟩ | ⟨-, hold⟩
        · have hself : v ∈ wvar.varNClients := hv
          exact absurd hself (hvalid.not_own_client hw)
        · exact hcheck hoptional v hv var hold
      · rcases Graph.updateVar_vars_cases hvar with ⟨rfl, old, hold, rfl⟩ | ⟨-, hold⟩
        · exact hallowed (hvalid.boundOptional_of_client holdN hv hoptional)
        · exact hdisc b varN v var holdN hv hold hoptional
  | @remove w hallowed =>
      cases hw : g.vars w with
      | none =>
          rw [varRemove_of_dead hw] at hb hvar
          exact hdisc b varN v var hb hv hvar hoptional
      | some wvar =>
          rw [hvalid.varRemove_vars hw] at hb hvar
          split at hb
          · contradiction
          · obtain ⟨oldN, holdN, rfl⟩ := Option.map_eq_some_iff.mp hb
            split at hvar
            · contradiction
            · obtain ⟨old, hold, rfl⟩ := Option.map_eq_some_iff.mp hvar
              have hmem : v ∈ oldN.varNClients := by
                simp only [Var.withoutLinksTo] at hv
                split at hv
                · exact List.mem_of_mem_erase hv
                · exact hv
              exact hdisc b oldN v old holdN hmem hold hoptional
  | addTemplate tmpl hnew => exact hdisc b varN v var hb hv hvar hoptional

theorem OptionalDiscipline.moves {R : Graph → VarId → Prop}
    (h : GraphMoves E R (fun h u props => h.boundOptional u = true → props.optional = true) g g')
    (hvalid : g.Valid E) (hdisc : OptionalDiscipline g) : OptionalDiscipline g' := by
  induction h with
  | refl => exact hdisc
  | tail hmoves hmove ih => exact ih.move hmove (GraphMoves.valid hmoves hvalid)

/-- A call that replaces the properties of a variable with an optional bound by optional ones
only. -/
def RespectsOwnBound (E : GraphEnv) (g g' : Graph) : Prop :=
  ∃ op : GraphOp, op.exec E g = some g' ∧
    ∀ u props, op.Replaces g u props → g.boundOptional u = true → props.optional = true

end optional

/-- In every run in which new properties respect the bound of the variable they are for, the
arrays of every optional bound are optional. -/
theorem optionalDiscipline_of_run {E : GraphEnv} {g : Graph}
    (hrun : ReflTransGen (RespectsOwnBound E) Graph.empty g) : OptionalDiscipline g := by
  -- the discipline is proved together with the validity of the graph
  have hinv : g.Valid E ∧ OptionalDiscipline g := by
    induction hrun with
    | refl => exact ⟨Graph.Valid.empty E, fun _ _ _ _ h => nomatch h⟩
    | tail _ hstep ih =>
        obtain ⟨op, hexec, hrespects⟩ := hstep
        have hmoves := GraphOp.exec_moves (R := fun _ _ => True)
          (P := fun h u props => h.boundOptional u = true → props.optional = true) ih.1 hexec
          (fun _ _ _ => trivial) (fun _ _ => trivial)
          fun h u props hreplaces hsame hopt => hrespects u props hreplaces (hsame ▸ hopt)
        exact ⟨GraphMoves.valid hmoves ih.1, ih.2.moves hmoves ih.1⟩
  exact hinv.2

/-- An optional `X_N` (variable 0), as a definition file declares it. -/
def optionalBoundSpec : VarSpec := { sampleSpec "X_N".toList true true with type := 0 }

/-- The optional `X_%` (variable 1) of the optional `X_N`. -/
def optionalArrayGraph : Graph :=
  (varAddWithArrayBound sampleEnv (sampleSpec "X_%".toList true true) none
    (varAddWithArrayBound sampleEnv optionalBoundSpec none Graph.empty).2).2

/-- Adding an optional array to an optional bound respects the discipline. -/
theorem optionalDiscipline_of_run_add :
    ReflTransGen (RespectsOwnBound sampleEnv) Graph.empty optionalArrayGraph ∧
      optionalArrayGraph.boundOptional 1 = true ∧ OptionalDiscipline optionalArrayGraph := by
  have hfirst : ∀ u var, ¬ Redefines Graph.empty optionalBoundSpec.name 0 .configuration u var :=
    fun u var h => nomatch h.live
  have hsecond : ∀ u var, ¬ Redefines
      (varAddWithArrayBound sampleEnv optionalBoundSpec none Graph.empty).2
      (sampleSpec "X_%".toList true true).name 1 .configuration u var := by
    rintro u var ⟨⟨key, hkey⟩, -⟩
    have hnone : (varAddWithArrayBound sampleEnv optionalBoundSpec none Graph.empty).2.tryGetMember
      (sampleSpec "X_%".toList true true).name = none := by decide
    rw [hnone] at hkey
    contradiction
  have hrun : ReflTransGen (RespectsOwnBound sampleEnv) Graph.empty optionalArrayGraph :=
    (ReflTransGen.single ⟨.add optionalBoundSpec none, rfl,
        fun u props h => absurd h.1.choose_spec (hfirst u _)⟩).tail
      ⟨.add (sampleSpec "X_%".toList true true) none, rfl,
        fun u props h => absurd h.1.choose_spec (hsecond u _)⟩
  exact ⟨hrun, by decide, optionalDiscipline_of_run hrun⟩

/-- `var_set_properties` makes `X_%` mandatory although `X_N` is optional. -/
theorem optionalDiscipline_broken_by_setProperties :
    ∃ g, GraphRun sampleEnv Graph.empty g ∧ ¬ OptionalDiscipline g := by
  have hrun : GraphRun sampleEnv Graph.empty (varSetProperties optionalArrayGraph 1 boundProps).2 :=
    ((ReflTransGen.single ⟨.add optionalBoundSpec none, rfl⟩).tail
      ⟨.add (sampleSpec "X_%".toList true true) none, rfl⟩).tail ⟨.setProperties 1 boundProps, rfl⟩
  refine ⟨_, hrun, ?_⟩
  intro hdisc
  obtain ⟨varN, hvarN⟩ := Option.isSome_iff_exists.mp
    (show ((varSetProperties optionalArrayGraph 1 boundProps).2.vars 0).isSome = true by decide)
  obtain ⟨var, hvar⟩ := Option.isSome_iff_exists.mp
    (show ((varSetProperties optionalArrayGraph 1 boundProps).2.vars 1).isSome = true by decide)
  have hclients : ((varSetProperties optionalArrayGraph 1 boundProps).2.vars 0).map
    (fun w => (w.varNClients, w.props.optional)) = some ([1], true) := by decide
  have hmandatory : ((varSetProperties optionalArrayGraph 1 boundProps).2.vars 1).map
    (fun w => w.props.optional) = some false := by decide
  rw [hvarN] at hclients
  rw [hvar] at hmandatory
  obtain ⟨hmem, hopt⟩ := Prod.mk.inj (Option.some.inj hclients)
  have hnot : var.props.optional = false := Option.some.inj hmandatory
  have hmust := hdisc 0 varN 1 var hvarN (by rw [hmem]; exact List.mem_cons_self) hvar hopt
  rw [hnot] at hmust
  contradiction

end Mkfli4l
