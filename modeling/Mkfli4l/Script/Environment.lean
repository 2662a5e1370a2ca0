import Mkfli4l.Script.ArrayStatements

/-!
# Definitions for every graph

`ScriptEnv` asks for definitions whose conditions are computed from the conditions of the clients.
Along the links from bounds to their clients the level goes up, and a valid graph has finitely many
variables, so that such conditions exist for every valid graph.  `ScriptEnv.of` makes an environment
from a type system and a regular expression library.
-/

namespace Mkfli4l

open Lib

section conditions

variable {E : GraphEnv} {g : Graph} {D D' : Defs} {lookup : CString → Option VarId}

theorem exprResolveVariableExpressions_congr (hvars : D.vars = D'.vars) (htypes : D.types = D'.types)
    (e : Expr) : exprResolveVariableExpressions D lookup e = exprResolveVariableExpressions D' lookup e := by
  induction e with
  | literal value => rfl
  | var type ref =>
      cases ref with
      | resolved inst => rfl
      | unresolved name =>
          simp only [exprResolveVariableExpressions, exprVariableResolve, hvars, htypes]
  | logicalNot arg ih | tobool arg ih => simp only [exprResolveVariableExpressions, ih]
  | logicalAnd left right ihl ihr | logicalOr left right ihl ihr | equal left right ihl ihr
  | unequal left right ihl ihr | regexMatch left right ihl ihr =>
      simp only [exprResolveVariableExpressions, ihl, ihr]

theorem checkCondition_congr (hvars : D.vars = D'.vars) (htypes : D.types = D'.types) (e : Expr) :
    checkCondition D lookup e = checkCondition D' lookup e := by
  unfold checkCondition
  rw [exprResolveVariableExpressions_congr hvars htypes]

/-- The condition of a variable, with the conditions of clients that are at most `k` levels above. -/
def conditionWithin (D : Defs) (lookup : CString → Option VarId) : ℕ → VarId → Expr
  | 0, _ => exprTrue
  | k + 1, v =>
      match D.vars v with
      | none => exprTrue
      | some var =>
          (checkCondition D lookup
            (assembleCondition var.props.condition (var.varNClients.map (conditionWithin D lookup k)))).1

theorem conditionWithin_eq {top : ℕ} (htop : ∀ v var, D.vars v = some var → var.level ≤ top) {k k' : ℕ}
    {v : VarId} {var : Var} (hvar : D.vars v = some var) (hk : top < var.level + k)
    (hk' : top < var.level + k') : conditionWithin D lookup k v = conditionWithin D lookup k' v := by
  induction k generalizing k' v var with
  | zero =>
      have hle := htop v var hvar
      omega
  | succ k ih =>
      cases k' with
      | zero =>
          have hle := htop v var hvar
          omega
      | succ k' =>
          have hclients : var.varNClients.map (conditionWithin D lookup k) =
              var.varNClients.map (conditionWithin D lookup k') := by
            refine List.map_congr_left fun client hmem => ?_
            obtain ⟨clientVar, hclient, hlink⟩ := D.boundGraph.client hvar hmem
            obtain ⟨varN, hvarN, hlevel, -⟩ := D.boundGraph.bound hclient hlink
            obtain rfl : varN = var := Option.some.inj (hvarN.symm.trans hvar)
            exact ih hclient (by omega) (by omega)
          simp only [conditionWithin, hvar, hclients]

theorem Graph.Valid.exists_top (hvalid : g.Valid E) :
    ∃ top, ∀ v var, g.vars v = some var → var.level ≤ top := by
  have hbelow : ∀ n, ∃ top, ∀ v < n, ∀ var, g.vars v = some var → var.level ≤ top := by
    intro n
    induction n with
    | zero => exact ⟨0, fun v hv => absurd hv (Nat.not_lt_zero v)⟩
    | succ n ih =>
        obtain ⟨top, htop⟩ := ih
        refine ⟨max top ((g.vars n).elim 0 Var.level), fun v hv var hvar => ?_⟩
        rcases Nat.lt_succ_iff_lt_or_eq.mp hv with hlt | rfl
        · exact le_max_of_le_left (htop v hlt var hvar)
        · rw [hvar]
          exact le_max_right _ _
  obtain ⟨top, htop⟩ := hbelow g.nextId
  refine ⟨top, fun v var hvar => htop v ?_ var hvar⟩
  by_contra hge
  rw [hvalid.fresh v (Nat.not_lt.mp hge)] at hvar
  contradiction

theorem Graph.Valid.exists_defs (hvalid : g.Valid E) (types : TypeSystem)
    (htypes : types.arrayBoundType = E.arrayBoundType) (lookup : CString → Option VarId) :
    ∃ D : Defs, D.types = types ∧ D.Describes E g ∧ ComputesConditions D lookup ∧
      ∀ v var, g.vars v = some var → D.defValue v = varComputeDefaultValue D lookup var := by
  obtain ⟨top, htop⟩ := hvalid.exists_top
  have hgraph : BoundGraph types.arrayBoundType g.vars := by
    rw [htypes]
    exact hvalid.boundGraph
  let plain : Defs := ⟨types, g.vars, fun _ => exprTrue, fun _ => none, none, hgraph⟩
  let D : Defs := ⟨types, g.vars, conditionWithin plain lookup (top + 1),
    fun v => (g.vars v).bind (varComputeDefaultValue plain lookup), none, hgraph⟩
  have hcheck : ∀ e, checkCondition plain lookup e = checkCondition D lookup e := checkCondition_congr rfl rfl
  have hresolve : ∀ e, exprResolveVariableExpressions plain lookup e =
      exprResolveVariableExpressions D lookup e := exprResolveVariableExpressions_congr rfl rfl
  refine ⟨D, rfl, ⟨rfl, htypes⟩, fun v var hvar => ?_, fun v var hvar => ?_⟩
  · have hnext : conditionWithin plain lookup (top + 1) v = conditionWithin plain lookup (top + 2) v :=
      conditionWithin_eq htop hvar (by omega) (by omega)
    show conditionWithin plain lookup (top + 1) v = _
    rw [hnext, conditionWithin]
    have hvar' : plain.vars v = some var := hvar
    simp only [hvar', varComputeCondition]
    exact congrArg Prod.fst (hcheck _)
  · show (g.vars v).bind (varComputeDefaultValue plain lookup) = _
    rw [hvar, Option.bind_some]
    unfold varComputeDefaultValue
    simp only [hresolve]

end conditions

/-- The definitions of a graph that nothing is known about. -/
def Defs.unknown (types : TypeSystem) : Defs where
  types := types
  vars := fun _ => none
  condition := fun _ => exprTrue
  defValue := fun _ => none
  matchArray := none
  boundGraph := ⟨fun h => (nomatch h), fun h => (nomatch h)⟩

/-- An environment for a type system and a regular expression library. -/
noncomputable def ScriptEnv.of (E : GraphEnv) (types : TypeSystem)
    (htypes : types.arrayBoundType = E.arrayBoundType) (anything : VarTypeId)
    (hanything : ∀ text, types.vartypeMatch anything text = true)
    (regexec : CString → CString → RegexpResult)
    (hposix : ∀ expr value groups, regexec expr value = .matched groups → PosixOffsets value groups) :
    ScriptEnv := by
  classical
  exact
    { graphEnv := E
      types := types
      lookup := fun _ _ => none
      defs := fun g =>
        if hvalid : g.Valid E then (hvalid.exists_defs types htypes fun _ => none).choose
        else Defs.unknown types
      anything := anything
      regexec := regexec
      room := 0
      defs_types := by
        intro g
        by_cases hvalid : g.Valid E
        · rw [dif_pos hvalid]
          exact (hvalid.exists_defs types htypes fun _ => none).choose_spec.1
        · rw [dif_neg hvalid]
          rfl
      describes := by
        intro g hvalid
        rw [dif_pos hvalid]
        exact (hvalid.exists_defs types htypes fun _ => none).choose_spec.2.1
      conditions := by
        intro g hvalid
        rw [dif_pos hvalid]
        exact (hvalid.exists_defs types htypes fun _ => none).choose_spec.2.2.1
      defaults := by
        intro g hvalid
        rw [dif_pos hvalid]
        exact (hvalid.exists_defs types htypes fun _ => none).choose_spec.2.2.2
      anything_matches := hanything
      posix := hposix }

theorem sampleTypes_bound : sampleTypes.arrayBoundType = sampleEnv.arrayBoundType := rfl

theorem sampleTypes_anything (text : CString) : sampleTypes.vartypeMatch 1 text = true := rfl

theorem unused_empty (E : ScriptEnv) (name bound : CString) : Store.empty.Unused E name bound where
  valid := Graph.Valid.empty _
  template := fun _ hmem => absurd hmem List.not_mem_nil
  boundTemplate := fun _ hmem => absurd hmem List.not_mem_nil
  lacks := ⟨rfl, rfl⟩

end Mkfli4l
