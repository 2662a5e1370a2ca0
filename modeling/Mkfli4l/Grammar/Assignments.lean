import Mkfli4l.Grammar.VarNames
import Mkfli4l.Var.LateArrays

/-!
# Processing the assignments of configuration files

The reader of configuration files first parses all files into trees of nested
assignments and then processes the trees (`config_process_assignments` in
`libmkfli4l/var.c`).  A block hands its name and its indices down to the assignments
inside; an index `[]` is resolved by the first assignment that needs it and copied back
to the block, so that the assignments behind it see the same index.

Looking up a name may instantiate a template, so the state consists of the definitions
and of the slots.  It also records the values that the reader has set.  Conditions and
default values are those that the variable subsystem has at hand when a value is set;
they may depend on everything that has been set before, since they are cached.
-/

namespace Mkfli4l

open Lib

/-- `struct varass_t` without comment and location. -/
inductive Varass
  | mk (target : VarassTarget) (value : Option CString) (priority : Priority)
      (nestedAssignments : List Varass)

structure VarassParseTree where
  assignments : List Varass
  ok : Bool

/-- A call of `var_instance_set_value` with its outcome. -/
structure ElementWrite where
  inst : VarInstance
  value : CString
  priority : Priority
  result : WriteResult
deriving DecidableEq, Repr

/-- The state of the reader: definitions that have been made by a run, the slots, and the values
that have been set. -/
structure ConfigState (E : GraphEnv) where
  graph : Graph
  reachable : GraphRun E Graph.empty graph
  slots : Slots
  writes : List ElementWrite

/-- The expressions that belong to the definitions. -/
structure Expressions where
  condition : VarId → Expr
  defValue : VarId → Option Expr
  matchArray : Option VarId

/-- What the reader works with. -/
structure ConfigReader where
  env : GraphEnv
  types : TypeSystem
  types_bound : types.arrayBoundType = env.arrayBoundType
  expressions : List ElementWrite → Graph → Expressions
  depth : Nat

/-- Record what the indices have been resolved to. -/
def markResolved (indices : List VarassEvalIndex) (realIndices : List UInt32) :
    List VarassEvalIndex :=
  List.zipWith (fun e i => ⟨e.index, some i⟩) indices realIndices

namespace ConfigReader

/-- Computations of the reader. -/
abbrev ConfigExec (R : ConfigReader) (α : Type) := Exec Fault (ConfigState R.env) α

variable (R : ConfigReader)

/-- The definitions in a state. -/
def defs (st : ConfigState R.env) : Defs where
  types := R.types
  vars := st.graph.vars
  condition := (R.expressions st.writes st.graph).condition
  defValue := (R.expressions st.writes st.graph).defValue
  matchArray := (R.expressions st.writes st.graph).matchArray
  boundGraph := R.types_bound ▸ (st.reachable.valid (Graph.Valid.empty R.env)).boundGraph

/-- `var_try_get`.  The slots of variables that come into being are initialised. -/
def varTryGet (name : CString) : R.ConfigExec (Option VarId) := fun st =>
  let found := Mkfli4l.varTryGet R.env name st.graph
  .ok (found.1,
    { graph := found.2
      reachable := st.reachable.tail ⟨.tryGet name, rfl⟩
      slots :=
        if found.2.nextId = st.graph.nextId then st.slots
        else st.slots.initFrom st.graph.nextId
      writes := st.writes })

def varInstanceCreateFromString (name : CString) : R.ConfigExec (Option VarInstance) := do
  let found ← R.varTryGet name
  match found with
  | some v => pure (some ⟨v, []⟩)
  | none => do
      let found ← R.varTryGet (splitIndices false name).1
      pure (found.map fun v => ⟨v, (splitIndices false name).2⟩)

/-- `config_create_var_instance`; the indices are returned as they are afterwards. -/
def configCreateVarInstance (varName : CString) (indices : List VarassEvalIndex) :
    R.ConfigExec (Option VarInstance × List VarassEvalIndex) := do
  let found ← R.varTryGet varName
  match found with
  | none => do
      let inst ← R.varInstanceCreateFromString varName
      pure (inst, indices)
  | some v => do
      let st ← get
      match st.graph.vars v with
      | none => throw .nullPointer
      | some var =>
          let realIndices := resolveIndices st.slots var v [] indices
          pure (some ⟨v, realIndices⟩, markResolved indices realIndices)

/-- `var_instance_set_value`, as the reader calls it. -/
def varInstanceSetValue (inst : VarInstance) (value : CString) (priority : Priority) :
    R.ConfigExec Bool := fun st =>
  match Mkfli4l.varInstanceSetValue (R.defs st) (calls (R.defs st) R.depth) inst (some value)
      (some ⟨false, false⟩) .strong priority st.slots with
  | .error e => .error e
  | .ok (result, slots) =>
      .ok (decide (result ≠ .failed),
        { st with slots := slots, writes := st.writes ++ [⟨inst, value, priority, result⟩] })

def configProcessSingleAssignment (varName : CString) (indices : List VarassEvalIndex)
    (value : CString) (priority : Priority) : R.ConfigExec (Bool × List VarassEvalIndex) := do
  let (inst, indices) ← R.configCreateVarInstance varName indices
  match inst with
  | none => pure (false, indices)
  | some inst => do
      let ok ← R.varInstanceSetValue inst value priority
      pure (ok, indices)

/-- The value of an assignment is optional. -/
def processOwnValue (varName : CString) (indices : List VarassEvalIndex) (priority : Priority) :
    Option CString → R.ConfigExec (Bool × List VarassEvalIndex)
  | none => pure (true, indices)
  | some value => R.configProcessSingleAssignment varName indices value priority

mutual

/-- `config_process_single_assignment_and_nested_assignments`; the indices of the block are
returned as they are afterwards. -/
def configProcessSingleAssignmentAndNestedAssignments :
    Varass → CString → List VarassEvalIndex → R.ConfigExec (Bool × List VarassEvalIndex)
  | .mk target value priority nested, outerName, outerIndices => do
      let part := configProcessTargetPart target (outerName, outerIndices)
      let own ← R.processOwnValue part.1 part.2 priority value
      let rest ← configProcessNestedAssignments nested part.1 own.2
      -- only the indices of the surrounding block are copied back
      pure (own.1 && rest.1, rest.2.take outerIndices.length)

/-- The loop over the assignments of a block. -/
def configProcessNestedAssignments :
    List Varass → CString → List VarassEvalIndex → R.ConfigExec (Bool × List VarassEvalIndex)
  | [], _, indices => pure (true, indices)
  | ass :: rest, name, indices => do
      let first ← configProcessSingleAssignmentAndNestedAssignments ass name indices
      let others ← configProcessNestedAssignments rest name first.2
      pure (first.1 && others.1, others.2)

end

def configProcessAssignments (tree : VarassParseTree) : R.ConfigExec Bool := do
  let result ← R.configProcessNestedAssignments tree.assignments [] []
  pure (result.1 && tree.ok)

end ConfigReader
end Mkfli4l
