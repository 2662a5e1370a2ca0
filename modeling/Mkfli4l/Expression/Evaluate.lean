import Mkfli4l.Var.SlotWrite

/-!
# Evaluating expressions

`expr_evaluate` and the evaluation functions of the expression kinds
(`expression/*.c`).  The context of an evaluation is the variable instance on
behalf of which a condition or a default value is evaluated.
-/

namespace Mkfli4l

open Lib

/-- The literal that a variable reference of the given type yields for a value. -/
def literalOfValue : ExprType → Option VarValue → SlotExec Literal
  | _, none => pure .error
  | _, some ⟨none, _, _, _⟩ => throw .nullPointer
  | .string, some ⟨some text, _, _, _⟩ => pure (.string text)
  | .integer, some ⟨some text, _, _, _⟩ =>
      pure ((varValueConvertToInteger text).elim .error .integer)
  | .boolean, some ⟨some text, _, _, _⟩ =>
      pure ((varValueConvertToBoolean text).elim .error .boolean)
  -- no result is created, and the caller dereferences NULL
  | .unknown, some ⟨some _, _, _, _⟩ => throw .nullPointer
  | .error, some ⟨some _, _, _, _⟩ => throw .nullPointer

/-- `expr_variable_evaluate`.  A reference with missing indices takes them from the
context or, if the context has too few of them, stands for the condition of the
variable. -/
def exprVariableEvaluate (D : Defs) (c : Callees) (type : ExprType) (ref : VarRef)
    (context : VarInstance) : SlotExec Literal :=
  match ref with
  | .unresolved _ => throw .nullPointer
  | .resolved inst => do
      let var ← D.deref inst.var
      if inst.indices.length < var.level then
        if var.level ≤ context.indices.length then do
          let value ← c.tryGetValue ⟨inst.var, context.indices.take var.level⟩
          literalOfValue type value
        else c.exprEvaluate (D.condition inst.var) context
      else do
        let value ← c.tryGetValue inst
        literalOfValue type value

/-- Cast one of two literals to the type of the other; `none` is a NULL result. -/
def unifyTypes (arg1 arg2 : Literal) : Option (Literal × Literal) :=
  if arg1.type = arg2.type then some (arg1, arg2)
  else if exprIsAssignableTo arg1.type arg2.type then
    (exprCast arg1 arg2.type).map fun arg => (arg, arg2)
  else (exprCast arg2 arg1.type).map fun arg => (arg1, arg)

/-- Compare two literals of one type; `none` is an error. -/
def literalsEqual : Literal → Literal → Option Bool
  | .string val1, .string val2 => some (val1 == val2)
  | .integer val1, .integer val2 => some (val1 == val2)
  | .boolean val1, .boolean val2 => some (val1 == val2)
  | _, _ => none

/-- `expr_equal_evaluate` and `expr_unequal_evaluate` on evaluated arguments. -/
def compareLiterals (negate : Bool) (arg1 arg2 : Literal) : SlotExec Literal :=
  match unifyTypes arg1 arg2 with
  | none => throw .nullPointer
  | some (val1, val2) =>
      pure ((literalsEqual val1 val2).elim .error fun b => .boolean (b != negate))

/-- The loop of `expr_match_evaluate` over the matched groups. -/
def storeMatches (D : Defs) (c : Callees) (m : VarId) : Nat → List CString → SlotExec Unit
  | _, [] => pure ()
  | i, text :: texts => do
      let _ ← varInstanceSetAndCheckValue D c ⟨m, [UInt32.ofNat i]⟩ (some text) none .weak
        .scriptTransient
      storeMatches D c m (i + 1) texts

/-- `expr_match_evaluate` on evaluated arguments. -/
def matchLiterals (D : Defs) (c : Callees) (val regex : CString) : SlotExec Literal :=
  match D.types.regexMatch regex val with
  | .invalid => pure .error
  | .noMatch => pure (.boolean false)
  | .groups texts =>
      match D.matchArray with
      | none => throw .definitionAdded
      | some m => do
          let cleared ← varInstanceClear D c ⟨m, []⟩ .weak .scriptTransient
          if cleared then do
            storeMatches D c m 0 texts
            pure (.boolean true)
          else pure .error

/-- The value of a boolean operator's second argument. -/
def booleanLiteral (lit : Literal) : Literal :=
  (exprGetBooleanValue lit).elim .error .boolean

def exprEvaluate (D : Defs) (c : Callees) : Expr → VarInstance → SlotExec Literal
  | .literal value, _ => pure value
  | .var type ref, context => exprVariableEvaluate D c type ref context
  | .logicalNot arg, context => do
      let result ← exprEvaluate D c arg context
      pure ((exprGetBooleanValue result).elim .error fun b => .boolean !b)
  | .logicalAnd left right, context => do
      let result ← exprEvaluate D c left context
      match exprGetBooleanValue result with
      | none => pure .error
      | some false => pure (.boolean false)
      | some true => do
          let result ← exprEvaluate D c right context
          pure (booleanLiteral result)
  | .logicalOr left right, context => do
      let result ← exprEvaluate D c left context
      match exprGetBooleanValue result with
      | none => pure .error
      | some true => pure (.boolean true)
      | some false => do
          let result ← exprEvaluate D c right context
          pure (booleanLiteral result)
  | .equal left right, context => do
      let arg1 ← exprEvaluate D c left context
      let arg2 ← exprEvaluate D c right context
      compareLiterals false arg1 arg2
  | .unequal left right, context => do
      let arg1 ← exprEvaluate D c left context
      let arg2 ← exprEvaluate D c right context
      compareLiterals true arg1 arg2
  | .regexMatch arg regex, context => do
      let argResult ← exprEvaluate D c arg context
      if argResult.type = .error then pure argResult
      else do
        let regexResult ← exprEvaluate D c regex context
        if regexResult.type = .error then pure regexResult
        else matchLiterals D c argResult.text regexResult.text
  | .tobool arg, context => do
      let result ← exprEvaluate D c arg context
      pure (.boolean ((exprGetBooleanValue result).getD false))

/-! ### Tying the knot -/

/-- The functions with a given depth of the call stack. -/
def calls (D : Defs) : Nat → Callees
  | 0 =>
      { depth := 0
        exprEvaluate := fun _ _ => throw .stackOverflow
        tryGetValue := fun _ => throw .stackOverflow
        doSetValue := fun _ => throw .stackOverflow }
  | depth + 1 =>
      { depth := depth
        exprEvaluate := exprEvaluate D (calls D depth)
        tryGetValue := varInstanceDoGetValue D (calls D depth)
        doSetValue := varInstanceDoSetValue D (calls D depth) }

end Mkfli4l
