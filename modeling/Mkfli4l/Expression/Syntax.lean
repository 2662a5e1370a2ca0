import Mkfli4l.Lib.CNumber

/-!
# Expressions

The syntax of the expressions that enable variables and supply their default
values (`expression/`).  A variable reference is created by name and later
resolved to a variable instance (`expr_variable_resolve`); every node carries the
static type that `expr_get_type` reports, of which only that of a variable
reference is not determined by the node itself.

Error literals carry no text here: every consumer of an error message frees it
unread.
-/

namespace Mkfli4l

open Lib

/-- A variable object (`struct var_t *`). -/
abbrev VarId := Nat

/-- A variable instance: a slot address made of a variable and zero-based indices. -/
structure VarInstance where
  var : VarId
  indices : List UInt32
deriving DecidableEq, Repr

/-- The types of expressions (`EXPR_TYPE_*`). -/
inductive ExprType
  | unknown
  | error
  | string
  | integer
  | boolean
deriving DecidableEq, Repr

/-- Literal expressions, the results of every evaluation. -/
inductive Literal
  | error
  | string (value : CString)
  | integer (value : Int)
  | boolean (value : Bool)
deriving DecidableEq, Repr

namespace Literal

/-- The type of a literal. -/
def type : Literal → ExprType
  | error => .error
  | string _ => .string
  | integer _ => .integer
  | boolean _ => .boolean

/-- `EXPR_LITERAL_STRING_TRUE` and `EXPR_LITERAL_STRING_FALSE`. -/
def boolText (b : Bool) : CString := if b then ['y', 'e', 's'] else ['n', 'o']

end Literal

/-- A variable reference, by name or resolved to an instance. -/
inductive VarRef
  | unresolved (name : CString)
  | resolved (inst : VarInstance)
deriving DecidableEq, Repr

/-- Expressions (`EXPR_KIND_*`). -/
inductive Expr
  | literal (value : Literal)
  | var (type : ExprType) (ref : VarRef)
  | logicalNot (arg : Expr)
  | logicalAnd (left right : Expr)
  | logicalOr (left right : Expr)
  | equal (left right : Expr)
  | unequal (left right : Expr)
  | regexMatch (arg regex : Expr)
  | tobool (arg : Expr)
deriving DecidableEq, Repr

/-- Does the expression contain no regular expression match? -/
def Expr.matchFree : Expr → Bool
  | literal _ => true
  | var _ _ => true
  | logicalNot arg => arg.matchFree
  | logicalAnd left right => left.matchFree && right.matchFree
  | logicalOr left right => left.matchFree && right.matchFree
  | equal left right => left.matchFree && right.matchFree
  | unequal left right => left.matchFree && right.matchFree
  | regexMatch _ _ => false
  | tobool arg => arg.matchFree

def exprIsAssignableTo (sourceType targetType : ExprType) : Bool :=
  sourceType == targetType || sourceType == .error || targetType == .string

/-- `expr_to_string` of an integer or boolean literal, as the cast to a string uses it. -/
def Literal.text : Literal → CString
  | .error => []
  | .string value => value
  | .integer value => formatInt value
  | .boolean value => Literal.boolText value

/-- `expr_cast`; `none` is the NULL of an impossible cast. -/
def exprCast (lit : Literal) (targetType : ExprType) : Option Literal :=
  if exprIsAssignableTo lit.type targetType then
    if lit.type = targetType ∨ lit.type = .error then some lit else some (.string lit.text)
  else
    none

def exprGetStringValue (lit : Literal) : Option CString :=
  match exprCast lit .string with
  | some (.string value) => some value
  | _ => none

def exprGetBooleanValue (lit : Literal) : Option Bool :=
  match exprCast lit .boolean with
  | some (.boolean value) => some value
  | _ => none

end Mkfli4l
