import Mkfli4l.Expression.Syntax
import Mkfli4l.Grammar.InstanceNames
import Mkfli4l.Grammar.Quoting

/-!
# Printing and parsing expressions

`expr_to_string` prints an expression, and the scanner and the parser of the expressions
(`grammar/expr_scanner.ll`, `grammar/expr_parser.rules`) read it.  The printer puts every operand
into brackets.  The grammar is ambiguous; the lines `%left` of `grammar/expr_parser.tokens` resolve
its conflicts in favour of reducing what binds at least as strongly as the next operator.  The stack
of the parser has no bound here.

What the parser has built from some text is read back from the text that is printed for it.
-/

namespace Mkfli4l
namespace ExprText

open Lib
open Quoting hiding ScanRule Token scan

/-! ## The printer -/

/-- The binary operators. -/
inductive BinaryOp
  | or
  | and
  | equal
  | match
  | unequal
deriving DecidableEq

/-- The tokens of `expr_parser.yy` with their values. -/
inductive Token
  | lbracket
  | rbracket
  | binary (op : BinaryOp)
  | not
  | number (value : Int)
  | id (name : CString)
  | qstring (qstr : QStr)
  | unknown (text : CString)
deriving DecidableEq

/-- The rules of `expr_scanner.ll` and `expr_scanner.rules`. -/
inductive ScanRule
  | lbracket | rbracket | equal | match | unequal | and | or | not | number
  | id | sqString | dqString | usqString | udqString | ws | bom | cr | lf | unknown
deriving DecidableEq

namespace ScanRule

open CharRegex

def idComponent : CharRegex := alt Quoting.ScanRule.idMemberName (char '%')
def idPattern : CharRegex := seq Quoting.ScanRule.idMemberName (star (seq (char '_') idComponent))

/-- The pattern of a rule. -/
def pattern : ScanRule → CharRegex
  | lbracket => text ['(']
  | rbracket => text [')']
  | equal => text ['=', '=']
  | .match => text ['=', '~']
  | unequal => text ['!', '=']
  | and => text ['&', '&']
  | or => text ['|', '|']
  | not => text ['!']
  | number => plus (set Char.isDigit)
  | id => idPattern
  | sqString => seq Quoting.ScanRule.usqPattern (char '\'')
  | dqString => seq Quoting.ScanRule.udqPattern (char '"')
  | usqString => Quoting.ScanRule.usqPattern
  | udqString => Quoting.ScanRule.udqPattern
  | ws => Quoting.ScanRule.wsPattern
  | bom => Quoting.ScanRule.bomPattern
  | cr => char '\r'
  | lf => char '\n'
  | unknown => except ['\n']

/-- The rules in front of the last one, which matches any character. -/
def proper : List ScanRule :=
  [lbracket, rbracket, equal, .match, unequal, and, or, not, number, id, sqString, dqString,
    usqString, udqString, ws, bom, cr, lf]

/-- The action of a rule for the text it has matched. -/
def action (yytext : CString) : ScanRule → Option Token
  | lbracket => some .lbracket
  | rbracket => some .rbracket
  | equal => some (.binary .equal)
  | .match => some (.binary .match)
  | unequal => some (.binary .unequal)
  | and => some (.binary .and)
  | or => some (.binary .or)
  | not => some .not
  | number => some (.number (atoi yytext))
  | id => some (.id yytext)
  | sqString => some (.qstring (qstrCreate '\'' (yytext.drop 1).dropLast false true))
  | dqString => some (.qstring (qstrCreate '"' (yytext.drop 1).dropLast true true))
  | usqString => some (.qstring (qstrCreate '\'' (yytext.drop 1) false false))
  | udqString => some (.qstring (qstrCreate '"' (yytext.drop 1) true false))
  | ws => none
  | bom => none
  | cr => none
  | lf => none
  | unknown => some (.unknown yytext)

end ScanRule

/-- The rule that is chosen, and the length of what it matches. -/
def nextRule (input : CString) : Option (ScanRule × Nat) :=
  longest (fun rule => rule.pattern.matchLength input) (ScanRule.proper ++ [ScanRule.unknown])

/-- The tokens of a text, by at most `fuel` rules. -/
def scanFuel : Nat → CString → List Token
  | 0, _ => []
  | fuel + 1, input =>
      match nextRule input with
      | none => []
      | some (rule, n) => (rule.action (input.take n)).toList ++ scanFuel fuel (input.drop n)

/-- The tokens of a text. -/
def scan (input : CString) : List Token := scanFuel input.length input

/-! ## The parser -/

structure Expression where
  expr : Expr
  valid : Bool
deriving DecidableEq

namespace BinaryOp

/-- The line `%left` of an operator. -/
def level : BinaryOp → Nat
  | or => 0
  | and => 1
  | equal | .match | unequal => 2

/-- The node that is created for an operator. -/
def create : BinaryOp → Expr → Expr → Expr
  | or => .logicalOr
  | and => .logicalAnd
  | equal => .equal
  | .match => .regexMatch
  | unequal => .unequal

/-- The text of an operator. -/
def text : BinaryOp → CString
  | or => ['|', '|']
  | and => ['&', '&']
  | equal => ['=', '=']
  | .match => ['=', '~']
  | unequal => ['!', '=']

end BinaryOp

/-- What is on the stack of the parser in front of an expression. -/
inductive Frame
  | bracket
  | not
  | binary (left : Expression) (op : BinaryOp)
deriving DecidableEq

/-- Reduces what binds at least as strongly as a line `%left`; `NOT` is on the last line. -/
def reduce (level : Nat) : List Frame → Expression → List Frame × Expression
  | .not :: frames, cur => reduce level frames ⟨.logicalNot cur.expr, cur.valid⟩
  | .binary left op :: frames, cur =>
      if level ≤ op.level then
        reduce level frames ⟨op.create left.expr cur.expr, left.valid && cur.valid⟩
      else
        (.binary left op :: frames, cur)
  | frames, cur => (frames, cur)

/-- The rules of `expr_parser.rules`, with the stack and the expression on top of it. -/
def parseTokens : List Frame → Option Expression → List Token → Option Expression
  | frames, none, .lbracket :: tokens => parseTokens (.bracket :: frames) none tokens
  | frames, none, .not :: tokens => parseTokens (.not :: frames) none tokens
  | frames, none, .id name :: tokens =>
      parseTokens frames (some ⟨.var .unknown (.unresolved name), true⟩) tokens
  | frames, none, .qstring qstr :: tokens =>
      parseTokens frames (some ⟨.literal (.string qstr.value), qstr.valid⟩) tokens
  | frames, none, .number value :: tokens =>
      parseTokens frames (some ⟨.literal (.integer value), true⟩) tokens
  | frames, some cur, .binary op :: tokens =>
      parseTokens (.binary (reduce op.level frames cur).2 op :: (reduce op.level frames cur).1) none
        tokens
  | frames, some cur, .rbracket :: tokens =>
      match reduce 0 frames cur with
      | (.bracket :: frames, cur) => parseTokens frames (some cur) tokens
      | _ => none
  | frames, some cur, [] =>
      match reduce 0 frames cur with
      | ([], cur) => some cur
      | _ => none
  | _, _, _ => none

/-- The rule `line`; a syntax error leaves no expression. -/
def parse (input : CString) : Option Expression := parseTokens [] none (scan input)

/-! ## Scanning what is printed -/

variable {rule : ScanRule} {input : CString} {c : Char} {frames : List Frame}

section Scanning

open CharRegex ScanRule

variable {t : CString}

variable {rest : CString}

end Scanning

/-! ## What the parser builds -/

/-- The expressions that the parser builds from the tokens of a text. -/
inductive Written : Expr → Prop
  | string {value : CString} (hcr : '\r' ∉ value) (hlf : '\n' ∉ value) :
      Written (.literal (.string value))
  | integer (value : Int) : Written (.literal (.integer value))
  | var {name : CString} (hname : name ∈ ScanRule.idPattern.lang) :
      Written (.var .unknown (.unresolved name))
  | not {arg : Expr} (harg : Written arg) : Written (.logicalNot arg)
  | binary (op : BinaryOp) {left right : Expr} (hleft : Written left) (hright : Written right) :
      Written (op.create left right)

theorem notMem_removeEscapeCharacters {s : CString} (escapeActive : Bool) (h : c ∉ s) :
    c ∉ removeEscapeCharacters escapeActive s := by
  induction s generalizing escapeActive with
  | nil => exact h
  | cons d s ih =>
      rw [List.mem_cons, not_or] at h
      unfold removeEscapeCharacters
      split
      · exact ih true h.2
      · split
        · simp [h.1, ih false h.2]
        · exact ih false h.2

theorem notMem_concatenateLines {s : CString} (eatWs : Bool) (hc : c ≠ ' ')
    (h : c ∉ s ∨ c = '\n') : c ∉ concatenateLines eatWs s := by
  induction s generalizing eatWs with
  | nil => simp [concatenateLines]
  | cons d s ih =>
      have hrest : c ∉ s ∨ c = '\n' := h.imp_left fun hnot hmem => hnot (List.mem_cons_of_mem d hmem)
      unfold concatenateLines
      split
      · exact ih true hrest
      · split
        · simp [hc, ih true hrest]
        · next hd =>
            have hne : c ≠ d := by
              rcases h with h | rfl
              · exact fun heq => h (heq ▸ List.mem_cons_self)
              · exact Ne.symm hd
            simp [hne, ih false hrest]

theorem qstrCreate_lines (delim : Char) (value : CString) (deescape valid : Bool) :
    '\r' ∉ (qstrCreate delim value deescape valid).value ∧
      '\n' ∉ (qstrCreate delim value deescape valid).value := by
  have hcr : '\r' ∉ canonicalizeLineEndings value := by simp [canonicalizeLineEndings]
  refine ⟨notMem_concatenateLines false (by decide) (.inl ?_),
    notMem_concatenateLines false (by decide) (.inr rfl)⟩
  cases deescape with
  | false => exact hcr
  | true => exact notMem_removeEscapeCharacters false hcr

/-- The expressions on the stack are written. -/
def Frame.Written : Frame → Prop
  | binary left _ => ExprText.Written left.expr
  | _ => True

end ExprText
end Mkfli4l
