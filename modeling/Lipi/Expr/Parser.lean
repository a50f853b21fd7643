import Lipi.Expr
import Lipi.Parser

set_option autoImplicit false

/-! # Reading expressions

The grammar of expressions, from the loosest construct to the tightest: assignments, which
associate to the right; the binary operators, tier by tier; unary operators; calls and member
accesses; and the primary expressions. **A parenthesis or bracket on a new line does not continue
the expression in front of it.**

Readers that nest take the reader for whole expressions as an argument, and a number that bounds
their repetitions; `expressionWithin` ties the knot. Every nested expression stands behind at least
one token of its own, so the number of tokens that are left is bound enough.
-/

namespace Lipi

namespace Parser

/-! ## Primary expressions -/

/-- The constant that a token denotes. -/
def literal? : TokenKind → Option Literal
  | .number value => some (.number value)
  | .string value => some (.string value)
  | .keyword .sahi => some (.bool true)
  | .keyword .galat => some (.bool false)
  | .keyword .khali => some .null
  | _ => none

/-- The making of an instance; its argument list may be left out. -/
def newInstance (nested : Parser Expr) : Parser Expr := do
  let start ← advance
  let className ← identifier "Expected class name after 'naya'"
  if ← accept (.sign .leftParen) then
    let arguments ← commaSeparated nested .rightParen "arguments"
    return .new className arguments start.position
  else
    return .new className [] start.position

/-- An array literal. -/
def arrayLiteral (nested : Parser Expr) : Parser Expr := do
  let start ← advance
  let elements ← commaSeparated nested .rightBracket "array element"
  return .array elements start.position

/-- An expression in parentheses. -/
def groupedExpr (nested : Parser Expr) : Parser Expr := do
  let start ← advance
  let inner ← nested
  let _ ← consume (.sign .rightParen) "Expected ')' after expression"
  return .grouping inner start.position

/-- A primary expression. -/
def primary (nested : Parser Expr) : Parser Expr := fun s =>
  match literal? s.kind with
  | some value => .ok (.literal value s.position) s.advance
  | none =>
    match s.kind with
    | .identifier name => .ok (.identifier name s.position) s.advance
    | .keyword .yeh => .ok (.receiver s.position) s.advance
    | .keyword .upar => .ok (.super s.position) s.advance
    | .keyword .naya => newInstance nested s
    | .sign .leftBracket => arrayLiteral nested s
    | .sign .leftParen => groupedExpr nested s
    | _ => .error s.unexpected s

/-! ## Calls, members and unary operators -/

/-- The calls and member accesses that continue an expression; `n` of them at most. -/
def continuation (nested : Parser Expr) : Nat → Expr → Parser Expr
  | 0, _ => failExhausted
  | n + 1, e => fun s =>
    match s.kind with
    | .sign .leftParen =>
      if s.atLineBreak then .ok e s
      else
        match commaSeparated nested .rightParen "arguments" s.advance with
        | .ok arguments s' => continuation nested n (.call e arguments s.position) s'
        | .error error s' => .error error s'
    | .sign .dot =>
      match memberName "Expected property name after '.'" s.advance with
      | .ok name s' => continuation nested n (.member e name s.position) s'
      | .error error s' => .error error s'
    | .sign .leftBracket =>
      if s.atLineBreak then .ok e s
      else
        match nested s.advance with
        | .ok key s' =>
          match consume (.sign .rightBracket) "Expected ']' after index" s' with
          | .ok _ s' => continuation nested n (.index e key s.position) s'
          | .error error s' => .error error s'
        | .error error s' => .error error s'
    | _ => .ok e s

/-- A primary expression with the calls and member accesses behind it, or a unary operator with its
operand; `n` operators at most. -/
def unary (nested : Parser Expr) : Nat → Parser Expr
  | 0 => failExhausted
  | n + 1 => fun s =>
    match UnaryOp.ofToken? s.kind with
    | some op =>
      match unary nested n s.advance with
      | .ok operand s' => .ok (.unary op operand s.position) s'
      | .error error s' => .error error s'
    | none =>
      match primary nested s with
      | .ok e s' => bounded (fun n => continuation nested n e) s'
      | .error error s' => .error error s'

/-! ## Binary operators and assignments -/

/-- The operators of one tier that continue an expression, with their right operands; `n` of them
at most. -/
def operations (tier : Nat) (operand : Parser Expr) : Nat → Expr → Parser Expr
  | 0, _ => failExhausted
  | n + 1, left => fun s =>
    match BinaryOp.ofToken? s.kind with
    | some op =>
      if op.tier = tier then
        match operand s.advance with
        | .ok right s' => operations tier operand n (.binary op left right s.position) s'
        | .error error s' => .error error s'
      else .ok left s
    | none => .ok left s

/-- An expression whose binary operators are of the given tier or tighter. -/
def tiered (nested : Parser Expr) : Nat → Parser Expr
  | 0 => bounded (unary nested)
  | tier + 1 => fun s =>
    match tiered nested tier s with
    | .ok left s' =>
      bounded (fun n => operations (tier + 1) (tiered nested tier) n left) s'
    | .error error s' => .error error s'

/-- An assignment, or an expression without one; `n` assignments in a row at most. -/
def assignments (nested : Parser Expr) : Nat → Parser Expr
  | 0 => failExhausted
  | n + 1 => fun s =>
    match tiered nested 6 s with
    | .ok target s' =>
      match s'.kind with
      | .sign .equal =>
        match assignments nested n s'.advance with
        | .ok value s'' => .ok (.assign target value s'.position) s''
        | .error error s'' => .error error s''
      | _ => .ok target s'
    | .error error s' => .error error s'

/-! ## Whole expressions -/

/-- An expression that nests at most `n` deep. -/
def expressionWithin : Nat → Parser Expr
  | 0 => failExhausted
  | n + 1 => bounded (assignments (expressionWithin n))

/-- An expression. -/
def expression : Parser Expr :=
  bounded expressionWithin

/-- An expression whose binary operators outside parentheses are of the given tier or tighter. -/
def expressionOfTier (tier : Nat) : Parser Expr :=
  bounded fun n => tiered (expressionWithin n) tier

/-- A condition: an expression, without the parentheses around it. -/
def condition : Parser Expr := do
  match ← expression with
  | .grouping inner _ => return inner
  | e => return e

end Parser

end Lipi
