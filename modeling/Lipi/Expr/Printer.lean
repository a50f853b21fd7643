import Lipi.Expr
import Lipi.Text.Escape

set_option autoImplicit false

/-! # The text of an expression

The canonical text of an expression: one blank around binary operators, one behind commas, string
literals with their escapes, keywords in Hindi. Parentheses are printed where the tree has them and
nowhere else.
-/

namespace Lipi

/-- The text of a constant. -/
def Literal.text : Literal → String
  | number value => Number.text value
  | string value => Text.quote value
  | bool true => "sahi"
  | bool false => "galat"
  | null => "khali"

namespace Expr

mutual

/-- The canonical text of an expression. -/
def text : Expr → String
  | literal value _ => value.text
  | identifier name _ => name
  | unary op operand _ => op.spelling ++ operand.text
  | binary op left right _ => left.text ++ " " ++ op.spelling ++ " " ++ right.text
  | assign target value _ => target.text ++ " = " ++ value.text
  | call callee arguments _ => callee.text ++ "(" ++ textList arguments ++ ")"
  | member object name _ => object.text ++ "." ++ name
  | index object key _ => object.text ++ "[" ++ key.text ++ "]"
  | array elements _ => "[" ++ textList elements ++ "]"
  | receiver _ => "yeh"
  | super _ => "upar"
  | new className arguments _ => "naya " ++ className ++ "(" ++ textList arguments ++ ")"
  | grouping inner _ => "(" ++ inner.text ++ ")"

/-- The texts of expressions, separated by commas. -/
def textList : List Expr → String
  | [] => ""
  | [e] => e.text
  | e :: es => e.text ++ ", " ++ textList es

end

end Expr

end Lipi
