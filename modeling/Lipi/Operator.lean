import Lipi.Token

set_option autoImplicit false

/-! # Operators

The unary and binary operators, how they are written, and how tightly they bind. **Operators of a
lower tier bind tighter**; all binary operators associate to the left.
-/

namespace Lipi

/-- The operators with one operand. -/
inductive UnaryOp where
  | negate
  | not
deriving Repr, DecidableEq, Inhabited

/-- How a unary operator is written. -/
def UnaryOp.spelling : UnaryOp → String
  | negate => "-"
  | not => "!"

/-- The unary operator that a token denotes. -/
def UnaryOp.ofToken? : TokenKind → Option UnaryOp
  | .sign .minus => some negate
  | .sign .bang => some not
  | .keyword .nahi => some not
  | _ => none

/-- The operators with two operands. -/
inductive BinaryOp where
  | add
  | sub
  | mul
  | div
  | mod
  | less
  | greater
  | lessEqual
  | greaterEqual
  | equal
  | notEqual
  | and
  | or
deriving Repr, DecidableEq, Inhabited

namespace BinaryOp

/-- All binary operators. -/
def all : List BinaryOp :=
  [add, sub, mul, div, mod, less, greater, lessEqual, greaterEqual, equal, notEqual, and, or]

theorem mem_all (op : BinaryOp) : op ∈ all := by
  cases op <;> decide

/-- How a binary operator is written. -/
def spelling : BinaryOp → String
  | add => "+"
  | sub => "-"
  | mul => "*"
  | div => "/"
  | mod => "%"
  | less => "<"
  | greater => ">"
  | lessEqual => "<="
  | greaterEqual => ">="
  | equal => "=="
  | notEqual => "!="
  | and => "aur"
  | or => "ya"

/-- The binary operator that a token denotes. -/
def ofToken? : TokenKind → Option BinaryOp
  | .sign .plus => some add
  | .sign .minus => some sub
  | .sign .star => some mul
  | .sign .slash => some div
  | .sign .percent => some mod
  | .sign .less => some less
  | .sign .greater => some greater
  | .sign .lessEqual => some lessEqual
  | .sign .greaterEqual => some greaterEqual
  | .sign .equalEqual => some equal
  | .sign .bangEqual => some notEqual
  | .keyword .aur => some and
  | .keyword .ya => some or
  | _ => none

/-- The tier of a binary operator, from products up to disjunctions. -/
def tier : BinaryOp → Nat
  | mul | div | mod => 1
  | add | sub => 2
  | less | greater | lessEqual | greaterEqual => 3
  | equal | notEqual => 4
  | and => 5
  | or => 6

end BinaryOp

end Lipi
