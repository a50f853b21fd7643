import Lipi.Heap.Text
import Lipi.RuntimeError

set_option autoImplicit false

/-! # Applying operators to values

Arithmetic is for numbers; `+` also joins texts as soon as one operand is a string. Numbers and
strings are ordered among themselves, strings by their code points; **every ordering comparison with
an undefined number is false**. All values can be tested for equality.
-/

namespace Lipi

/-- Applies a unary operator. -/
def UnaryOp.apply (op : UnaryOp) (v : Value) : Except RuntimeError.Cause Value :=
  match op, v with
  | negate, .number x => .ok (.number (-x))
  | negate, v => .error (.invalidOperand op v.type)
  | not, v => .ok (.bool !v.isTruthy)

namespace BinaryOp

/-- Applies an arithmetic operator to numbers. -/
def arithmetic (op : BinaryOp) (x y : Float) : Except RuntimeError.Cause Value :=
  match op with
  | add => .ok (.number (x + y))
  | sub => .ok (.number (x - y))
  | mul => .ok (.number (x * y))
  | div => if y == 0.0 then .error .divisionByZero else .ok (.number (x / y))
  | mod => if y == 0.0 then .error .moduloByZero else .ok (.number (Number.remainder x y))
  | _ => .error (.invalidOperands op .number .number)

/-- Applies an arithmetic operator to values. -/
def applyArithmetic (h : Heap) (op : BinaryOp) (l r : Value) : Except RuntimeError.Cause Value :=
  match op, l, r with
  | add, .string s, r => .ok (.string (s ++ h.text r))
  | add, l, .string t => .ok (.string (h.text l ++ t))
  | op, .number x, .number y => op.arithmetic x y
  | op, l, r => .error (.invalidOperands op l.type r.type)

/-- How two numbers compare; an undefined number compares with none. -/
def compareNumbers (x y : Float) : Option Ordering :=
  if x < y then some .lt
  else if x == y then some .eq
  else if y < x then some .gt
  else none

/-- Whether an ordering operator holds of how its operands compare. -/
def holds (op : BinaryOp) (o : Ordering) : Bool :=
  match op with
  | less => o == .lt
  | lessEqual => o != .gt
  | greater => o == .gt
  | greaterEqual => o != .lt
  | _ => false

/-- Applies a comparison operator to values. -/
def applyComparison (op : BinaryOp) (l r : Value) : Except RuntimeError.Cause Value :=
  match op, l, r with
  | equal, l, r => .ok (.bool (l.equals r))
  | notEqual, l, r => .ok (.bool !(l.equals r))
  | op, .number x, .number y => .ok (.bool ((compareNumbers x y).any op.holds))
  | op, .string s, .string t => .ok (.bool (op.holds (compare s t)))
  | op, l, r => .error (.invalidOperands op l.type r.type)

/-- Applies a binary operator to values. -/
def apply (h : Heap) (op : BinaryOp) (l r : Value) : Except RuntimeError.Cause Value :=
  match op with
  | add | sub | mul | div | mod => op.applyArithmetic h l r
  | less | lessEqual | greater | greaterEqual | equal | notEqual => op.applyComparison l r
  | and => .ok (.bool (l.isTruthy && r.isTruthy))
  | or => .ok (.bool (l.isTruthy || r.isTruthy))

end BinaryOp

end Lipi
