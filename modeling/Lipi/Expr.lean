import Lipi.Operator

set_option autoImplicit false

/-! # Expressions

The tree of an expression. Every node carries the position that errors about it give: the operator
of an operation, the opening parenthesis of a call, the point or bracket of a member access, the
equals sign of an assignment, and the first token of everything else. Positions are not part of
what an expression says: `Expr.agrees` **compares two trees without them**.
-/

namespace Lipi

/-- The constants that can be written down. -/
inductive Literal where
  | number (value : Float)
  | string (value : String)
  | bool (value : Bool)
  | null
deriving Repr, BEq, Inhabited

/-- An expression. -/
inductive Expr where
  | literal (value : Literal) (pos : Position)
  | identifier (name : String) (pos : Position)
  | unary (op : UnaryOp) (operand : Expr) (pos : Position)
  | binary (op : BinaryOp) (left right : Expr) (pos : Position)
  | assign (target value : Expr) (pos : Position)
  | call (callee : Expr) (arguments : List Expr) (pos : Position)
  /-- A member by its name. -/
  | member (object : Expr) (name : String) (pos : Position)
  /-- A member or element by a computed key. -/
  | index (object key : Expr) (pos : Position)
  | array (elements : List Expr) (pos : Position)
  /-- The receiver of the running method. -/
  | receiver (pos : Position)
  /-- The superclass, seen from the running method. -/
  | super (pos : Position)
  | new (className : String) (arguments : List Expr) (pos : Position)
  /-- An expression in parentheses. -/
  | grouping (inner : Expr) (pos : Position)
deriving Repr, Inhabited

namespace Expr

/-- The position that errors about the expression give. -/
def position : Expr → Position
  | literal _ pos => pos
  | identifier _ pos => pos
  | unary _ _ pos => pos
  | binary _ _ _ pos => pos
  | assign _ _ pos => pos
  | call _ _ pos => pos
  | member _ _ pos => pos
  | index _ _ pos => pos
  | array _ pos => pos
  | receiver pos => pos
  | super pos => pos
  | new _ _ pos => pos
  | grouping _ pos => pos

mutual

/-- How deep the tree is; a leaf has depth one. -/
def depth : Expr → Nat
  | literal _ _ => 1
  | identifier _ _ => 1
  | unary _ operand _ => operand.depth + 1
  | binary _ left right _ => max left.depth right.depth + 1
  | assign target value _ => max target.depth value.depth + 1
  | call callee arguments _ => max callee.depth (depthAll arguments) + 1
  | member object _ _ => object.depth + 1
  | index object key _ => max object.depth key.depth + 1
  | array elements _ => depthAll elements + 1
  | receiver _ => 1
  | super _ => 1
  | new _ arguments _ => depthAll arguments + 1
  | grouping inner _ => inner.depth + 1

/-- The depth of the deepest tree of a list. -/
def depthAll : List Expr → Nat
  | [] => 0
  | e :: es => max e.depth (depthAll es)

end

theorem depth_pos (e : Expr) : 0 < e.depth := by
  cases e <;> simp [depth]

theorem depth_le_depthAll {e : Expr} {es : List Expr} (h : e ∈ es) : e.depth ≤ depthAll es := by
  induction es with
  | nil => simp at h
  | cons e' es ih =>
    rw [depthAll]
    rcases List.mem_cons.mp h with rfl | h
    · exact Nat.le_max_left _ _
    · exact Nat.le_trans (ih h) (Nat.le_max_right _ _)

mutual

/-- Whether two expressions are the same apart from positions. -/
def agrees : Expr → Expr → Bool
  | literal v _, literal w _ => v == w
  | identifier x _, identifier y _ => x == y
  | unary op e _, unary op' e' _ => op == op' && agrees e e'
  | binary op l r _, binary op' l' r' _ => op == op' && agrees l l' && agrees r r'
  | assign t v _, assign t' v' _ => agrees t t' && agrees v v'
  | call c as _, call c' as' _ => agrees c c' && agreesAll as as'
  | member o x _, member o' x' _ => agrees o o' && x == x'
  | index o k _, index o' k' _ => agrees o o' && agrees k k'
  | array es _, array es' _ => agreesAll es es'
  | receiver _, receiver _ => true
  | super _, super _ => true
  | new c as _, new c' as' _ => c == c' && agreesAll as as'
  | grouping e _, grouping e' _ => agrees e e'
  | _, _ => false

/-- Whether two lists of expressions are the same apart from positions. -/
def agreesAll : List Expr → List Expr → Bool
  | [], [] => true
  | e :: es, e' :: es' => agrees e e' && agreesAll es es'
  | _, _ => false

end

end Expr

end Lipi
