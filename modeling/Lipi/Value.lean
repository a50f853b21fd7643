import Lipi.Expr

set_option autoImplicit false

/-! # Values

What expressions evaluate to. Numbers, strings, booleans, `null` and `undefined` are themselves;
arrays, functions, classes and instances live in the heap, and their values are references to it.
**Two references are equal if they refer to the same object**, whatever it holds.
-/

namespace Lipi

/-! ## References -/

/-- A reference to a scope. -/
structure ScopeRef where
  index : Nat
deriving Repr, DecidableEq, Inhabited

/-- A reference to an array. -/
structure ArrayRef where
  index : Nat
deriving Repr, DecidableEq, Inhabited

/-- A reference to a function. -/
structure FunctionRef where
  index : Nat
deriving Repr, DecidableEq, Inhabited

/-- A reference to a method of a class. -/
structure MethodRef where
  index : Nat
deriving Repr, DecidableEq, Inhabited

/-- A reference to a class. -/
structure ClassRef where
  index : Nat
deriving Repr, DecidableEq, Inhabited

/-- A reference to an instance of a class. -/
structure InstanceRef where
  index : Nat
deriving Repr, DecidableEq, Inhabited

/-! ## Values and their types -/

/-- A value. -/
inductive Value where
  | number (value : Float)
  | string (value : String)
  | bool (value : Bool)
  | null
  | undefined
  | array (ref : ArrayRef)
  | function (ref : FunctionRef)
  /-- A method together with the instance on which it is called, if there is one, and the class
  that declares it. -/
  | bound (receiver : Option InstanceRef) (method : MethodRef) (home : ClassRef)
  | ofClass (ref : ClassRef)
  | object (ref : InstanceRef)
deriving Repr, Inhabited

/-- The types of values. -/
inductive ValueType where
  | number
  | string
  | boolean
  | null
  | undefined
  | array
  | function
  | ofClass
  | object
deriving Repr, DecidableEq, Inhabited

/-- The name of a type, as messages give it. -/
def ValueType.name : ValueType → String
  | number => "number"
  | string => "string"
  | boolean => "boolean"
  | null => "null"
  | undefined => "undefined"
  | array => "array"
  | function => "function"
  | ofClass => "class"
  | object => "instance"

namespace Value

/-- The type of a value. A method bound to its receiver is a function. -/
def type : Value → ValueType
  | number _ => .number
  | string _ => .string
  | bool _ => .boolean
  | null => .null
  | undefined => .undefined
  | array _ => .array
  | function _ => .function
  | bound _ _ _ => .function
  | ofClass _ => .ofClass
  | object _ => .object

/-- The value of a constant. -/
def ofLiteral : Literal → Value
  | .number x => number x
  | .string s => string s
  | .bool b => bool b
  | .null => null

/-- Whether a condition with this value holds. Zero, undefined numbers, the empty string, `false`,
`null` and `undefined` do not. -/
def isTruthy : Value → Bool
  | bool b => b
  | null => false
  | undefined => false
  | number x => x != 0.0 && !x.isNaN
  | string s => !s.isEmpty
  | _ => true

/-- Whether two values are equal. Values of different types never are. Bound methods are equal if
method and receiver are the same. -/
def equals : Value → Value → Bool
  | number x, number y => x == y
  | string s, string t => s == t
  | bool a, bool b => a == b
  | null, null => true
  | undefined, undefined => true
  | array a, array b => a == b
  | function f, function g => f == g
  | bound r m _, bound r' m' _ => m == m' && r == r'
  | ofClass c, ofClass d => c == d
  | object a, object b => a == b
  | _, _ => false

end Value

end Lipi
