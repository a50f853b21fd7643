import Lipi.Operator
import Lipi.Statement
import Lipi.Value

set_option autoImplicit false

/-! # Errors of a running program

What can go wrong while a program runs: a cause, and the position of the construct that met it,
where there is one.
-/

namespace Lipi

/-- What was tried with a member. -/
inductive MemberUse where
  | read
  | set
deriving Repr, DecidableEq, Inhabited

/-- Why a run fails. -/
inductive RuntimeError.Cause where
  /-- No scope knows the name. -/
  | undefinedVariable (name : String)
  /-- The target has no such member. -/
  | undefinedProperty (name target : String)
  /-- A constant was assigned to or declared again. -/
  | constantReassignment (name : String)
  | divisionByZero
  | moduloByZero
  /-- A binary operator does not apply to operands of these types. -/
  | invalidOperands (op : BinaryOp) (left right : ValueType)
  /-- A unary operator does not apply to an operand of this type. -/
  | invalidOperand (op : UnaryOp) (operand : ValueType)
  /-- The called value is neither function nor method. -/
  | notCallable (callee : String)
  /-- A class was called like a function. -/
  | classCalledWithoutNew (className : String)
  | notAClass (name : String)
  | invalidAssignmentTarget
  /-- An array was written at something that is no index. -/
  | invalidIndex (index : String)
  /-- A member of `null` or `undefined` was used. -/
  | nullAccess (use : MemberUse) (name : String) (target : ValueType)
  | thisOutsideMethod
  | superOutsideMethod
  /-- The superclass was used other than by a call or a member access. -/
  | invalidSuper
  | noSuperclass (className : String)
  | inaccessibleMethod (method className : String) (access : Access)
  /-- A loop went through all iterations that are allowed. -/
  | loopLimit (iterations : Nat)
  /-- As many calls are active as are allowed. -/
  | recursionLimit (frames : Nat)
  | returnOutsideFunction
  /-- A module could not be found, read or run. -/
  | moduleLoad (path message : String)
  | missingExport (path name : String)
  /-- A module imports itself, perhaps through others. -/
  | circularImport (path : String)
deriving Repr, DecidableEq, Inhabited

/-- A cause and where it was met. -/
structure RuntimeError where
  cause : RuntimeError.Cause
  position : Option Position
deriving Repr, DecidableEq, Inhabited

namespace RuntimeError

/-- The word for what was tried with a member. -/
def useName : MemberUse → String
  | .read => "read"
  | .set => "set"

/-- The word for who may use a method. -/
def accessName : Access → String
  | .sabka => "public"
  | .niji => "private"
  | .surakshit => "protected"

/-- The wording of a cause. -/
def Cause.message : Cause → String
  | .undefinedVariable name => "'" ++ name ++ "' is not defined"
  | .undefinedProperty name target => "Property '" ++ name ++ "' is not defined on " ++ target
  | .constantReassignment name => "Cannot reassign constant '" ++ name ++ "'"
  | .divisionByZero => "division by zero"
  | .moduloByZero => "modulo by zero"
  | .invalidOperands op left right =>
    "Operands of '" ++ op.spelling ++ "' must be numbers, got " ++ left.name ++ " and " ++ right.name
  | .invalidOperand op operand =>
    "Operand of '" ++ op.spelling ++ "' must be a number, got " ++ operand.name
  | .notCallable callee => callee ++ " is not callable"
  | .classCalledWithoutNew className =>
    "Class '" ++ className ++ "' cannot be invoked without 'naya'"
  | .notAClass name => "'" ++ name ++ "' is not a class"
  | .invalidAssignmentTarget => "Invalid assignment target"
  | .invalidIndex index => "Invalid array index " ++ index
  | .nullAccess use name target =>
    "Cannot " ++ useName use ++ " property '" ++ name ++ "' of " ++ target.name
  | .thisOutsideMethod => "'this' can only be used inside a method"
  | .superOutsideMethod => "'super' can only be used inside a method"
  | .invalidSuper => "'super' must be followed by a call or a property access"
  | .noSuperclass className => "Class '" ++ className ++ "' has no superclass"
  | .inaccessibleMethod method className access =>
    "Method '" ++ method ++ "' of class '" ++ className ++ "' is " ++ accessName access
  | .loopLimit iterations =>
    "possible infinite loop: exceeded " ++ toString iterations ++ " iterations"
  | .recursionLimit frames =>
    "maximum recursion depth exceeded (" ++ toString frames ++ " frames)"
  | .returnOutsideFunction => "Cannot return outside of a function"
  | .moduleLoad path message => "Cannot load module \"" ++ path ++ "\": " ++ message
  | .missingExport path name => "Module \"" ++ path ++ "\" does not export '" ++ name ++ "'"
  | .circularImport path => "Circular import of module \"" ++ path ++ "\""

/-- The line that reports an error. -/
def message (e : RuntimeError) : String :=
  "RuntimeError: " ++ e.cause.message
    ++ (match e.position with
        | some p => " at " ++ p.text
        | none => "")

end RuntimeError

end Lipi
