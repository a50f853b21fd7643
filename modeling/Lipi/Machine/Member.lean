import Lipi.Machine

set_option autoImplicit false

/-! # Members

Reading and setting fields, methods and elements. An instance is looked up among its fields first
and among the methods of its class then; a class has its static methods; arrays and strings have a
length and elements. **Methods that are not public are for the methods of their class and its
subclasses.**
-/

namespace Lipi

/-- How a member is named: by an identifier, or by a value. -/
inductive Key where
  | name (name : String)
  | computed (value : Value)
deriving Inhabited

/-- The name that a key stands for. -/
def Key.text (h : Heap) : Key → String
  | name n => n
  | computed v => h.text v

/-- No array is written at or beyond this index. -/
def maxArrayLength : Nat := 1 <<< 24

/-- The index that a value stands for. -/
def Value.index? : Value → Option Nat
  | .number x => Number.toIndex? x
  | _ => none

/-- The character of a text at an index. -/
def characterAt? (text : String) (i : Nat) : Option Char :=
  text.chars.atIdxSlow? i

/-- A place at which a value can be set. -/
inductive MemberPlace where
  | field (object : InstanceRef) (name : String)
  | element (array : ArrayRef) (index : Nat)
deriving Repr, DecidableEq, Inhabited

/-- Sets the value at a place. -/
def MemberPlace.write (value : Value) (place : MemberPlace) (h : Heap) : Heap :=
  match place with
  | field o name => h.setField o name value
  | element a i => h.setElement a i value

namespace Machine

/-- The class on whose behalf the innermost call acts: that of the receiver, or without one the
home of the method. -/
def actingClass? (m : Machine) : Option ClassRef :=
  m.frame?.map fun frame =>
    match frame.receiver with
    | some o => m.heap.classOf o
    | none => frame.home

/-- Whether a method may be used here, given the class that declares it. -/
def mayUse (m : Machine) (access : Access) (home : ClassRef) : Bool :=
  match access with
  | .sabka => true
  | _ => m.actingClass?.any fun c => m.heap.isSubclass c home

/-- The error that a value has no such member. -/
def missingMember (h : Heap) (target : Value) (name : String) : RuntimeError.Cause :=
  match target with
  | .object _ | .ofClass _ => .undefinedProperty name (h.text target)
  | v => .undefinedProperty name v.type.name

/-- The method of a name in a table of a class, bound to a receiver, if it may be used here. -/
def methodMember (m : Machine) (target : Value) (receiver : Option InstanceRef) (c : ClassRef)
    (table : MethodTable) (name : String) : Except RuntimeError.Cause Value :=
  match m.heap.findMethod? c table name with
  | none => .error (missingMember m.heap target name)
  | some (home, method) =>
    let access := (m.heap.method method).access
    if m.mayUse access home then .ok (.bound receiver method home)
    else .error (.inaccessibleMethod name (m.heap.classObject home).name access)

/-- Reads a member of a value. An index out of range reads `undefined`. -/
def getMember (m : Machine) (target : Value) (key : Key) : Except RuntimeError.Cause Value :=
  match target, key with
  | .null, key => .error (.nullAccess .read (key.text m.heap) .null)
  | .undefined, key => .error (.nullAccess .read (key.text m.heap) .undefined)
  | .object o, key =>
    let name := key.text m.heap
    match (m.heap.instanceObject o).fields.get? name with
    | some value => .ok value
    | none => m.methodMember target (some o) (m.heap.classOf o) .ofInstances name
  | .ofClass c, key => m.methodMember target none c .ofClass (key.text m.heap)
  | .array a, .name "length" => .ok (.number (Number.ofNat (m.heap.elements a).size))
  | .array a, .computed index =>
    .ok ((index.index?.bind fun i => (m.heap.elements a)[i]?).getD .undefined)
  | .string s, .name "length" => .ok (.number (Number.ofNat s.length))
  | .string s, .computed index =>
    .ok (match index.index?.bind (characterAt? s) with
      | some c => .string c.toString
      | none => .undefined)
  | target, key => .error (missingMember m.heap target (key.text m.heap))

/-- The place at which a member of a value is set, or why it cannot be. -/
def memberPlace (h : Heap) (target : Value) (key : Key) : Except RuntimeError.Cause MemberPlace :=
  match target, key with
  | .null, key => .error (.nullAccess .set (key.text h) .null)
  | .undefined, key => .error (.nullAccess .set (key.text h) .undefined)
  | .object o, key => .ok (.field o (key.text h))
  | .array a, .computed index =>
    match index.index?.filter (· < maxArrayLength) with
    | some i => .ok (.element a i)
    | none => .error (.invalidIndex (h.text index))
  | _, _ => .error .invalidAssignmentTarget

/-- Whether setting the member would read the instance that is being written. -/
def conflicts (h : Heap) (target : Value) (key : Key) : Bool :=
  match target, key with
  | .object o, .computed v => h.mentions o v
  | _, _ => false

end Machine

namespace Eval

/-- Reads a member of a value. -/
def getMember (target : Value) (key : Key) (pos : Position) : Eval Value :=
  fun m =>
    match m.getMember target key with
    | .ok value => .ok value m
    | .error cause => .error (.failed ⟨cause, some pos⟩) m

/-- Sets a member of a value. -/
def setMember (target : Value) (key : Key) (value : Value) (pos : Position) : Eval Unit :=
  fun m =>
    if Machine.conflicts m.heap target key then .error .conflict m
    else update pos (Machine.memberPlace · target key) (MemberPlace.write value) m

end Eval

end Lipi
