import Lipi.Dict
import Lipi.Statement
import Lipi.Value

set_option autoImplicit false

/-! # The heap

Everything that values refer to, and the scopes that hold variables. The objects of each sort are
numbered in the order of their making; **objects are only ever added**, so a reference stays good.
-/

namespace Lipi

/-! ## Objects -/

/-- What a name stands for in a scope. -/
structure Binding where
  value : Value
  constant : Bool
deriving Repr, Inhabited

/-- A scope: its own names, and the scope around it. -/
structure Scope where
  bindings : Dict Binding
  parent : Option ScopeRef
deriving Repr, Inhabited

/-- What can be called: a name, parameters and a body. -/
structure Routine where
  name : String
  parameters : List String
  body : List Statement
deriving Inhabited

/-- A function: a routine and the scope in which it was declared. -/
structure Function where
  routine : Routine
  closure : ScopeRef
deriving Inhabited

/-- A method as an object: a routine, and who may use it. -/
structure MethodObject where
  routine : Routine
  access : Access
  isConstructor : Bool
deriving Inhabited

/-- A class: its name, its superclass, its two tables of methods, and the scope in which it was
declared. -/
structure ClassObject where
  name : String
  superclass : Option ClassRef
  methods : Dict MethodRef
  staticMethods : Dict MethodRef
  closure : ScopeRef
deriving Inhabited

/-- An instance: its class and its fields. -/
structure InstanceObject where
  ofClass : ClassRef
  fields : Dict Value
deriving Inhabited

/-- The objects of a run. -/
structure Heap where
  scopes : Array Scope
  arrays : Array (Array Value)
  functions : Array Function
  methods : Array MethodObject
  classes : Array ClassObject
  instances : Array InstanceObject
deriving Inhabited

namespace Heap

/-- The heap without objects. -/
def empty : Heap := ⟨#[], #[], #[], #[], #[], #[]⟩

/-! ## Making objects -/

/-- Makes a scope. -/
def newScope (h : Heap) (scope : Scope) : ScopeRef × Heap :=
  (⟨h.scopes.size⟩, { h with scopes := h.scopes.push scope })

/-- Makes an array. -/
def newArray (h : Heap) (elements : Array Value) : ArrayRef × Heap :=
  (⟨h.arrays.size⟩, { h with arrays := h.arrays.push elements })

/-- Makes a function. -/
def newFunction (h : Heap) (function : Function) : FunctionRef × Heap :=
  (⟨h.functions.size⟩, { h with functions := h.functions.push function })

/-- Makes a method. -/
def newMethod (h : Heap) (method : MethodObject) : MethodRef × Heap :=
  (⟨h.methods.size⟩, { h with methods := h.methods.push method })

/-- Makes a class. -/
def newClass (h : Heap) (c : ClassObject) : ClassRef × Heap :=
  (⟨h.classes.size⟩, { h with classes := h.classes.push c })

/-- Makes an instance without fields. -/
def newInstance (h : Heap) (ofClass : ClassRef) : InstanceRef × Heap :=
  (⟨h.instances.size⟩, { h with instances := h.instances.push ⟨ofClass, .empty⟩ })

/-! ## Reading objects -/

/-- The scope of a reference. -/
def scope? (h : Heap) (ref : ScopeRef) : Option Scope :=
  h.scopes[ref.index]?

/-- The elements of an array. -/
def elements (h : Heap) (ref : ArrayRef) : Array Value :=
  h.arrays[ref.index]?.getD #[]

/-- The function of a reference. -/
def function (h : Heap) (ref : FunctionRef) : Function :=
  h.functions[ref.index]?.getD default

/-- The method of a reference. -/
def method (h : Heap) (ref : MethodRef) : MethodObject :=
  h.methods[ref.index]?.getD default

/-- The class of a reference. -/
def classObject (h : Heap) (ref : ClassRef) : ClassObject :=
  h.classes[ref.index]?.getD default

/-- The instance of a reference. -/
def instanceObject (h : Heap) (ref : InstanceRef) : InstanceObject :=
  h.instances[ref.index]?.getD default

/-! ## Changing objects -/

/-- Sets the binding of a name in a scope. -/
def setBinding (h : Heap) (ref : ScopeRef) (name : String) (binding : Binding) : Heap :=
  { h with
    scopes := h.scopes.modify ref.index fun s =>
      { s with bindings := s.bindings.insert name binding } }

/-- Sets an element of an array. An array that is too short is first filled up with
`undefined`. -/
def setElement (h : Heap) (ref : ArrayRef) (i : Nat) (value : Value) : Heap :=
  { h with
    arrays := h.arrays.modify ref.index fun elements =>
      if i < elements.size then elements.setIfInBounds i value
      else (elements ++ Array.replicate (i - elements.size) Value.undefined).push value }

/-- Sets a field of an instance. -/
def setField (h : Heap) (ref : InstanceRef) (name : String) (value : Value) : Heap :=
  { h with
    instances := h.instances.modify ref.index fun o =>
      { o with fields := o.fields.insert name value } }

end Heap

end Lipi
