import Lipi.Heap

set_option autoImplicit false

/-! # Classes

How a declaration becomes a class, and how methods are found: **in the nearest class, from a class
upward, whose table has the name**. A class is always made after its superclass, so going upward
ends.
-/

namespace Lipi

/-- The two tables of methods of a class. -/
inductive MethodTable where
  | ofInstances
  | ofClass
deriving Repr, DecidableEq, Inhabited

/-- A table of a class. -/
def ClassObject.table (c : ClassObject) : MethodTable → Dict MethodRef
  | .ofInstances => c.methods
  | .ofClass => c.staticMethods

namespace Heap

/-- Makes the methods of a declaration and enters them into the tables. Of two methods of one name
in one table the later stays. -/
def newMethods : List Method → Dict MethodRef → Dict MethodRef → Heap →
    Dict MethodRef × Dict MethodRef × Heap
  | [], methods, staticMethods, h => (methods, staticMethods, h)
  | m :: ms, methods, staticMethods, h =>
    let (ref, h) := h.newMethod ⟨⟨m.name, m.parameters, m.body⟩, m.access, m.isConstructor⟩
    if m.isStatic then newMethods ms methods (staticMethods.insert m.name ref) h
    else newMethods ms (methods.insert m.name ref) staticMethods h

/-- Makes the class of a declaration. -/
def declareClass (h : Heap) (name : String) (superclass : Option ClassRef) (methods : List Method)
    (closure : ScopeRef) : ClassRef × Heap :=
  let (table, staticTable, h) := newMethods methods .empty .empty h
  h.newClass ⟨name, superclass, table, staticTable, closure⟩

/-- The nearest class, from `c` upward, that has a method of the given name in the given table, and
that method. -/
def findMethod? (h : Heap) (c : ClassRef) (table : MethodTable) (name : String) :
    Option (ClassRef × MethodRef) :=
  match h.classes[c.index]? with
  | none => none
  | some object =>
    match (object.table table).get? name with
    | some method => some (c, method)
    | none =>
      match object.superclass with
      | none => none
      | some parent =>
        if parent.index < c.index then h.findMethod? parent table name else none
termination_by c.index

/-- Whether a class is another one or one of its descendants. -/
def isSubclass (h : Heap) (c ancestor : ClassRef) : Bool :=
  if c = ancestor then true
  else
    match h.classes[c.index]? with
    | none => false
    | some object =>
      match object.superclass with
      | none => false
      | some parent =>
        if parent.index < c.index then h.isSubclass parent ancestor else false
termination_by c.index

/-- The class of an instance. -/
def classOf (h : Heap) (o : InstanceRef) : ClassRef :=
  (h.instanceObject o).ofClass

end Heap

end Lipi
