import Lipi.Machine.Call

set_option autoImplicit false

/-! # Classes at work

Declaring a class, making instances, and reaching the superclass from a method. **`upar` starts at
the superclass of the class that declares the running method**, whatever the class of the receiver
is.
-/

namespace Lipi

namespace Eval

/-- The frame of the running method. Outside a method this is an error. -/
def methodFrame (outside : RuntimeError.Cause) (pos : Position) : Eval Frame :=
  fun m =>
    match m.frame? with
    | some frame => .ok frame m
    | none => .error (.failed ⟨outside, some pos⟩) m

/-- The receiver of the running method. -/
def receiver (pos : Position) : Eval Value := do
  match (← methodFrame .thisOutsideMethod pos).receiver with
  | some o => return .object o
  | none => fail .thisOutsideMethod pos

/-- The frame of the running method, and the superclass of the class that declares it. -/
def superTarget (pos : Position) : Eval (Frame × ClassRef) := do
  let frame ← methodFrame .superOutsideMethod pos
  let home := (← get).heap.classObject frame.home
  match home.superclass with
  | some parent => return (frame, parent)
  | none => fail (.noSuperclass home.name) pos

/-- A method of the superclass, bound to the receiver of the running method. Without a receiver it
is a static method. -/
def superMember (name : String) (pos : Position) : Eval Value := do
  let (frame, parent) ← superTarget pos
  let heap := (← get).heap
  let table := if frame.receiver.isSome then MethodTable.ofInstances else .ofClass
  match heap.findMethod? parent table name with
  | some (home, method) => return .bound frame.receiver method home
  | none =>
    fail (.undefinedProperty name ("<class " ++ (heap.classObject parent).name ++ ">")) pos

/-- The class that a name stands for. -/
def classNamed (name : String) (pos : Position) : Eval ClassRef := do
  match ← lookup name pos with
  | .ofClass c => return c
  | _ => fail (.notAClass name) pos

/-- The superclass that a declaration names, if it names one. -/
def superclassNamed (name : Option String) (pos : Position) : Eval (Option ClassRef) :=
  match name with
  | some name => some <$> classNamed name pos
  | none => return none

/-- Declares a class. Its name is a constant. -/
def declareClass (name : String) (superclass : Option String) (methods : List Method)
    (pos : Position) : Eval Unit := do
  let superclass ← superclassNamed superclass pos
  let closure := (← get).environment
  let c ← alloc (·.declareClass name superclass methods closure)
  declare name (.ofClass c) true pos

end Eval

/-- The nearest constructor from a class upward, and the class that declares it. -/
def Heap.findConstructor? (h : Heap) (c : ClassRef) : Option (ClassRef × MethodRef) :=
  (h.findMethod? c .ofInstances Method.constructorName).filter fun (_, method) =>
    (h.method method).isConstructor

namespace Runner

/-- Runs the nearest constructor from a class upward on an instance, if there is one. -/
def construct (run : Runner) (receiver : Option InstanceRef) (c : ClassRef)
    (arguments : List Value) (pos : Position) : Eval Unit := do
  match (← get).heap.findConstructor? c with
  | some (home, constructor) =>
    let _ ← run.callMethod receiver constructor home arguments pos
  | none => return ()

/-- Makes an instance. -/
def newInstance (run : Runner) (className : String) (arguments : List Expr) (pos : Position) :
    Eval Value := do
  let c ← Eval.classNamed className pos
  let arguments ← run.evaluateAll arguments
  let o ← Eval.alloc (·.newInstance c)
  run.construct (some o) c arguments pos
  return .object o

/-- Runs the constructor of the superclass on the receiver of the running method. -/
def callSuper (run : Runner) (arguments : List Value) (pos : Position) : Eval Value := do
  let (frame, parent) ← Eval.superTarget pos
  run.construct frame.receiver parent arguments pos
  return .null

end Runner

end Lipi
