import Lipi.Machine

set_option autoImplicit false

/-! # Calls

A call runs the body of a routine in a fresh scope inside the scope where the routine was declared:
**calls are lexically scoped**. Parameters without an argument are `null`, arguments without a
parameter are dropped, and a body that does not return gives `null`.
-/

namespace Lipi.Runner

/-- Calls a routine. -/
def callRoutine (run : Runner) (routine : Routine) (closure : ScopeRef) (arguments : List Value)
    (frame : Option Frame) (pos : Position) : Eval Value := do
  let m ← get
  if m.limits.maxCallDepth ≤ m.callDepth then
    Eval.fail (.recursionLimit m.limits.maxCallDepth) pos
  else
    let bindings := Heap.parameterBindings routine.parameters arguments .empty
    let scope ← Eval.alloc (·.newScope ⟨bindings, some closure⟩)
    match ← Eval.inCall frame (run.executeBlock routine.body scope) with
    | .returned value => return value
    | .normal => return .null

/-- Calls a method of a class, on a receiver or on none. -/
def callMethod (run : Runner) (receiver : Option InstanceRef) (method : MethodRef) (home : ClassRef)
    (arguments : List Value) (pos : Position) : Eval Value := do
  let heap := (← get).heap
  run.callRoutine (heap.method method).routine (heap.classObject home).closure arguments
    (some ⟨receiver, home⟩) pos

/-- The text of a value in the message that it cannot be called. -/
def calleeText (h : Heap) : Value → String
  | .string s => "\"" ++ s ++ "\""
  | v => h.text v

/-- Calls a value. -/
def callValue (run : Runner) (callee : Value) (arguments : List Value) (pos : Position) :
    Eval Value := do
  let heap := (← get).heap
  match callee with
  | .function f =>
    run.callRoutine (heap.function f).routine (heap.function f).closure arguments none pos
  | .bound receiver method home => run.callMethod receiver method home arguments pos
  | .ofClass c => Eval.fail (.classCalledWithoutNew (heap.classObject c).name) pos
  | v => Eval.fail (.notCallable (calleeText heap v)) pos

end Lipi.Runner
