import Lipi.Heap.Scope
import Lipi.Heap.Text
import Lipi.Module

set_option autoImplicit false

/-! # The machine

The state of a running program, and the computations that run on it. A computation gives a result
or halts; **the state at which it halts is kept**, so that what was printed and changed before an
error stays.
-/

namespace Lipi

/-- How far a program may go. -/
structure Limits where
  /-- How many iterations one loop may run. -/
  maxIterations : Nat
  /-- How many calls may be active at once. -/
  maxCallDepth : Nat
deriving Repr, DecidableEq, Inhabited

/-- The limits where nothing else is asked for. -/
def Limits.standard : Limits := ⟨1000, 100⟩

/-- An active call of a method: its receiver, which a static method lacks, and the class that
declares the method. -/
structure Frame where
  receiver : Option InstanceRef
  home : ClassRef
deriving Repr, DecidableEq, Inhabited

/-- The state of a running program. -/
structure Machine where
  heap : Heap
  /-- The outermost scope of the module that runs. -/
  globals : ScopeRef
  /-- The scope in which the current statement runs. -/
  environment : ScopeRef
  /-- The active calls, innermost first; a call of a function has no frame of a method. -/
  frames : List (Option Frame)
  limits : Limits
  /-- The lines printed so far. -/
  output : Array String
  /-- The names to be exported, in the order in which they were named. -/
  exports : Array String
  /-- The identity of the module that runs. -/
  moduleId : Option ModuleId
  modules : Modules

/-- Why a computation does not go on. -/
inductive Halt where
  /-- The program failed. -/
  | failed (error : RuntimeError)
  /-- A field of an instance was about to be set under a key whose text mentions that instance.
  While an instance is being written it cannot be read, and the run is aborted. -/
  | conflict
  /-- The bound on the nesting of the run was too low. -/
  | exhausted
deriving Repr, DecidableEq, Inhabited

/-- A computation on the machine. -/
abbrev Eval (α : Type) := EStateM Halt Machine α

/-- How a statement ends. -/
inductive Completion where
  | normal
  /-- A return with this value is under way. -/
  | returned (value : Value)
deriving Repr, Inhabited

namespace Machine

/-- A machine with an empty outermost scope of its own, on a heap that may hold objects. -/
def start (heap : Heap) (limits : Limits) (modules : Modules) (moduleId : Option ModuleId) :
    Machine :=
  let (globals, heap) := heap.newGlobal
  { heap, globals, environment := globals, frames := [], limits, output := #[], exports := #[],
    moduleId, modules }

/-- How many calls are active. -/
def callDepth (m : Machine) : Nat :=
  m.frames.length

/-- The innermost frame, if the innermost call is a call of a method. -/
def frame? (m : Machine) : Option Frame :=
  match m.frames with
  | f :: _ => f
  | [] => none

/-- The lines printed so far, and the machine without them. -/
def takeOutput (m : Machine) : List String × Machine :=
  (m.output.toList, { m with output := #[] })

/-- The value of a global name. -/
def global? (m : Machine) (name : String) : Option Value :=
  m.heap.lookup? m.globals name

end Machine

namespace Eval

/-- Fails at a position. -/
def fail {α : Type} (cause : RuntimeError.Cause) (pos : Position) : Eval α :=
  throw (.failed ⟨cause, some pos⟩)

/-- Gives the result of a pure computation, or fails at a position. -/
def lift {α : Type} (pos : Position) : Except RuntimeError.Cause α → Eval α
  | .ok a => pure a
  | .error cause => fail cause pos

/-- Makes an object. -/
def alloc {α : Type} (make : Heap → α × Heap) : Eval α :=
  fun m =>
    let (ref, heap) := make m.heap
    .ok ref { m with heap }

/-- Changes the heap at a place that is looked for first, or fails at a position without changing
anything. -/
def update {α : Type} (pos : Position) (find : Heap → Except RuntimeError.Cause α)
    (change : α → Heap → Heap) : Eval Unit :=
  fun m =>
    match find m.heap with
    | .ok place => .ok () { m with heap := change place m.heap }
    | .error cause => .error (.failed ⟨cause, some pos⟩) m

/-- The value of a name in the current scope. -/
def lookup (name : String) (pos : Position) : Eval Value :=
  fun m =>
    match m.heap.lookup? m.environment name with
    | some value => .ok value m
    | none => .error (.failed ⟨.undefinedVariable name, some pos⟩) m

/-- Declares a name in the current scope. -/
def declare (name : String) (value : Value) (constant : Bool) (pos : Position) : Eval Unit := do
  let scope := (← get).environment
  update pos (·.defineTarget scope name) fun d h => h.setBinding d name ⟨value, constant⟩

/-- Assigns to a name as seen from the current scope. -/
def assign (name : String) (value : Value) (pos : Position) : Eval Unit := do
  let scope := (← get).environment
  update pos (·.assignTarget scope name) fun d h => h.setBinding d name ⟨value, false⟩

/-- Runs a computation in another scope, and comes back to the current one whether it succeeds or
not. -/
def inScope {α : Type} (scope : ScopeRef) (action : Eval α) : Eval α :=
  fun m =>
    let previous := m.environment
    match action { m with environment := scope } with
    | .ok a m => .ok a { m with environment := previous }
    | .error halt m => .error halt { m with environment := previous }

/-- Runs a computation in an active call, and leaves the call whether it succeeds or not. -/
def inCall {α : Type} (frame : Option Frame) (action : Eval α) : Eval α :=
  fun m =>
    match action { m with frames := frame :: m.frames } with
    | .ok a m => .ok a { m with frames := m.frames.tail }
    | .error halt m => .error halt { m with frames := m.frames.tail }

/-- Prints a line. -/
def print (line : String) : Eval Unit :=
  fun m => .ok () { m with output := m.output.push line }

end Eval

/-- The two ways in which a program is run: expressions are evaluated and statements executed. The
computations of a construct take the runner for the constructs inside it. -/
structure Runner where
  evaluate : Expr → Eval Value
  execute : Statement → Eval Completion

namespace Runner

/-- Evaluates expressions from left to right. -/
def evaluateAll (run : Runner) : List Expr → Eval (List Value)
  | [] => pure []
  | e :: es => do
    let v ← run.evaluate e
    let vs ← run.evaluateAll es
    return v :: vs

/-- Executes statements until one of them returns. -/
def executeAll (run : Runner) : List Statement → Eval Completion
  | [] => pure .normal
  | s :: ss => do
    match ← run.execute s with
    | .normal => run.executeAll ss
    | .returned value => return .returned value

/-- Executes the statements of a program. -/
def executeProgram (run : Runner) : List Statement → Eval Unit
  | [] => pure ()
  | s :: ss => do
    let _ ← run.execute s
    run.executeProgram ss

/-- Executes statements in a scope of their own. -/
def executeBlock (run : Runner) (statements : List Statement) (scope : ScopeRef) :
    Eval Completion :=
  Eval.inScope scope (run.executeAll statements)

end Runner

end Lipi
