import Lipi.Machine.Import
import Lipi.Machine.Inheritance
import Lipi.Machine.Member
import Lipi.Operator.Apply

set_option autoImplicit false

/-! # Running expressions and statements

What every construct of the language does. Each computation here takes the runner for the
constructs inside it; `evaluate` and `execute` **tie the knot, with a bound on how deep the run
nests**. A bound that is too low halts the run as `exhausted`, and nothing else depends on it.
-/

namespace Lipi

namespace Runner

/-! ## Expressions -/

/-- Evaluates the logical operators; the right operand only if the left one does not decide. -/
def logic (run : Runner) (isAnd : Bool) (left right : Expr) : Eval Value := do
  let l := (← run.evaluate left).isTruthy
  if l == isAnd then
    return .bool (← run.evaluate right).isTruthy
  else
    return .bool l

/-- Evaluates a binary operator. -/
def binary (run : Runner) (op : BinaryOp) (left right : Expr) (pos : Position) : Eval Value :=
  match op with
  | .and => run.logic true left right
  | .or => run.logic false left right
  | op => do
    let l ← run.evaluate left
    let r ← run.evaluate right
    Eval.lift pos (op.apply (← get).heap l r)

/-- Evaluates an assignment. The target's parts are evaluated before the value. -/
def assign (run : Runner) (target value : Expr) (pos : Position) : Eval Value :=
  match target with
  | .identifier name namePos => do
    let v ← run.evaluate value
    Eval.assign name v namePos
    return v
  | .member object name _ => do
    let o ← run.evaluate object
    let v ← run.evaluate value
    Eval.setMember o (.name name) v pos
    return v
  | .index object key _ => do
    let o ← run.evaluate object
    let k ← run.evaluate key
    let v ← run.evaluate value
    Eval.setMember o (.computed k) v pos
    return v
  | _ => Eval.fail .invalidAssignmentTarget pos

/-- Evaluates a call. The arguments of a superclass constructor are evaluated before the
superclass is looked for; every other callee is evaluated before its arguments. -/
def call (run : Runner) (callee : Expr) (arguments : List Expr) (pos : Position) : Eval Value :=
  match callee with
  | .super superPos => do
    let arguments ← run.evaluateAll arguments
    run.callSuper arguments superPos
  | .member (.super _) name memberPos => do
    let f ← Eval.superMember name memberPos
    let arguments ← run.evaluateAll arguments
    run.callValue f arguments pos
  | callee => do
    let f ← run.evaluate callee
    let arguments ← run.evaluateAll arguments
    run.callValue f arguments pos

/-- Evaluates an expression. -/
def expression (run : Runner) : Expr → Eval Value
  | .literal value _ => pure (Value.ofLiteral value)
  | .identifier name pos => Eval.lookup name pos
  | .grouping inner _ => run.evaluate inner
  | .unary op operand pos => do
    let v ← run.evaluate operand
    Eval.lift pos (op.apply v)
  | .binary op left right pos => run.binary op left right pos
  | .assign target value pos => run.assign target value pos
  | .call callee arguments pos => run.call callee arguments pos
  | .member (.super _) name pos => Eval.superMember name pos
  | .member object name pos => do
    let o ← run.evaluate object
    Eval.getMember o (.name name) pos
  | .index object key pos => do
    let o ← run.evaluate object
    let k ← run.evaluate key
    Eval.getMember o (.computed k) pos
  | .array elements _ => do
    let vs ← run.evaluateAll elements
    return .array (← Eval.alloc (·.newArray vs.toArray))
  | .receiver pos => Eval.receiver pos
  | .super pos => do
    let _ ← Eval.methodFrame .superOutsideMethod pos
    Eval.fail .invalidSuper pos
  | .new className arguments pos => run.newInstance className arguments pos

/-! ## Statements -/

/-- Executes a loop that may run `n` more iterations. The condition is tested once more after the
last of them. -/
def loop (run : Runner) (condition : Expr) (body : Statement) (pos : Position) :
    Nat → Eval Completion
  | 0 => do
    if (← run.evaluate condition).isTruthy then
      Eval.fail (.loopLimit (← get).limits.maxIterations) pos
    else
      return .normal
  | n + 1 => do
    if (← run.evaluate condition).isTruthy then
      match ← run.execute body with
      | .normal => run.loop condition body pos n
      | .returned value => return .returned value
    else
      return .normal

/-- Executes a return, which needs an active call. -/
def giveBack (run : Runner) (value : Option Expr) (pos : Position) : Eval Completion := do
  if (← get).callDepth = 0 then
    Eval.fail .returnOutsideFunction pos
  else
    match value with
    | some e => return .returned (← run.evaluate e)
    | none => return .returned .null

/-- Notes names for export. -/
def noteExports (names : List String) : Eval Unit :=
  fun m => .ok () { m with exports := m.exports ++ names.toArray }

/-- Executes a statement. -/
def statement (run : Runner) : Statement → Eval Completion
  | .binding constant name initializer pos => do
    let v ← run.evaluate initializer
    Eval.declare name v constant pos
    return .normal
  | .function name parameters body pos => do
    let closure := (← get).environment
    let f ← Eval.alloc (·.newFunction ⟨⟨name, parameters, body⟩, closure⟩)
    Eval.declare name (.function f) false pos
    return .normal
  | .classDecl name superclass methods pos => do
    Eval.declareClass name superclass methods pos
    return .normal
  | .conditional condition thenBranch elseBranch _ => do
    if (← run.evaluate condition).isTruthy then
      run.execute thenBranch
    else
      match elseBranch with
      | some elseBranch => run.execute elseBranch
      | none => return .normal
  | .loop condition body pos => do
    run.loop condition body pos (← get).limits.maxIterations
  | .giveBack value pos => run.giveBack value pos
  | .print value _ => do
    let v ← run.evaluate value
    Eval.print ((← get).heap.text v)
    return .normal
  | .block statements _ => do
    let parent := (← get).environment
    let scope ← Eval.alloc (·.newChild parent)
    run.executeBlock statements scope
  | .expression e _ => do
    let _ ← run.evaluate e
    return .normal
  | .empty _ => return .normal
  | .importNames names source pos => do
    run.importNames names source pos
    return .normal
  | .exportDecl declaration _ => do
    let completion ← run.execute declaration
    noteExports declaration.declaredName?.toList
    return completion
  | .exportNames names _ => do
    noteExports names
    return .normal

end Runner

/-! ## The knot -/

mutual

/-- Evaluates an expression in a run that nests at most `n` deep. -/
def evaluate : Nat → Expr → Eval Value
  | 0, _ => throw .exhausted
  | n + 1, e => Runner.expression ⟨evaluate n, execute n⟩ e

/-- Executes a statement in a run that nests at most `n` deep. -/
def execute : Nat → Statement → Eval Completion
  | 0, _ => throw .exhausted
  | n + 1, s => Runner.statement ⟨evaluate n, execute n⟩ s

end

/-- The runner of a run that nests at most `n` deep. -/
def Runner.within (n : Nat) : Runner :=
  ⟨Lipi.evaluate n, Lipi.execute n⟩

/-! ## How deep a run nests

Inside one call, and inside the statements of one module, a run nests as deep as the trees that it
runs. Calls nest as deep as the limits allow, and modules are loaded inside one another at most once
each. -/

/-- The depth of the deepest tree that a text or a routine on the heap can bring into a run. -/
def Machine.treeDepth (m : Machine) : Nat :=
  let texts := m.modules.loader.texts.map fun text =>
    match Program.ofText text with
    | .ok program => program.depth
    | .error _ => 0
  let functions := m.heap.functions.toList.map fun f => Statement.depthAll f.routine.body
  let methods := m.heap.methods.toList.map fun f => Statement.depthAll f.routine.body
  (texts ++ functions ++ methods).foldl max 0

/-- A bound on how deep a run from this machine nests that starts with a tree of the given
depth. -/
def Machine.nesting (m : Machine) (depth : Nat) : Nat :=
  (m.modules.loader.catalog.entries.length + 1) * (m.limits.maxCallDepth + 1)
    * (max depth m.treeDepth + 1) + 1

namespace Machine

/-- Runs a computation with a runner that nests as deep as it takes. -/
def bounded {α : Type} (depth : Nat) (action : Runner → Eval α) : Eval α :=
  fun m => action (Runner.within (m.nesting depth)) m

/-- Runs a program. -/
def interpret (program : Program) : Eval Unit :=
  bounded program.depth fun run => run.executeProgram program.body

/-- Evaluates an expression. -/
def eval (e : Expr) : Eval Value :=
  bounded e.depth fun run => run.evaluate e

/-- Calls a value. -/
def call (callee : Value) (arguments : List Value) (pos : Position) : Eval Value :=
  bounded 0 fun run => run.callValue callee arguments pos

end Machine

end Lipi
