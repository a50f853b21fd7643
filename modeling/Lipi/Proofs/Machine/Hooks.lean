import Lipi.Proofs.Machine.Watch

set_option autoImplicit false

/-! # Runs with hooks

A run that is told to do more than it has to: `Hooks` say what else is done around every expression,
every statement and every module, when a method is called, when a line is printed, and how a module
comes to its machine and its importer goes on. **All constructs are those of the run itself**; the
hooked ones differ from them only in that they call a method or load a module by way of the hooks.
With hooks that do nothing the run is the run itself (`Runner.hooked_plain`).
-/

namespace Lipi

/-- What is done at the turning points of a run. -/
structure Hooks where
  /-- What is made of the evaluation of an expression. -/
  evaluated : Eval Value → Eval Value
  /-- What is made of the execution of a statement. -/
  executed : Eval Completion → Eval Completion
  /-- What is made of the run of a module. -/
  ran : Eval Exports → Eval Exports
  /-- What is done before a method is called. -/
  called : Option InstanceRef → MethodRef → ClassRef → Eval Unit
  /-- What is done with a line that is printed. -/
  printed : String → Eval Unit
  /-- The machine on which a module runs. -/
  enter : ModuleId → Machine → Machine
  /-- The importer after a module has ended. -/
  leave : ModuleId → Machine → Machine → Machine

namespace Hooks

/-- Hooks that do what a run does anyway. -/
def plain : Hooks where
  evaluated x := x
  executed x := x
  ran x := x
  called _ _ _ := pure ()
  printed := Eval.print
  enter id m := m.startModule id
  leave id m ended := m.resume ended id

variable (k : Hooks) (run : Runner)

/-! ## Calls -/

/-- Calls a method. -/
def callMethod (receiver : Option InstanceRef) (method : MethodRef) (home : ClassRef)
    (arguments : List Value) (pos : Position) : Eval Value := do
  k.called receiver method home
  run.callMethod receiver method home arguments pos

/-- Calls a value. -/
def callValue (callee : Value) (arguments : List Value) (pos : Position) : Eval Value :=
  match callee with
  | .bound receiver method home => k.callMethod run receiver method home arguments pos
  | callee => run.callValue callee arguments pos

/-- Runs a constructor on an instance, if there is one. -/
def constructBy (receiver : Option InstanceRef) (arguments : List Value) (pos : Position) :
    Option (ClassRef × MethodRef) → Eval Unit
  | some (home, constructor) => do
    let _ ← k.callMethod run receiver constructor home arguments pos
  | none => return ()

/-- Runs the nearest constructor from a class upward. -/
def construct (receiver : Option InstanceRef) (c : ClassRef) (arguments : List Value)
    (pos : Position) : Eval Unit :=
  fun m => k.constructBy run receiver arguments pos (m.heap.findConstructor? c) m

/-- Makes an instance. -/
def newInstance (className : String) (arguments : List Expr) (pos : Position) : Eval Value := do
  let c ← Eval.classNamed className pos
  let arguments ← run.evaluateAll arguments
  let o ← Eval.alloc (·.newInstance c)
  k.construct run (some o) c arguments pos
  return .object o

/-- Runs the constructor of the superclass. -/
def callSuper (arguments : List Value) (pos : Position) : Eval Value := do
  let target ← Eval.superTarget pos
  k.construct run target.1.receiver target.2 arguments pos
  return .null

/-- Evaluates a call. -/
def call (callee : Expr) (arguments : List Expr) (pos : Position) : Eval Value :=
  match callee with
  | .super superPos => do
    let arguments ← run.evaluateAll arguments
    k.callSuper run arguments superPos
  | .member (.super _) name memberPos => do
    let f ← Eval.superMember name memberPos
    let arguments ← run.evaluateAll arguments
    k.callValue run f arguments pos
  | callee => do
    let f ← run.evaluate callee
    let arguments ← run.evaluateAll arguments
    k.callValue run f arguments pos

/-- Evaluates an expression. -/
def expression : Expr → Eval Value
  | .call callee arguments pos => k.call run callee arguments pos
  | .new className arguments pos => k.newInstance run className arguments pos
  | e => run.expression e

/-! ## Modules and statements -/

/-- Loads a module. -/
def loadModule (specifier : String) (pos : Position) : Eval Exports :=
  Eval.findModule specifier pos fun id =>
    Eval.readProgram specifier id pos fun program =>
      Eval.onOwnMachine (k.enter id) (k.leave id) specifier id pos (k.ran (run.runModule program))

/-- Executes an import. -/
def importNames (names : List String) (specifier : String) (pos : Position) : Eval Unit := do
  let exports ← k.loadModule run specifier pos
  Eval.bindImports specifier exports pos names

/-- Executes a statement. -/
def statement : Statement → Eval Completion
  | .print value _ => do
    let v ← run.evaluate value
    k.printed ((← get).heap.text v)
    return .normal
  | .importNames names source pos => do
    k.importNames run names source pos
    return .normal
  | s => run.statement s

end Hooks

/-! ## The knot -/

mutual

/-- Evaluates an expression in a hooked run that nests at most `n` deep. -/
def evaluateHooked (k : Hooks) : Nat → Expr → Eval Value
  | 0, _ => throw .exhausted
  | n + 1, e => k.evaluated (k.expression ⟨evaluateHooked k n, executeHooked k n⟩ e)

/-- Executes a statement in a hooked run that nests at most `n` deep. -/
def executeHooked (k : Hooks) : Nat → Statement → Eval Completion
  | 0, _ => throw .exhausted
  | n + 1, s => k.executed (k.statement ⟨evaluateHooked k n, executeHooked k n⟩ s)

end

/-- The runner of a hooked run. -/
def Runner.hooked (k : Hooks) (n : Nat) : Runner :=
  ⟨evaluateHooked k n, executeHooked k n⟩

/-! ## Hooks that do nothing -/

namespace Hooks

variable (run : Runner)

theorem callValue_plain (callee : Value) (arguments : List Value) (pos : Position) :
    plain.callValue run callee arguments pos = run.callValue callee arguments pos := by
  cases callee <;> rfl

theorem construct_plain (receiver : Option InstanceRef) (c : ClassRef) (arguments : List Value)
    (pos : Position) :
    plain.construct run receiver c arguments pos = run.construct receiver c arguments pos := by
  funext m
  show plain.constructBy run receiver arguments pos (m.heap.findConstructor? c) m =
    run.constructBy receiver arguments pos (m.heap.findConstructor? c) m
  cases m.heap.findConstructor? c <;> rfl

theorem call_plain (callee : Expr) (arguments : List Expr) (pos : Position) :
    plain.call run callee arguments pos = run.call callee arguments pos := by
  have hvalue : plain.callValue run = run.callValue := by
    funext callee arguments pos
    exact callValue_plain run callee arguments pos
  have hsuper : plain.callSuper run = run.callSuper := by
    funext arguments pos
    unfold callSuper Runner.callSuper
    simp only [construct_plain]
  unfold call Runner.call
  rewrite [hvalue, hsuper]
  cases callee with
  | member object name memberPos => cases object <;> rfl
  | _ => rfl

theorem expression_plain (e : Expr) : plain.expression run e = run.expression e := by
  cases e with
  | call callee arguments pos => exact call_plain run callee arguments pos
  | new className arguments pos =>
      show plain.newInstance run className arguments pos = run.newInstance className arguments pos
      unfold newInstance Runner.newInstance
      simp only [construct_plain]
  | _ => rfl

theorem loadModule_plain (specifier : String) (pos : Position) :
    plain.loadModule run specifier pos = run.loadModule specifier pos := by
  rw [Runner.loadModule_eq]
  unfold loadModule
  congr 1
  funext id
  congr 1
  funext program m
  exact (run.importProgram_eq specifier id program pos m).symm

theorem statement_plain (s : Statement) : plain.statement run s = run.statement s := by
  cases s with
  | importNames names source pos =>
      show (plain.importNames run names source pos >>= fun _ => pure Completion.normal) =
        (run.importNames names source pos >>= fun _ => pure Completion.normal)
      unfold importNames Runner.importNames
      rw [loadModule_plain]
  | _ => rfl

end Hooks

/-- A run with hooks that do nothing is the run itself. -/
theorem Runner.hooked_plain (n : Nat) : Runner.hooked .plain n = Runner.within n := by
  have hsame : evaluateHooked .plain n = Lipi.evaluate n ∧
      executeHooked .plain n = Lipi.execute n := by
    induction n with
    | zero => exact ⟨rfl, rfl⟩
    | succ n ih =>
        obtain ⟨he, hs⟩ := ih
        constructor
        · funext e
          rw [evaluateHooked, Lipi.evaluate, he, hs]
          exact Hooks.expression_plain _ e
        · funext s
          rw [executeHooked, Lipi.execute, he, hs]
          exact Hooks.statement_plain _ s
  unfold Runner.hooked Runner.within
  rw [hsame.1, hsame.2]

end Lipi
