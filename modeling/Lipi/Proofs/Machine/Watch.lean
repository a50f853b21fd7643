import Lipi.Proofs.Machine.Oblivious

set_option autoImplicit false

/-! # Watched runs

To say what is the case at every moment of a run, or what has happened before a moment, the run is
watched. A `Watch` notes events in a journal, and asks something of every moment. **The watched run
is made of the same constructs as the run itself**; it differs from it in three points.

* The output of the machine is the journal. It holds what the watch notes, and there is one journal
  for all modules: a module goes on with the journal of its importer, and the importer with that of
  the module. So the journal stands in the order of time.
* Where a line is printed, and where a module is read, starts and finishes, that event is noted.
* Before and after every expression, every statement and every module, the machine is looked at. If
  it is not as the watch asks, the run is stopped, which shows as `exhausted`.
-/

namespace Lipi

/-- The machine with other lines as its output. -/
def Machine.withOutput (m : Machine) (output : Array String) : Machine :=
  { m with output }

theorem Machine.aside_withOutput (output : Array String) : Machine.Aside (·.withOutput output) :=
  ⟨fun _ => rfl, fun _ => rfl, fun _ => rfl, fun _ => rfl, fun _ => rfl, fun _ _ _ => rfl⟩

/-- What can be noted of a run. -/
inductive Event where
  /-- The run has come to this machine. -/
  | moment (m : Machine)
  /-- A line is printed. -/
  | printed (line : String)
  /-- The text of a module is asked for. -/
  | read (id : ModuleId)
  /-- The first statement of a module is about to be executed. -/
  | started (id : ModuleId)
  /-- All statements of a module have been executed, and its exports have been collected. -/
  | finished (id : ModuleId) (exports : Exports)

namespace Event

/-- The line that is printed. -/
def line? : Event → Option String
  | printed line => some line
  | _ => none

/-- The module whose text is asked for. -/
def readId? : Event → Option ModuleId
  | read id => some id
  | _ => none

/-- The module that starts. -/
def startedId? : Event → Option ModuleId
  | started id => some id
  | _ => none

end Event

/-- How a run is watched. -/
structure Watch where
  /-- What is noted of an event, if anything. -/
  note : Event → Option String
  /-- What is asked of every moment, given the journal up to it and the machine. -/
  asks : List String → Machine → Prop

/-! ## Modules, step by step -/

namespace Eval

/-- Runs a module on the machine that `enter` makes, and comes back to the one that `leave` makes of
the importer and the machine on which the module has ended. -/
def onOwnMachine (enter : Machine → Machine) (leave : Machine → Machine → Machine)
    (specifier : String) (id : ModuleId) (pos : Position) (body : Eval Exports) : Eval Exports :=
  fun m => ofModule specifier id pos (leave m) (body (enter m))

section Modules

variable {enter : Machine → Machine} {leave : Machine → Machine → Machine} {specifier : String}
  {id : ModuleId} {pos : Position} {body : Eval Exports} {m ended : Machine}

theorem onOwnMachine_ok {exports : Exports} (h : body (enter m) = .ok exports ended) :
    onOwnMachine enter leave specifier id pos body m =
      .ok exports { leave m ended with modules := (leave m ended).modules.store id exports } := by
  unfold onOwnMachine
  rw [h]
  rfl

theorem onOwnMachine_error {halt : Halt} (h : body (enter m) = .error halt ended) :
    onOwnMachine enter leave specifier id pos body m =
      .error (importerHalt specifier pos halt) (leave m ended) := by
  unfold onOwnMachine
  rw [h]
  rfl

end Modules

end Eval

/-! ## Noting and looking -/

namespace Watch

/-- The journal of what has happened. -/
def journal (w : Watch) (past : List Event) : Array String :=
  (past.filterMap w.note).toArray

/-- Notes an event. -/
def record (w : Watch) (event : Event) : Eval Unit :=
  fun m => .ok () (m.withOutput (m.output ++ (w.note event).toArray))

open scoped Classical in
/-- Looks at the machine, and stops the run if it is not as the watch asks. -/
noncomputable def look (w : Watch) : Eval Unit :=
  fun m => if w.asks m.output.toList m then w.record (.moment m) m else .error .exhausted m

/-- Looks at the machine after a computation, whether it succeeds or not. -/
noncomputable def lookAfter {α : Type} (w : Watch) (x : Eval α) : Eval α :=
  fun m =>
    match x m with
    | .ok a m => (do w.look; return a : Eval α) m
    | .error halt m => (do w.look; throw halt : Eval α) m

/-- Looks at the machine before and after a computation. -/
noncomputable def around {α : Type} (w : Watch) (x : Eval α) : Eval α := do
  w.look
  w.lookAfter x

/-! ## Watched constructs -/

/-- Runs a module. -/
noncomputable def runModule (w : Watch) (run : Runner) (id : ModuleId) (program : Program) :
    Eval Exports := do
  w.record (.started id)
  let exports ← w.around (run.runModule program)
  w.record (.finished id exports)
  return exports

/-- Loads a module, which goes on with the journal of the importer. -/
noncomputable def loadModule (w : Watch) (run : Runner) (specifier : String) (pos : Position) :
    Eval Exports :=
  Eval.findModule specifier pos fun id => do
    w.record (.read id)
    Eval.readProgram specifier id pos fun program =>
      Eval.onOwnMachine (fun m => (m.startModule id).withOutput m.output)
        (fun m ended => (m.resume ended id).withOutput ended.output) specifier id pos
        (w.runModule run id program)

/-- Executes an import. -/
noncomputable def importNames (w : Watch) (run : Runner) (names : List String) (specifier : String)
    (pos : Position) : Eval Unit := do
  let exports ← w.loadModule run specifier pos
  Eval.bindImports specifier exports pos names

/-- Executes a statement. -/
noncomputable def statement (w : Watch) (run : Runner) : Statement → Eval Completion
  | .print value _ => do
    let v ← run.evaluate value
    w.record (.printed ((← get).heap.text v))
    return .normal
  | .importNames names source pos => do
    w.importNames run names source pos
    return .normal
  | s => run.statement s

end Watch

mutual

/-- Evaluates an expression in a watched run that nests at most `n` deep. -/
noncomputable def evaluateWatched (w : Watch) : Nat → Expr → Eval Value
  | 0, _ => throw .exhausted
  | n + 1, e => w.around (Runner.expression ⟨evaluateWatched w n, executeWatched w n⟩ e)

/-- Executes a statement in a watched run that nests at most `n` deep. -/
noncomputable def executeWatched (w : Watch) : Nat → Statement → Eval Completion
  | 0, _ => throw .exhausted
  | n + 1, s => w.around (w.statement ⟨evaluateWatched w n, executeWatched w n⟩ s)

end

/-- The runner of a watched run. -/
noncomputable def Runner.watched (w : Watch) (n : Nat) : Runner :=
  ⟨evaluateWatched w n, executeWatched w n⟩

end Lipi
