import Lipi.Machine
import Lipi.Program.Parser

set_option autoImplicit false

/-! # Imports

An import runs the module that it names, unless the module has been run already, and binds the
imported names as constants. A module runs on a machine of its own that shares heap and modules with
the importer; **what it prints is handed to the importer when it ends, well or not**.
-/

namespace Lipi

namespace Machine

/-- The machine on which a module that is being imported runs. -/
def startModule (m : Machine) (id : ModuleId) : Machine :=
  Machine.start m.heap m.limits (m.modules.enter id) (some id)

/-- The importer after a module has ended on its machine. -/
def resume (m ended : Machine) (id : ModuleId) : Machine :=
  { m with
    heap := ended.heap
    modules := ended.modules.leave id
    output := m.output ++ ended.output }

/-- The values of names to be exported, added to those collected before. -/
def collect (m : Machine) : List String → Exports → Except RuntimeError.Cause Exports
  | [], exports => .ok exports
  | name :: names, exports =>
    match m.global? name with
    | some value => m.collect names (exports.insert name value)
    | none => .error (.undefinedVariable name)

/-- The exports of a module whose statements have all run. -/
def collectExports (m : Machine) : Except RuntimeError.Cause Exports :=
  m.collect m.exports.toList .empty

end Machine

/-- The error that the import of a failed module reports. A circular import is reported as it
is; everything else is wrapped. -/
def RuntimeError.ofModule (specifier : String) (pos : Position) (e : RuntimeError) : RuntimeError :=
  match e.cause with
  | .circularImport _ => e
  | _ => ⟨.moduleLoad specifier e.message, some pos⟩

namespace Runner

/-- The exports of a program that is run as a module. An export that is not defined is an error
without a position. -/
def runModule (run : Runner) (program : Program) : Eval Exports := do
  run.executeProgram program.body
  match (← get).collectExports with
  | .ok exports => return exports
  | .error cause => throw (.failed ⟨cause, none⟩)

/-- Runs a module and keeps its exports. -/
def importProgram (run : Runner) (specifier : String) (id : ModuleId) (program : Program)
    (pos : Position) : Eval Exports :=
  fun m =>
    match run.runModule program (m.startModule id) with
    | .ok exports ended =>
      let m := m.resume ended id
      .ok exports { m with modules := m.modules.store id exports }
    | .error (.failed e) ended => .error (.failed (e.ofModule specifier pos)) (m.resume ended id)
    | .error halt ended => .error halt (m.resume ended id)

/-- Reads and runs a module that has not been run yet. -/
def readModule (run : Runner) (specifier : String) (id : ModuleId) (pos : Position) :
    Eval Exports := do
  match (← get).modules.loader.read id with
  | .error e => Eval.fail (.moduleLoad specifier e.message) pos
  | .ok text =>
    match Program.ofText text with
    | .error errors => Eval.fail (.moduleLoad specifier (CompileError.report errors)) pos
    | .ok program => run.importProgram specifier id program pos

/-- The exports of the module that a specifier names. -/
def loadModule (run : Runner) (specifier : String) (pos : Position) : Eval Exports := do
  let m ← get
  match m.modules.loader.resolve specifier m.moduleId with
  | .error e => Eval.fail (.moduleLoad specifier e.message) pos
  | .ok id =>
    match m.modules.cached? id with
    | some exports => return exports
    | none =>
      if m.modules.isLoading id then Eval.fail (.circularImport specifier) pos
      else run.readModule specifier id pos

end Runner

namespace Eval

/-- Binds imported names as constants, one after the other. -/
def bindImports (specifier : String) (exports : Exports) (pos : Position) :
    List String → Eval Unit
  | [] => return ()
  | name :: names => do
    match exports.get? name with
    | none => fail (.missingExport specifier name) pos
    | some value =>
      declare name value true pos
      bindImports specifier exports pos names

end Eval

/-- Executes an import. -/
def Runner.importNames (run : Runner) (names : List String) (specifier : String) (pos : Position) :
    Eval Unit := do
  let exports ← run.loadModule specifier pos
  Eval.bindImports specifier exports pos names

end Lipi
