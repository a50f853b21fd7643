import Lipi.Machine.Run

set_option autoImplicit false

/-! # Sessions

A session is a way of running programs: limits, a source of modules, and the identity of the script,
if it has one. **Every run starts afresh**, with an empty heap and no modules loaded.
-/

namespace Lipi

/-- How programs are run. -/
structure Session where
  limits : Limits
  loader : Loader
  /-- The identity of the script. A script that has one counts as being loaded, so that importing
  it is circular. -/
  scriptId : Option ModuleId

/-- How a run ends. -/
inductive Outcome where
  /-- The text is not a program; nothing was run. -/
  | rejected (errors : List CompileError)
  /-- The program ran to its end and printed these lines. -/
  | completed (lines : List String)
  /-- The program printed these lines and did not go on. -/
  | halted (reason : Halt) (lines : List String)

namespace Session

/-- The modules at the start of a run. -/
def modules (session : Session) : Modules :=
  let modules := Modules.fresh session.loader
  match session.scriptId with
  | some id => modules.enter id
  | none => modules

/-- The machine at the start of a run. -/
def machine (session : Session) : Machine :=
  Machine.start .empty session.limits session.modules session.scriptId

/-- Runs a program. -/
def runProgram (session : Session) (program : Program) : Outcome :=
  match Machine.interpret program session.machine with
  | .ok _ m => .completed m.output.toList
  | .error halt m => .halted halt m.output.toList

/-- Runs the program of a text. -/
def run (session : Session) (text : String) : Outcome :=
  match Program.ofText text with
  | .error errors => .rejected errors
  | .ok program => session.runProgram program

end Session

end Lipi
