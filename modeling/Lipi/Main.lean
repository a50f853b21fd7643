import Lipi.CommandLine.Survey

set_option autoImplicit false

/-! # The program

Reads the files that a run may look at, runs the command line on them, and prints the result.
-/

namespace Lipi.Main

/-- The error code of the system for reading a directory as a file. -/
def directoryCode : UInt32 := 21

/-- What stands at a place of the file system. -/
def probe (names : List String) : IO (Option Entry) := do
  try
    return some (.file (← IO.FS.readBinFile ("/" ++ "/".intercalate names)))
  catch e =>
    match e with
    | .inappropriateType _ code _ => return if code = directoryCode then some .directory else none
    | _ => return none

/-- Adds to a tree what stands at the places that a run may look at, until no place is new. -/
partial def survey (arguments : List String) (seen : List (List String)) (files : FileTree) :
    IO FileTree := do
  let new := (CommandLine.places files arguments).eraseDups.filter (!seen.contains ·)
  if new.isEmpty then
    return files
  else
    let mut files := files
    for names in new do
      if let some entry ← probe names then
        files := files.add names entry
    survey arguments (seen ++ new) files

end Lipi.Main

/-- Runs the program with the arguments of the process. -/
def main (arguments : List String) : IO UInt32 := do
  let directory := toString (← IO.currentDir)
  let files ← Lipi.Main.survey arguments [] ⟨"", Lipi.Route.partsOf directory, []⟩
  let result := Lipi.CommandLine.run files arguments
  IO.print result.output
  IO.eprint result.errorOutput
  return result.exitCode.toUInt32
