import Lipi.Module.Files
import Lipi.Session
import Lipi.Statement.Printer

set_option autoImplicit false

/-! # The command line

`CommandLine.run` is the whole program as a function: **from the arguments and the files to the exit
code and the two output texts**. The script is a file or an argument; its tokens or its canonical
text can be listed instead of running it.
-/

namespace Lipi.CommandLine

/-! ## Arguments -/

/-- What the arguments ask for. -/
structure Options where
  path : Option String
  source : Option String
  maxIterations : Option Nat
  maxCallDepth : Option Nat
  listTokens : Bool
  listProgram : Bool
deriving Repr, DecidableEq, Inhabited

/-- Nothing is asked for. -/
def Options.none : Options := ⟨.none, .none, .none, .none, false, false⟩

/-- What is done with the arguments. -/
inductive Request where
  | run (options : Options)
  | version
  | help
  | rejected (reason : String)
deriving Repr, Inhabited

/-- The options that take a value. -/
inductive Valued where
  | source
  | maxIterations
  | maxCallDepth
deriving Repr, DecidableEq, Inhabited

/-- The largest number that an option takes. -/
def maxNumber : Nat := UInt64.size - 1

/-- A number as the value of an option: digits, perhaps with a plus sign in front. -/
def number? (text : String) : Option Nat :=
  let digits :=
    match text.toList with
    | '+' :: rest => rest
    | cs => cs
  if digits.isEmpty || !digits.all Char.isDigit then .none
  else (some (Number.digitsValue 0 digits)).filter (· ≤ maxNumber)

/-- Sets an option that takes a value. It may be given once. -/
def Options.set (options : Options) (option : Valued) (value : String) : Except String Options :=
  let twice := .error "an option is given twice"
  match option with
  | .source =>
    if options.source.isSome then twice else .ok { options with source := value }
  | .maxIterations =>
    match options.maxIterations, number? value with
    | .none, some n => .ok { options with maxIterations := n }
    | .none, .none => .error ("invalid number '" ++ value ++ "'")
    | some _, _ => twice
  | .maxCallDepth =>
    match options.maxCallDepth, number? value with
    | .none, some n => .ok { options with maxCallDepth := n }
    | .none, .none => .error ("invalid number '" ++ value ++ "'")
    | some _, _ => twice

/-- Sets the script. There may be one. -/
def Options.setPath (options : Options) (path : String) : Except String Options :=
  if path.isEmpty then .error "the path is empty"
  else if options.path.isSome then .error ("unexpected argument '" ++ path ++ "'")
  else .ok { options with path := path }

/-- Asks for the tokens. -/
def Options.setListTokens (options : Options) : Except String Options :=
  if options.listTokens then .error "an option is given twice"
  else .ok { options with listTokens := true }

/-- Asks for the canonical text. -/
def Options.setListProgram (options : Options) : Except String Options :=
  if options.listProgram then .error "an option is given twice"
  else .ok { options with listProgram := true }

/-- What an argument is. -/
inductive Argument where
  /-- Ends the options. -/
  | separator
  | path (path : String)
  | tokens
  | program
  | version
  | help
  /-- An option that takes a value, with the value if the argument holds it. -/
  | valued (option : Valued) (value : Option String)
  | unknown
deriving Repr, Inhabited

/-- An option by its long name, and what stands behind an equals sign. -/
def longOption (name : String) (value : Option String) : Argument :=
  match name, value with
  | "eval", value => .valued .source value
  | "max-iterations", value => .valued .maxIterations value
  | "max-depth", value => .valued .maxCallDepth value
  | "tokens", .none => .tokens
  | "ast", .none => .program
  | "version", .none => .version
  | "help", .none => .help
  | _, _ => .unknown

/-- An option by its letter, and the rest of the argument. -/
def shortOption (letter : Char) (rest : List Char) : Argument :=
  match letter, rest with
  | 'V', _ => .version
  | 'h', _ => .help
  | 'e', [] => .valued .source .none
  | 'e', '=' :: value => .valued .source (some (String.ofList value))
  | 'e', value => .valued .source (some (String.ofList value))
  | _, _ => .unknown

/-- What an argument in front of a separator is. A single dash is a path. -/
def classify (argument : String) : Argument :=
  match argument.toList with
  | ['-', '-'] => .separator
  | '-' :: '-' :: rest =>
    let name := String.ofList (rest.takeWhile (· ≠ '='))
    match rest.dropWhile (· ≠ '=') with
    | [] => longOption name .none
    | _ :: value => longOption name (some (String.ofList value))
  | '-' :: letter :: rest => shortOption letter rest
  | _ => .path argument

/-- Whether an argument can be the value of the option in front of it. -/
def isValue (argument : String) : Bool :=
  match classify argument with
  | .path _ => true
  | _ => false

/-- Sets the paths behind a separator. -/
def setPaths : Options → List String → Except String Options
  | options, [] => .ok options
  | options, path :: paths => do setPaths (← options.setPath path) paths

/-- Goes on with the options, unless they are wrong. -/
def andThen (options : Except String Options) (next : Options → Request) : Request :=
  match options with
  | .ok options => next options
  | .error reason => .rejected reason

/-- Reads the arguments one after the other. -/
def readArguments : Options → List String → Request
  | options, [] => .run options
  | options, argument :: rest =>
    match classify argument with
    | .separator => andThen (setPaths options rest) .run
    | .path path => andThen (options.setPath path) fun options => readArguments options rest
    | .tokens => andThen options.setListTokens fun options => readArguments options rest
    | .program => andThen options.setListProgram fun options => readArguments options rest
    | .version => .version
    | .help => .help
    | .valued option (some value) =>
      andThen (options.set option value) fun options => readArguments options rest
    | .valued option .none =>
      match rest with
      | value :: rest =>
        if isValue value then
          andThen (options.set option value) fun options => readArguments options rest
        else .rejected ("a value is missing behind '" ++ argument ++ "'")
      | [] => .rejected ("a value is missing behind '" ++ argument ++ "'")
    | .unknown => .rejected ("unexpected argument '" ++ argument ++ "'")

/-- The request of the arguments. The script is a file or an argument, and not both; so is what is
listed. -/
def request (arguments : List String) : Request :=
  match readArguments .none arguments with
  | .run options =>
    if options.path.isSome && options.source.isSome then
      .rejected "a path cannot be used with '--eval'"
    else if options.listTokens && options.listProgram then
      .rejected "'--tokens' cannot be used with '--ast'"
    else .run options
  | other => other

/-! ## Running -/

/-- What a run of the program leaves behind. -/
structure Result where
  exitCode : Nat
  output : String
  errorOutput : String
deriving Repr, DecidableEq, Inhabited

/-- A line of text, ended. -/
def line (text : String) : String :=
  text ++ "\n"

/-- The run succeeds with an output. -/
def Result.success (output : String) : Result := ⟨0, output, ""⟩

/-- The run fails with a message, after an output. -/
def Result.failure (output message : String) : Result := ⟨1, output, line message⟩

/-- The exit code of an aborted run. -/
def abortCode : Nat := 101

/-- The run is aborted; what it printed is lost. -/
def Result.aborted (message : String) : Result := ⟨abortCode, "", line message⟩

/-- Blanks that fill a text up to a width. -/
def padding (width : Nat) (text : String) : String :=
  String.ofList (List.replicate (width - text.length) ' ')

/-- A token in a listing: line and column, in four characters each, and the kind. -/
def tokenLine (t : Token) : String :=
  let row := toString t.position.line
  let column := toString t.position.column
  line (padding 4 row ++ row ++ ":" ++ column ++ padding 4 column ++ " " ++ t.kind.label)

/-- The lines of an output. -/
def lines (texts : List String) : String :=
  String.join (texts.map line)

/-- The result of a run of a program. -/
def ofOutcome : Outcome → Result
  | .rejected errors => .failure "" (CompileError.report errors)
  | .completed printed => .success (lines printed)
  | .halted (.failed e) printed => .failure (lines printed) e.message
  | .halted .conflict _ => .aborted "an instance is read while it is written"
  | .halted .exhausted _ => .aborted "the run nests too deep"

/-- The session of the options. Without a script file, modules are looked for in the working
directory. -/
def session (files : FileTree) (options : Options) : Session where
  limits :=
    ⟨options.maxIterations.getD Limits.standard.maxIterations,
      options.maxCallDepth.getD Limits.standard.maxCallDepth⟩
  loader := files.loader (files.route ".")
  scriptId := options.path.map fun path => files.scriptId (files.route path)

/-- Does what the options ask for with the text of the script. -/
def runText (files : FileTree) (options : Options) (text : String) : Result :=
  if options.listTokens then
    match tokenize text with
    | .ok tokens => .success (String.join (tokens.map tokenLine))
    | .error e => .failure "" e.message
  else if options.listProgram then
    match Program.ofText text with
    | .ok program => .success program.text
    | .error errors => .failure "" (CompileError.report errors)
  else ofOutcome ((session files options).run text)

/-- The text of the script. -/
def script (files : FileTree) (options : Options) : Except String String :=
  match options.source, options.path with
  | some text, _ => .ok text
  | .none, some path =>
    match files.readText (files.route path) with
    | .ok text => .ok text
    | .error e => .error ("failed to read '" ++ path ++ "': " ++ e.message)
  | .none, .none => .error "no script given; pass a PATH or --eval SOURCE"

/-- The line that names the program and its version. -/
def versionText : String := line "desiscript 0.1.0"

/-- How the program is used. -/
def helpText : String :=
  lines
    ["Usage: desiscript [OPTIONS] [PATH]",
     "",
     "  -e, --eval <EVAL>                      Run the given source text instead of a file",
     "      --max-iterations <MAX_ITERATIONS>  How many iterations one loop may run",
     "      --max-depth <MAX_DEPTH>            How many calls may be active at once",
     "      --tokens                           Print the tokens instead of running the program",
     "      --ast                              Print the program in canonical form instead",
     "  -h, --help                             Print help",
     "  -V, --version                          Print version"]

/-- Runs the program with arguments on a tree of files. -/
def run (files : FileTree) (arguments : List String) : Result :=
  match request arguments with
  | .version => .success versionText
  | .help => .success helpText
  | .rejected reason => ⟨2, "", line ("error: " ++ reason)⟩
  | .run options =>
    match script files options with
    | .ok text => runText files options text
    | .error message => .failure "" message

end Lipi.CommandLine
