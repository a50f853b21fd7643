import Lipi.Position

set_option autoImplicit false

/-! # Errors in a source text

What can be wrong with a text before it runs. An error is a cause at a position; a *fatal* one
concerns the markers around the program, and reading stops there.
-/

namespace Lipi

/-- Why a source text is not a program. -/
inductive CompileError.Cause where
  /-- A character that starts no token. -/
  | unexpectedCharacter (c : Char)
  | unterminatedString
  | unterminatedComment
  /-- A numeral too large for a number. -/
  | invalidNumber (lexeme : String)
  /-- A token that starts no expression. -/
  | unexpectedToken (found : String)
  /-- A construct that goes on differently from what is found. -/
  | expected (expectation found : String)
  /-- An import or export inside a block. -/
  | topLevelOnly (word : String)
  /-- An end marker without a start marker. -/
  | missingProgramStart
  /-- A start marker without an end marker. -/
  | missingProgramEnd
  /-- A start marker inside the program. -/
  | duplicateProgramStart
  /-- Text behind the end marker. -/
  | trailingTokens (found : String)
deriving Repr, DecidableEq, Inhabited

/-- The cause of giving up because a bound on the reading is used up. It names no token, which sets it
apart from all other causes. -/
def CompileError.Cause.exhausted : CompileError.Cause := .unexpectedToken ""

/-- A cause and where it was met. -/
structure CompileError where
  cause : CompileError.Cause
  position : Position
deriving Repr, DecidableEq, Inhabited

namespace CompileError

/-- The wording of a cause. -/
def Cause.message : Cause → String
  | .unexpectedCharacter c => "Unexpected character '" ++ c.toString ++ "'"
  | .unterminatedString => "Unterminated string"
  | .unterminatedComment => "Unterminated comment"
  | .invalidNumber lexeme => "Invalid number literal '" ++ lexeme ++ "'"
  | .unexpectedToken found => "Unexpected token " ++ found
  | .expected expectation found => expectation ++ ", found " ++ found
  | .topLevelOnly word => "'" ++ word ++ "' is only allowed at the top level"
  | .missingProgramStart => "Found 'khatam' without a matching 'shuru'"
  | .missingProgramEnd => "Expected 'khatam' to end the program"
  | .duplicateProgramStart => "Program already started with 'shuru'"
  | .trailingTokens found => "Unexpected " ++ found ++ " after 'khatam'"

/-- Whether the cause concerns the program markers, so that reading stops there. -/
def Cause.isFatal : Cause → Bool
  | .missingProgramStart | .missingProgramEnd | .duplicateProgramStart | .trailingTokens _ => true
  | _ => false

/-- Whether reading stops at this error. -/
def isFatal (e : CompileError) : Bool :=
  e.cause.isFatal

/-- The line that reports an error. -/
def message (e : CompileError) : String :=
  "CompileError: " ++ e.cause.message ++ " at " ++ e.position.text

/-- The lines that report several errors. -/
def report (errors : List CompileError) : String :=
  "\n".intercalate (errors.map message)

end CompileError

end Lipi
