import Lipi.Statement.Parser
import Lipi.Token.Lexer

set_option autoImplicit false

/-! # Reading programs

A program is a sequence of statements up to the end of the text, or between the two program
markers. A statement with an error in it is skipped, and the errors of all of them are reported
together; **an error that concerns the markers is the last one reported**.
-/

namespace Lipi

namespace Parser

/-- The fatal error at the current token, where the statements of a program end wrongly. -/
def fatal (cause : CompileError.Cause) (s : Stream) : Except (List CompileError) Program :=
  .error (s.record ⟨cause, s.position⟩).errors.toList

/-- The result of a program whose statements have all been read, well or not. -/
def conclude (markers : Bool) (body : List Statement) (s : Stream) :
    Except (List CompileError) Program :=
  if s.errors.isEmpty then .ok ⟨body, markers⟩ else .error s.errors.toList

/-- The statements of a program up to its end; `n` attempts at most. The statements read so far
come in reverse order. -/
def programBody (markers : Bool) :
    Nat → List Statement → Stream → Except (List CompileError) Program
  | 0, _, s => fatal .exhausted s
  | n + 1, previous, s =>
    match s.kind with
    | .eof =>
      if markers then fatal .missingProgramEnd s else conclude markers previous.reverse s
    | .keyword .khatam =>
      if markers then
        let s := s.advance
        if s.isAtEnd then conclude markers previous.reverse s
        else fatal (.trailingTokens s.peek.describe) s
      else fatal .missingProgramStart s
    | _ =>
      match declaration true s with
      | .ok statement s' => programBody markers n (statement :: previous) s'
      | .error error s' =>
        if error.isFatal then .error (s'.record error).errors.toList
        else programBody markers n previous ((s'.record error).synchronize false)

end Parser

namespace Program

/-- The program of a list of tokens, or the errors in it. -/
def ofTokens (tokens : List Token) : Except (List CompileError) Program :=
  let s := Stream.ofTokens tokens
  if s.check (.keyword .shuru) then Parser.programBody true s.bound [] s.advance
  else Parser.programBody false s.bound [] s

/-- The program of a text, or the errors in it. -/
def ofText (text : String) : Except (List CompileError) Program :=
  match tokenize text with
  | .ok tokens => ofTokens tokens
  | .error error => .error [error]

end Program

end Lipi
