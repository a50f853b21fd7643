import Lipi.CompileError
import Lipi.Token

set_option autoImplicit false

/-! # Streams of tokens

A stream is a list of tokens with a cursor, and the errors recorded while reading it. Reading never
goes back, and **the end token is never passed**. Behind the last token of a stream without an end
token, that last token is seen again and again.
-/

namespace Lipi

/-- Tokens, how many of them have been read, and the errors recorded so far, oldest first. -/
structure Stream where
  tokens : Array Token
  cursor : Nat
  errors : Array CompileError
deriving Inhabited

namespace Stream

/-- The stream at the first of the tokens. -/
def ofTokens (tokens : List Token) : Stream :=
  ⟨tokens.toArray, 0, #[]⟩

/-! ## Looking -/

/-- The current token. -/
def peek (s : Stream) : Token :=
  s.tokens[s.cursor]?.getD (s.tokens.back?.getD Token.eof)

/-- The kind of the current token. -/
def kind (s : Stream) : TokenKind :=
  s.peek.kind

/-- The position of the current token. -/
def position (s : Stream) : Position :=
  s.peek.position

/-- The kind of the token behind the current one. -/
def nextKind (s : Stream) : TokenKind :=
  match s.tokens[s.cursor + 1]? with
  | some token => token.kind
  | none => .eof

/-- The token in front of the current one. -/
def previous? (s : Stream) : Option Token :=
  match s.cursor with
  | 0 => none
  | n + 1 => s.tokens[n]?

/-- Whether the current token is of a kind. -/
def check (s : Stream) (kind : TokenKind) : Bool :=
  s.kind == kind

/-- Whether the current token is the end of the text. -/
def isAtEnd (s : Stream) : Bool :=
  match s.kind with
  | .eof => true
  | _ => false

/-- Whether the current token starts on a later line than the one on which the token in front of it
ends. -/
def atLineBreak (s : Stream) : Bool :=
  match s.previous? with
  | some token => decide (token.endLine < s.position.line)
  | none => false

/-- Whether a statement may end in front of the current token without a semicolon. -/
def atBoundary (s : Stream) : Bool :=
  (match s.kind with
    | .sign .semicolon | .sign .rightBrace | .keyword .khatam | .eof => true
    | _ => false)
    || s.atLineBreak

/-- How many tokens are left, and a few more: no reading at this place nests deeper or repeats
more often. -/
def bound (s : Stream) : Nat :=
  s.tokens.size - s.cursor + 4

/-! ## Moving -/

/-- The stream behind the current token. The end token is not passed. -/
def advance (s : Stream) : Stream :=
  if s.isAtEnd then s else { s with cursor := s.cursor + 1 }

/-- Whether reading can go on here after an error: behind a semicolon, at a word that starts a
statement, or where a block or the program ends. -/
def isSettled (s : Stream) : Bool :=
  (match s.previous? with
    | some ⟨.sign .semicolon, _, _⟩ => true
    | _ => false)
    || s.kind.startsStatement
    || (match s.kind with
        | .sign .rightBrace | .keyword .khatam | .eof => true
        | _ => false)

/-- Skips tokens, `n` at most, until reading can go on. -/
def settle : Nat → Stream → Stream
  | 0, s => s
  | n + 1, s => if s.isSettled then s else settle n s.advance

/-- Whether the current token is the one that ends what is being read, and must not be skipped. A
closing brace ends only a block. -/
def isClosing (s : Stream) (insideBlock : Bool) : Bool :=
  match s.kind with
  | .eof | .keyword .khatam => true
  | .sign .rightBrace => insideBlock
  | _ => false

/-- Moves to where reading can go on after an error at the current token. -/
def synchronize (s : Stream) (insideBlock : Bool) : Stream :=
  settle (s.tokens.size - s.cursor) (if s.isClosing insideBlock then s else s.advance)

/-! ## Errors -/

/-- The error that something else was expected at the current token. -/
def expected (s : Stream) (expectation : String) : CompileError :=
  ⟨.expected expectation s.peek.describe, s.position⟩

/-- The error that nothing can start with the current token. -/
def unexpected (s : Stream) : CompileError :=
  ⟨.unexpectedToken s.peek.describe, s.position⟩

/-- Records an error. -/
def record (s : Stream) (error : CompileError) : Stream :=
  { s with errors := s.errors.push error }

end Stream

end Lipi
