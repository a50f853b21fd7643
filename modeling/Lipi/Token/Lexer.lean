import Lipi.CompileError
import Lipi.Token

set_option autoImplicit false

/-! # From text to tokens

A source text is a sequence of pieces: *gaps* (blanks and comments) and tokens. `piece` looks at the
front of a text that is not empty and says **what stands there and how many characters belong to
it**, always as many as possible; `scan` cuts the text piece by piece and keeps the tokens.
-/

namespace Lipi.Lexer

/-! ## Classes of characters -/

/-- The characters that separate tokens. -/
def isBlank (c : Char) : Bool :=
  c == ' ' || c == '\t' || c == '\r' || c == '\n' || c == '\x0c'

/-- The characters that begin a word: letters of ASCII and the underscore. -/
def isWordStart (c : Char) : Bool :=
  c.isAlpha || c == '_'

/-- The characters that a word consists of. -/
def isWordPart (c : Char) : Bool :=
  isWordStart c || c.isDigit

/-! ## Lengths of pieces -/

/-- How many characters of `cs`, which stands behind an opening quote, belong to the literal,
closing quote included, counted on from `n`; nothing if it is not closed. The character behind a
backslash never closes it. -/
def stringLength? (n : Nat) : List Char → Option Nat
  | [] => none
  | '"' :: _ => some (n + 1)
  | '\\' :: _ :: rest => stringLength? (n + 2) rest
  | _ :: rest => stringLength? (n + 1) rest

/-- How many characters of `cs`, which stands behind the opening of a block comment, belong to it,
its closing included, counted on from `n`; nothing if it is not closed. -/
def commentLength? (n : Nat) : List Char → Option Nat
  | [] => none
  | '*' :: '/' :: _ => some (n + 2)
  | _ :: rest => commentLength? (n + 1) rest

/-- How many characters of `cs`, which stands behind the first digit of a numeral, belong to it. A
point belongs to it only if a digit follows. -/
def numberLength (cs : List Char) : Nat :=
  let whole := (cs.takeWhile Char.isDigit).length
  match cs.drop whole with
  | '.' :: rest =>
    let fraction := (rest.takeWhile Char.isDigit).length
    if fraction = 0 then whole else whole + 1 + fraction
  | _ => whole

/-! ## Pieces -/

/-- What a piece of a text is. -/
inductive Piece where
  /-- Blanks or a comment. -/
  | gap
  | token (kind : TokenKind)
deriving Repr, Inhabited

/-- The kind of a word. -/
def wordKind (word : String) : TokenKind :=
  match Keyword.ofWord? word with
  | some k => .keyword k
  | none => .identifier word

/-- The kind of a numeral; a number that is too large is none. -/
def numberKind (lexeme : String) : Except CompileError.Cause TokenKind :=
  match (Number.read? lexeme).filter Number.isFinite with
  | some value => .ok (.number value)
  | none => .error (.invalidNumber lexeme)

/-- The sign at the front of `c :: cs`, and how many characters of `cs` belong to it. -/
def sign (c : Char) (cs : List Char) : Except CompileError.Cause (Piece × Nat) :=
  match cs.head?.bind (Sign.ofPair? c) with
  | some s => .ok (.token (.sign s), 1)
  | none =>
    match Sign.ofChar? c with
    | some s => .ok (.token (.sign s), 0)
    | none => .error (.unexpectedCharacter c)

/-- The piece at the front of `c :: cs`, and how many characters of `cs` belong to it. -/
def piece (c : Char) (cs : List Char) : Except CompileError.Cause (Piece × Nat) :=
  if isBlank c then
    .ok (.gap, (cs.takeWhile isBlank).length)
  else if isWordStart c then
    let n := (cs.takeWhile isWordPart).length
    .ok (.token (wordKind (String.ofList (c :: cs.take n))), n)
  else if c.isDigit then
    let n := numberLength cs
    (numberKind (String.ofList (c :: cs.take n))).map fun kind => (.token kind, n)
  else if c = '"' then
    match stringLength? 0 cs with
    | some n => .ok (.token (.string (String.ofList (Text.unescape (cs.take (n - 1))))), n)
    | none => .error .unterminatedString
  else
    match c, cs with
    | '/', '/' :: rest => .ok (.gap, 1 + (rest.takeWhile (· ≠ '\n')).length)
    | '/', '*' :: rest =>
      match commentLength? 0 rest with
      | some n => .ok (.gap, 1 + n)
      | none => .error .unterminatedComment
    | _, _ => sign c cs

/-! ## The whole text -/

/-- The tokens of `cs`, which starts at `p`. -/
def scan (p : Position) : List Char → Except CompileError (List Token)
  | [] => .ok [⟨.eof, "", p⟩]
  | c :: cs =>
    match piece c cs with
    | .error cause => .error ⟨cause, p⟩
    | .ok (.gap, n) => scan (p.after (c :: cs.take n)) (cs.drop n)
    | .ok (.token kind, n) =>
      let lexeme := c :: cs.take n
      match scan (p.after lexeme) (cs.drop n) with
      | .error e => .error e
      | .ok tokens => .ok (⟨kind, String.ofList lexeme, p⟩ :: tokens)
termination_by cs => cs.length
decreasing_by all_goals simp only [List.length_drop, List.length_cons]; omega

end Lipi.Lexer

namespace Lipi

/-- The tokens of a text; the last one, and no other, is the end of the text. -/
def tokenize (text : String) : Except CompileError (List Token) :=
  Lexer.scan Position.start text.toList

end Lipi
