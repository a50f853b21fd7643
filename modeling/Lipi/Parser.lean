import Lipi.Token.Stream

set_option autoImplicit false

/-! # Reading from a stream

A `Parser` reads from a stream of tokens and gives a result or fails with an error; **what it has
read and recorded stays read and recorded when it fails**. This module holds the steps that all
readers share.
-/

namespace Lipi

/-- A reader of a stream of tokens. -/
abbrev Parser (α : Type) := EStateM CompileError Stream α

namespace Parser

/-- Takes the current token. -/
def advance : Parser Token :=
  fun s => .ok s.peek s.advance

/-- Fails because something else was expected at the current token. -/
def failExpected {α : Type} (expectation : String) : Parser α :=
  fun s => .error (s.expected expectation) s

/-- Fails because nothing starts with the current token. -/
def failUnexpected {α : Type} : Parser α :=
  fun s => .error s.unexpected s

/-- Fails because the bound on the reading is used up. -/
def failExhausted {α : Type} : Parser α :=
  fun s => .error ⟨.exhausted, s.position⟩ s

/-- Takes the current token if it is of a kind, and says whether it is. -/
def accept (kind : TokenKind) : Parser Bool :=
  fun s => if s.check kind then .ok true s.advance else .ok false s

/-- Takes the current token, which has to be of a kind. -/
def consume (kind : TokenKind) (expectation : String) : Parser Token :=
  fun s => if s.check kind then .ok s.peek s.advance else .error (s.expected expectation) s

/-- Takes a semicolon, if there is one; without one a boundary has to follow. -/
def boundary (what : String) : Parser Unit :=
  fun s =>
    if s.check (.sign .semicolon) then .ok () s.advance
    else if s.atBoundary then .ok () s
    else .error (s.expected ("Expected ';' after " ++ what)) s

/-- Takes an identifier. -/
def identifier (expectation : String) : Parser String :=
  fun s =>
    match s.kind with
    | .identifier name => .ok name s.advance
    | _ => .error (s.expected expectation) s

/-- Takes the name of a member: a word, as it is written. -/
def memberName (expectation : String) : Parser String :=
  fun s =>
    if s.peek.isWord then .ok s.peek.lexeme s.advance
    else .error (s.expected expectation) s

/-- Runs a reader with the bound that its stream gives. -/
def bounded {α : Type} (reader : Nat → Parser α) : Parser α :=
  fun s => reader s.bound s

/-- Runs a reader and turns its failure into a result. -/
def attempt {α : Type} (reader : Parser α) : Parser (Except CompileError α) :=
  fun s =>
    match reader s with
    | .ok a s => .ok (.ok a) s
    | .error e s => .ok (.error e) s

/-- At least one item, with commas between the items, up to the closing sign; `n` items at most.
The items read so far come in reverse order. -/
def items {α : Type} (item : Parser α) (closing : Sign) (context : String) :
    Nat → List α → Parser (List α)
  | 0, _ => failExhausted
  | n + 1, previous => do
    let x ← item
    if ← accept (.sign .comma) then
      items item closing context n (x :: previous)
    else
      let _ ← consume (.sign closing)
        ("Expected ',' or " ++ (TokenKind.sign closing).text ++ " after " ++ context)
      return (x :: previous).reverse

/-- Items with commas between them, up to the closing sign. There may be none. -/
def commaSeparated {α : Type} (item : Parser α) (closing : Sign) (context : String) :
    Parser (List α) := do
  if ← accept (.sign closing) then
    return []
  else
    bounded fun n => items item closing context n []

end Parser

end Lipi
