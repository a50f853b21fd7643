import Lipi.Position

set_option autoImplicit false

/-! # Positions of byte offsets

Tools that speak of byte offsets into the UTF-8 form of a text need lines and columns. A
`LineIndex` records where every line of a text starts; looking up an offset is then **a search
among the line starts and a character count within one line**.
-/

namespace Lipi

/-- How many bytes a text takes in UTF-8. -/
def byteLength (cs : List Char) : Nat :=
  cs.foldl (fun n c => n + c.utf8Size) 0

theorem foldl_utf8Size (n : Nat) (cs : List Char) :
    cs.foldl (fun n c => n + c.utf8Size) n = n + byteLength cs := by
  induction cs generalizing n with
  | nil => rfl
  | cons c cs ih =>
    simp only [byteLength, List.foldl_cons]
    rw [ih, ih (0 + c.utf8Size)]
    omega

@[simp] theorem byteLength_nil : byteLength [] = 0 := rfl

@[simp] theorem byteLength_cons (c : Char) (cs : List Char) :
    byteLength (c :: cs) = c.utf8Size + byteLength cs := by
  rw [byteLength, List.foldl_cons, foldl_utf8Size, Nat.zero_add]

@[simp] theorem byteLength_append (cs ds : List Char) :
    byteLength (cs ++ ds) = byteLength cs + byteLength ds := by
  induction cs with
  | nil => simp
  | cons c cs ih => simp [ih, Nat.add_assoc]

/-- A line: the byte offset at which it starts, and the text from there to the end. -/
structure Line where
  start : Nat
  rest : List Char
deriving Repr, DecidableEq, Inhabited

/-- The lines of a text, first to last, and its length in bytes. -/
structure LineIndex where
  first : Line
  others : List Line
  size : Nat
deriving Repr, DecidableEq, Inhabited

namespace LineIndex

/-- The lines that start behind the newlines of `cs`, which begins at byte `offset`. -/
def linesFrom (offset : Nat) : List Char → List Line
  | [] => []
  | c :: cs =>
    let next := offset + c.utf8Size
    if c = '\n' then ⟨next, cs⟩ :: linesFrom next cs else linesFrom next cs

/-- The index of a text. -/
def ofText (text : String) : LineIndex :=
  let cs := text.toList
  ⟨⟨0, cs⟩, linesFrom 0 cs, byteLength cs⟩

/-- The number of characters in the first `n` bytes of a text, or nothing if these bytes end
inside a character. -/
def charsIn? : List Char → Nat → Option Nat
  | _, 0 => some 0
  | [], _ + 1 => none
  | c :: cs, n + 1 =>
    if c.utf8Size ≤ n + 1 then (charsIn? cs (n + 1 - c.utf8Size)).map (· + 1) else none

/-- The position of the byte at `offset`. An offset beyond the end is the end. Inside a
character, the column counts bytes. -/
def position (index : LineIndex) (offset : Nat) : Position :=
  let offset := min offset index.size
  let passed := index.others.takeWhile (·.start ≤ offset)
  let line := passed.getLast?.getD index.first
  let distance := offset - line.start
  ⟨passed.length + 1, (charsIn? line.rest distance).getD distance + 1⟩

end LineIndex

end Lipi
