import Lipi.Text.Escape
import Lipi.Text.Invisible

set_option autoImplicit false

/-! # Showing a text unambiguously

`inspect` writes a text like a string literal in which, besides the six escaped characters, **every
invisible character is given by its code point** in hexadecimal, between braces. Messages use it,
so that a stray control character or combining mark can be seen.
-/

namespace Lipi.Text

/-- The code point of a character between braces. -/
def codePoint (c : Char) : List Char :=
  ['\\', 'u', '\x7b'] ++ Nat.toDigits 16 c.toNat ++ ['\x7d']

/-- A character as `inspect` shows it. -/
def inspectChar (c : Char) : List Char :=
  match escapeLetter? c with
  | some l => ['\\', l]
  | none => if isInvisible c then codePoint c else [c]

/-- A text in quotes, with nothing invisible left in it. -/
def inspect (text : String) : String :=
  String.ofList ('"' :: (text.toList.flatMap inspectChar ++ ['"']))

end Lipi.Text
