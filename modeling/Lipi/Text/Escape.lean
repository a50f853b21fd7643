set_option autoImplicit false

/-! # Escapes in string literals

Six characters are written with a backslash and a letter inside a string literal. `quote` writes a
literal; `unescape` reads its body. **A backslash in front of any other character stands for
itself**, and so does that character.
-/

namespace Lipi.Text

/-- The letter that stands for a character behind a backslash. -/
def escapeLetter? : Char → Option Char
  | '\n' => some 'n'
  | '\t' => some 't'
  | '\r' => some 'r'
  | '\x00' => some '0'
  | '"' => some '"'
  | '\\' => some '\\'
  | _ => none

/-- The character that a letter stands for behind a backslash. -/
def unescapeLetter? : Char → Option Char
  | 'n' => some '\n'
  | 't' => some '\t'
  | 'r' => some '\r'
  | '0' => some '\x00'
  | '"' => some '"'
  | '\\' => some '\\'
  | _ => none

theorem unescapeLetter?_escapeLetter? {c l : Char} (h : escapeLetter? c = some l) :
    unescapeLetter? l = some c := by
  unfold escapeLetter? at h
  split at h <;> cases h <;> rfl

/-- A character as it stands in a literal. -/
def escapeChar (c : Char) : List Char :=
  match escapeLetter? c with
  | some l => ['\\', l]
  | none => [c]

/-- The body of the literal for a text. -/
def escape (cs : List Char) : List Char :=
  cs.flatMap escapeChar

/-- The literal for a text, quotes included. -/
def quote (text : String) : String :=
  String.ofList ('"' :: (escape text.toList ++ ['"']))

/-- The text that the body of a literal denotes. -/
def unescape : List Char → List Char
  | [] => []
  | '\\' :: l :: cs =>
    match unescapeLetter? l with
    | some c => c :: unescape cs
    | none => '\\' :: l :: unescape cs
  | c :: cs => c :: unescape cs

theorem unescape_cons {c : Char} (h : c ≠ '\\') (cs : List Char) :
    unescape (c :: cs) = c :: unescape cs := by
  rw [unescape.eq_def]
  split <;> simp_all

theorem unescape_escapeChar_append (c : Char) (cs : List Char) :
    unescape (escapeChar c ++ cs) = c :: unescape cs := by
  unfold escapeChar
  split
  · next l h => simp [unescape, unescapeLetter?_escapeLetter? h]
  · next h =>
    refine unescape_cons ?_ cs
    rintro rfl
    simp [escapeLetter?] at h

/-- Reading the body of a literal gives back the text for which it was written. -/
theorem unescape_escape (cs : List Char) : unescape (escape cs) = cs := by
  induction cs with
  | nil => rfl
  | cons c cs ih =>
    rw [escape, List.flatMap_cons, unescape_escapeChar_append]
    exact congrArg (c :: ·) ih

end Lipi.Text
