import Lipi.Proofs.Number.ReadBack
import Lipi.Token.Lexer

set_option autoImplicit false

/-! # Printed tokens

A canonical text is a list of tokens with blanks in front of each of them. An `Item` is such a token;
what the tree of a program prints is given by a list of items, and **the tokens of the text are the
items again, if every item is told from what follows it**. This module has the items of the language
and what each kind of them may be followed by; `Lipi.Proofs.Token.Shows` has whole texts.
-/

namespace Lipi

/-- A token as it is printed: the blanks in front of it, its kind, and its text. -/
structure Item where
  before : List Char
  kind : TokenKind
  lexeme : String

namespace Item

/-- Whether the token starts a line. -/
def startsLine (i : Item) : Bool :=
  i.before.contains '\n'

def chars (i : Item) : List Char :=
  i.before ++ i.lexeme.toList

/-- The text of a list of items. -/
def text (is : List Item) : List Char :=
  is.flatMap chars

@[simp] theorem text_nil : text [] = [] := rfl

@[simp] theorem text_cons (i : Item) (is : List Item) :
    text (i :: is) = i.before ++ (i.lexeme.toList ++ text is) := by
  rw [text, List.flatMap_cons, chars, List.append_assoc]
  rfl

@[simp] theorem text_append (is js : List Item) : text (is ++ js) = text is ++ text js :=
  List.flatMap_append

/-! ## The items of the language -/

/-- A word: an identifier, or a keyword in either spelling. -/
def word (before : List Char) (name : String) : Item :=
  ⟨before, Lexer.wordKind name, name⟩

def keyword (before : List Char) (k : Keyword) : Item :=
  ⟨before, .keyword k, k.spelling⟩

def sign (before : List Char) (s : Sign) : Item :=
  ⟨before, .sign s, s.spelling⟩

def string (before : List Char) (value : String) : Item :=
  ⟨before, .string value, Text.quote value⟩

def number (before : List Char) (value : Float) : Item :=
  ⟨before, .number value, Number.text value⟩

theorem ofWord?_spelling (k : Keyword) : Keyword.ofWord? k.spelling = some k := by
  cases k <;> decide

theorem keyword_eq_word (before : List Char) (k : Keyword) :
    keyword before k = word before k.spelling := by
  unfold keyword word Lexer.wordKind
  rw [ofWord?_spelling]

end Item

/-! ## Words and numerals -/

/-- A text that is read as one word. -/
def IsWord (w : String) : Prop :=
  ∃ c cs, w.toList = c :: cs ∧ Lexer.isWordStart c = true ∧ ∀ d ∈ cs, Lexer.isWordPart d = true

/-- A word that is no keyword. -/
structure IsName (w : String) : Prop where
  isWord : IsWord w
  notKeyword : Keyword.ofWord? w = none

theorem IsName.wordKind {w : String} (h : IsName w) : Lexer.wordKind w = .identifier w := by
  unfold Lexer.wordKind
  rw [h.notKeyword]

/-- Keywords are written with letters only, in either spelling. -/
theorem Keyword.isAlpha_of_ofWord? {word : String} {k : Keyword} (h : ofWord? word = some k) :
    word.toList.all Char.isAlpha = true := by
  have hfound := List.find?_some h
  rw [Bool.or_eq_true, beq_iff_eq, beq_iff_eq] at hfound
  rcases hfound with rfl | halias
  · cases k <;> decide
  · cases k <;> cases halias <;> decide

/-- A token that is a word of its text can name a member. -/
theorem Token.isWord_of_wordKind {t : Token} (h : t.kind = Lexer.wordKind t.lexeme) :
    t.isWord = true := by
  unfold Token.isWord
  rw [h]
  unfold Lexer.wordKind
  cases hkeyword : Keyword.ofWord? t.lexeme with
  | none => rfl
  | some k => exact Keyword.isAlpha_of_ofWord? hkeyword

theorem isWord_spelling (k : Keyword) : IsWord k.spelling := by
  cases k <;> exact ⟨_, _, rfl, rfl, List.all_eq_true.mp rfl⟩

/-! ## What may follow a token -/

/-- A text that no token in front of it extends into: it is empty or starts with a blank, a bracket,
a comma or a semicolon, or with a point in front of a word. -/
def ends : List Char → Bool
  | [] => true
  | '.' :: c :: _ => Lexer.isWordStart c
  | c :: _ => [' ', '\n', '(', ')', '[', ']', ',', ';'].contains c

/-- A text that no sign in front of it extends into. -/
def calm : List Char → Bool
  | [] => true
  | c :: _ => c != '=' && c != '/' && c != '*'

theorem calm_of_ends {cs : List Char} (h : ends cs = true) : calm cs = true := by
  cases cs with
  | nil => rfl
  | cons c cs =>
      unfold calm
      by_cases hc : c = '=' ∨ c = '/' ∨ c = '*'
      · rcases hc with rfl | rfl | rfl <;> cases cs <;> simp [ends] at h
      · simp only [not_or] at hc
        simp [hc]

/-- A blank, a bracket, a comma or a semicolon ends every token. -/
theorem ends_cons {c : Char} (h : [' ', '\n', '(', ')', '[', ']', ',', ';'].contains c = true)
    (cs : List Char) : ends (c :: cs) = true := by
  unfold ends
  split
  · next heq => cases heq
  · next heq =>
    injection heq with hhead
    subst hhead
    exact absurd h (by decide)
  · next heq =>
    injection heq with hhead
    exact hhead ▸ h

/-- What follows a token starts with neither a digit nor another part of a word. -/
theorem ends_head {c : Char} {cs : List Char} (h : ends (c :: cs) = true) :
    Lexer.isWordPart c = false := by
  have hcases : c = '.' ∨ [' ', '\n', '(', ')', '[', ']', ',', ';'].contains c = true := by
    unfold ends at h
    split at h
    · next heq => cases heq
    · next heq =>
      injection heq with hhead _
      exact Or.inl hhead
    · next heq =>
      injection heq with hhead _
      exact Or.inr (hhead ▸ h)
  rcases hcases with rfl | hmem
  · decide
  · have hall : [' ', '\n', '(', ')', '[', ']', ',', ';'].all (!Lexer.isWordPart ·) = true := rfl
    have hc := List.all_eq_true.mp hall c (List.contains_iff_mem.mp hmem)
    rwa [Bool.not_eq_true'] at hc

theorem isWordPart_of_isDigit {c : Char} (h : c.isDigit = true) : Lexer.isWordPart c = true := by
  unfold Lexer.isWordPart
  rw [h, Bool.or_true]

theorem ends_not_digit {c : Char} {cs : List Char} (h : ends (c :: cs) = true) :
    c.isDigit = false := by
  by_contra hdigit
  have hpart := isWordPart_of_isDigit (Bool.not_eq_false _ ▸ hdigit)
  rw [ends_head h] at hpart
  cases hpart

/-- The part of a text that a class of characters takes, if what follows is not in the class. -/
theorem takeWhile_append_stop {p : Char → Bool} {cs rest : List Char} (hcs : ∀ c ∈ cs, p c = true)
    (hrest : ∀ c ds, rest = c :: ds → p c = false) : (cs ++ rest).takeWhile p = cs := by
  rw [List.takeWhile_append_of_pos hcs]
  cases rest with
  | nil => exact List.append_nil cs
  | cons c ds =>
      rw [List.takeWhile_cons_of_neg (by simp [hrest c ds rfl])]
      exact List.append_nil cs

/-! ## Pieces -/

namespace Item

/-- An item is told from what follows it. -/
structure Lexes (i : Item) (rest : List Char) : Prop where
  blanks : ∀ c ∈ i.before, Lexer.isBlank c = true
  notEnd : i.kind ≠ .eof
  piece : ∃ c cs, i.lexeme.toList = c :: cs ∧ Lexer.isBlank c = false ∧
    Lexer.piece c (cs ++ rest) = .ok (.token i.kind, cs.length)

theorem isBlank_wordPart {c : Char} (h : Lexer.isWordPart c = true) : Lexer.isBlank c = false := by
  by_contra hblank
  rw [Bool.not_eq_false] at hblank
  unfold Lexer.isBlank at hblank
  simp only [Bool.or_eq_true, beq_iff_eq] at hblank
  rcases hblank with (((rfl | rfl) | rfl) | rfl) | rfl <;> exact absurd h (by decide)

theorem isWordPart_of_isWordStart {c : Char} (h : Lexer.isWordStart c = true) :
    Lexer.isWordPart c = true := by
  unfold Lexer.isWordPart
  rw [h, Bool.true_or]

theorem lexes_word {before : List Char} (hbefore : ∀ c ∈ before, Lexer.isBlank c = true)
    {name : String} (hname : IsWord name) {rest : List Char} (hrest : ends rest = true) :
    (word before name).Lexes rest := by
  obtain ⟨c, cs, hcons, hstart, hparts⟩ := hname
  have hpart := isWordPart_of_isWordStart hstart
  -- the word is taken whole, since what follows ends it
  have htake : (cs ++ rest).takeWhile Lexer.isWordPart = cs := by
    refine takeWhile_append_stop hparts fun d ds hd => ?_
    rw [hd] at hrest
    exact ends_head hrest
  refine ⟨hbefore, ?_, c, cs, hcons, isBlank_wordPart hpart, ?_⟩
  · show Lexer.wordKind name ≠ .eof
    unfold Lexer.wordKind
    split <;> exact TokenKind.noConfusion
  · unfold Lexer.piece
    rw [isBlank_wordPart hpart, if_neg Bool.false_ne_true, if_pos hstart]
    dsimp only
    rw [htake, List.take_left', ← hcons, String.ofList_toList]
    · rfl
    · rfl

theorem lexes_keyword {before : List Char} (hbefore : ∀ c ∈ before, Lexer.isBlank c = true)
    (k : Keyword) {rest : List Char} (hrest : ends rest = true) :
    (keyword before k).Lexes rest := by
  rw [keyword_eq_word]
  exact lexes_word hbefore (isWord_spelling k) hrest

/-! ### Signs -/

theorem sign_of_calm {rest : List Char} (hrest : calm rest = true) (c : Char) :
    rest.head?.bind (Sign.ofPair? c) = none := by
  cases rest with
  | nil => rfl
  | cons d ds =>
      have hd : d ≠ '=' := by
        rintro rfl
        cases hrest
      show Sign.ofPair? c d = none
      unfold Sign.ofPair?
      rw [if_neg hd]

theorem lexes_sign {before : List Char} (hbefore : ∀ c ∈ before, Lexer.isBlank c = true)
    (s : Sign) {rest : List Char} (hrest : calm rest = true) :
    (sign before s).Lexes rest := by
  have hpair := sign_of_calm hrest
  have hcomment : ∀ d ds, rest = d :: ds → d ≠ '/' ∧ d ≠ '*' := by
    rintro d ds rfl
    constructor
    · rintro rfl
      cases hrest
    · rintro rfl
      cases hrest
  -- no sign of two characters starts here, so the single character decides
  have hone : ∀ c s, Sign.ofChar? c = some s →
      Lexer.sign c rest = .ok (.token (.sign s), 0) := by
    intro c s hs
    unfold Lexer.sign
    simp only [hpair c, hs]
  refine ⟨hbefore, TokenKind.noConfusion, ?_⟩
  show ∃ c cs, s.spelling.toList = c :: cs ∧ Lexer.isBlank c = false ∧
    Lexer.piece c (cs ++ rest) = .ok (.token (.sign s), cs.length)
  cases s with
  | equalEqual | bangEqual | lessEqual | greaterEqual => exact ⟨_, ['='], rfl, rfl, rfl⟩
  | slash =>
      refine ⟨'/', [], by decide, by decide, ?_⟩
      -- a slash could also start a comment
      have hpiece : Lexer.piece '/' rest = Lexer.sign '/' rest := by
        cases rest with
        | nil => rfl
        | cons d ds =>
            obtain ⟨hslash, hstar⟩ := hcomment d ds rfl
            unfold Lexer.piece
            simp [Lexer.isBlank, Lexer.isWordStart, hslash, hstar]
      exact hpiece.trans (hone '/' _ rfl)
  | _ => exact ⟨_, [], rfl, rfl, hone _ _ rfl⟩

/-! ### Literals -/

theorem stringLength?_escape (cs rest : List Char) (n : Nat) :
    Lexer.stringLength? n (Text.escape cs ++ '"' :: rest) = some (n + (Text.escape cs).length + 1) := by
  induction cs generalizing n with
  | nil => rfl
  | cons c cs ih =>
      have hsplit : Text.escape (c :: cs) = Text.escapeChar c ++ Text.escape cs :=
        List.flatMap_cons
      rw [hsplit]
      unfold Text.escapeChar
      cases hletter : Text.escapeLetter? c with
      -- a character with an escape is two characters, which are passed over together
      | some l =>
          show Lexer.stringLength? (n + 2) (Text.escape cs ++ '"' :: rest) = _
          rw [ih]
          simp only [List.length_append, List.length_cons, List.length_nil]
          congr 1
          omega
      -- every other character is itself, and neither ends the string nor starts an escape
      | none =>
          have hquote : c ≠ '"' := by
            rintro rfl
            cases hletter
          have hslash : c ≠ '\\' := by
            rintro rfl
            cases hletter
          have hstep : Lexer.stringLength? n ([c] ++ Text.escape cs ++ '"' :: rest)
              = Lexer.stringLength? (n + 1) (Text.escape cs ++ '"' :: rest) := by
            rw [List.append_assoc, List.singleton_append, Lexer.stringLength?.eq_def]
            split
            · next heq => cases heq
            · next heq =>
              injection heq with hhead
              exact absurd hhead hquote
            · next heq =>
              injection heq with hhead
              exact absurd hhead hslash
            · next heq =>
              injection heq with _ htail
              rw [htail]
          rw [hstep, ih]
          simp only [List.length_append, List.length_cons, List.length_nil]
          congr 1
          omega

/-- A string reaches to its closing quote. -/
theorem piece_string {cs : List Char} {n : Nat} (h : Lexer.stringLength? 0 cs = some n) :
    Lexer.piece '"' cs
      = .ok (.token (.string (String.ofList (Text.unescape (cs.take (n - 1))))), n) := by
  have hother : Lexer.isBlank '"' = false ∧ Lexer.isWordStart '"' = false ∧
      '"'.isDigit = false := by decide
  unfold Lexer.piece
  simp [hother, h]

theorem lexes_string {before : List Char} (hbefore : ∀ c ∈ before, Lexer.isBlank c = true)
    (value : String) (rest : List Char) : (string before value).Lexes rest := by
  have hlexeme : (string before value).lexeme.toList
      = '"' :: (Text.escape value.toList ++ ['"']) := String.toList_ofList
  refine ⟨hbefore, TokenKind.noConfusion, '"', Text.escape value.toList ++ ['"'], hlexeme, by decide,
    ?_⟩
  -- escaped characters hold no closing quote, and unescaping gives the value back
  have hlength := stringLength?_escape value.toList rest 0
  have hassoc : Text.escape value.toList ++ ['"'] ++ rest
      = Text.escape value.toList ++ '"' :: rest := by simp
  rw [hassoc, piece_string hlength, Nat.zero_add, Nat.add_sub_cancel, List.take_left,
    Text.unescape_escape, String.ofList_toList, List.length_append]
  rfl

theorem not_isWordStart_of_isDigit {c : Char} (h : c.isDigit = true) :
    Lexer.isWordStart c = false := by
  simp only [Char.isDigit, Bool.and_eq_true, decide_eq_true_eq, ge_iff_le,
    UInt32.le_iff_toNat_le] at h
  have hvalues : '9'.val.toNat = 57 ∧ 'A'.val.toNat = 65 ∧ 'a'.val.toNat = 97 ∧
      '_'.val.toNat = 95 := by decide
  have hunderscore : c ≠ '_' := by
    rintro rfl
    omega
  unfold Lexer.isWordStart Char.isAlpha Char.isUpper Char.isLower
  simp only [Bool.or_eq_false_iff, Bool.and_eq_false_iff, decide_eq_false_iff_not, ge_iff_le,
    UInt32.le_iff_toNat_le, beq_eq_false_iff_ne]
  exact ⟨⟨fun hupper => by omega, Or.inl (by omega)⟩, hunderscore⟩

/-- A numeral ends where no digit follows, and no point in front of a digit. -/
theorem numberLength_numeral {c : Char} {cs whole fraction rest : List Char}
    (hcons : Number.numeral whole fraction = c :: cs) (hwhole : Number.Digits whole)
    (hfraction : ∀ d ∈ fraction, d.isDigit = true) (hrest : ends rest = true) :
    Lexer.numberLength (cs ++ rest) = cs.length := by
  have hstop : ∀ d ds, rest = d :: ds → d.isDigit = false := by
    intro d ds hd
    rw [hd] at hrest
    exact ends_not_digit hrest
  obtain ⟨d, ds, rfl⟩ := List.exists_cons_of_ne_nil hwhole.nonempty
  have hds : ∀ e ∈ ds, e.isDigit = true := fun e he => hwhole.digit e (List.mem_cons_of_mem _ he)
  cases fraction with
  | nil =>
      rw [Number.numeral_nil] at hcons
      injection hcons with _ htail
      subst htail
      unfold Lexer.numberLength
      dsimp only
      rw [takeWhile_append_stop hds hstop, List.drop_left]
      split
      · next rest' =>
        -- a point behind the digits starts a member
        have hnone : (rest'.takeWhile Char.isDigit).length = 0 := by
          cases rest' with
          | nil => rfl
          | cons e es =>
              have hword : Lexer.isWordStart e = true := hrest
              have hdigit : e.isDigit = false := by
                by_contra h
                rw [not_isWordStart_of_isDigit (Bool.not_eq_false _ ▸ h)] at hword
                cases hword
              rw [List.takeWhile_cons_of_neg (by simp [hdigit])]
              rfl
        rw [if_pos hnone]
      · rfl
  | cons e es =>
      rw [Number.numeral_cons, List.cons_append] at hcons
      injection hcons with _ htail
      subst htail
      have hpoint : ∀ d' ds', '.' :: e :: es ++ rest = d' :: ds' → d'.isDigit = false := by
        intro d' ds' heq
        injection heq with hhead
        rw [← hhead]
        rfl
      unfold Lexer.numberLength
      dsimp only
      rw [List.append_assoc, takeWhile_append_stop hds hpoint, List.drop_left]
      show (if (List.takeWhile Char.isDigit (e :: es ++ rest)).length = 0 then ds.length
        else ds.length + 1 + (List.takeWhile Char.isDigit (e :: es ++ rest)).length) = _
      rw [takeWhile_append_stop hfraction hstop, if_neg (by simp), List.length_append]
      simp only [List.length_cons]
      omega

theorem lexes_number {before : List Char} (hbefore : ∀ c ∈ before, Lexer.isBlank c = true)
    {bits : Nat} (hbits : bits < Number.infinityBits) {rest : List Char} (hrest : ends rest = true) :
    (number before (Number.ofSignedBits false bits)).Lexes rest := by
  obtain ⟨whole, fraction, htext, hwhole, hfraction, hread⟩ := Number.read?_text hbits
  have hlexeme : (number before (Number.ofSignedBits false bits)).lexeme.toList
      = Number.numeral whole fraction := htext
  obtain ⟨c, cs, hcons, hc⟩ : ∃ c cs, Number.numeral whole fraction = c :: cs ∧ c.isDigit = true := by
    obtain ⟨d, ds, rfl⟩ := List.exists_cons_of_ne_nil hwhole.nonempty
    have hd := hwhole.digit d List.mem_cons_self
    unfold Number.numeral
    split
    · exact ⟨d, ds, rfl, hd⟩
    · exact ⟨d, _, rfl, hd⟩
  have hblank := isBlank_wordPart (isWordPart_of_isDigit hc)
  have hlength := numberLength_numeral hcons hwhole hfraction hrest
  refine ⟨hbefore, TokenKind.noConfusion, c, cs, hlexeme.trans hcons, hblank, ?_⟩
  -- the digits are taken whole, and reading them gives the number back
  unfold Lexer.piece
  rw [hblank, if_neg Bool.false_ne_true, not_isWordStart_of_isDigit hc,
    if_neg Bool.false_ne_true, if_pos hc]
  dsimp only
  rw [hlength, List.take_left, ← hcons, ← htext, String.ofList_toList]
  unfold Lexer.numberKind
  rw [hread, Option.filter_some, if_pos (Number.isFinite_ofSignedBits hbits)]
  rfl

end Item

end Lipi
