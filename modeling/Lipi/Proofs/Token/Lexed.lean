import Lipi.Proofs.Parser.Steady
import Lipi.Proofs.Token.Items
import Mathlib.Data.List.TakeWhile

set_option autoImplicit false

/-! # What the tokens of a text carry

**Every token of a text carries what can be printed**: a number that is finite and not negative, an
identifier that is a word and no keyword, a keyword as one of its spellings (`lexed_scan`). A sign is
not written with letters.
-/

namespace Lipi

/-- What the kind of a token says about its value and its text. -/
def Token.Lexed (t : Token) : Prop :=
  match t.kind with
  | .number x => ∃ bits < Number.infinityBits, x = Number.ofSignedBits false bits
  | .identifier name => IsName name ∧ t.lexeme = name
  | .keyword k => IsWord t.lexeme ∧ Keyword.ofWord? t.lexeme = some k
  | .sign _ => t.lexeme.toList.all Char.isAlpha = false
  | _ => True

theorem take_length_takeWhile (p : Char → Bool) (cs : List Char) :
    cs.take (cs.takeWhile p).length = cs.takeWhile p :=
  (List.prefix_iff_eq_take.mp (List.takeWhile_prefix p)).symm

theorem lexed_word {c : Char} {cs : List Char} (hc : Lexer.isWordStart c = true) (p : Position) :
    (⟨Lexer.wordKind (String.ofList (c :: cs.takeWhile Lexer.isWordPart)),
      String.ofList (c :: cs.takeWhile Lexer.isWordPart), p⟩ : Token).Lexed := by
  have hword : IsWord (String.ofList (c :: cs.takeWhile Lexer.isWordPart)) :=
    ⟨c, _, String.toList_ofList, hc, fun d hd => List.mem_takeWhile_imp hd⟩
  generalize String.ofList (c :: cs.takeWhile Lexer.isWordPart) = word at hword
  cases hkeyword : Keyword.ofWord? word with
  | some k =>
      have hkind : Lexer.wordKind word = .keyword k := by
        unfold Lexer.wordKind
        rw [hkeyword]
      rw [hkind]
      exact ⟨hword, hkeyword⟩
  | none =>
      have hname : IsName word := ⟨hword, hkeyword⟩
      rw [hname.wordKind]
      exact ⟨hname, rfl⟩

theorem lexed_number {c : Char} {cs : List Char} (hc : c.isDigit = true) {kind : TokenKind}
    (h : Lexer.numberKind (String.ofList (c :: cs)) = .ok kind) (p : Position) :
    (⟨kind, String.ofList (c :: cs), p⟩ : Token).Lexed := by
  unfold Lexer.numberKind at h
  split at h
  · next x heq =>
    cases h
    rw [Option.filter_eq_some_iff] at heq
    exact Number.read?_magnitude hc heq.1 heq.2
  · cases h

theorem lexed_sign {c : Char} (hc : Lexer.isWordStart c = false) (cs : List Char) (sign : Sign)
    (p : Position) : (⟨.sign sign, String.ofList (c :: cs), p⟩ : Token).Lexed := by
  have hletter : c.isAlpha = false := (Bool.or_eq_false_iff.mp hc).1
  show (String.ofList (c :: cs)).toList.all Char.isAlpha = false
  rw [String.toList_ofList, List.all_cons, hletter, Bool.false_and]

/-- A piece that is a token carries what can be printed. -/
theorem lexed_piece {c : Char} {cs : List Char} {kind : TokenKind} {n : Nat}
    (h : Lexer.piece c cs = .ok (.token kind, n)) (p : Position) :
    (⟨kind, String.ofList (c :: cs.take n), p⟩ : Token).Lexed := by
  unfold Lexer.piece at h
  split at h
  · cases h
  split at h
  · next hstart =>
    dsimp only at h
    rw [take_length_takeWhile] at h
    cases h
    rw [take_length_takeWhile]
    exact lexed_word hstart p
  rename_i hstart
  split at h
  · next hdigit =>
    dsimp only at h
    cases hkind : Lexer.numberKind (String.ofList (c :: cs.take (Lexer.numberLength cs))) with
    | error e =>
        rw [hkind] at h
        cases h
    | ok kind' =>
        rw [hkind] at h
        cases h
        exact lexed_number hdigit hkind p
  split at h
  · split at h
    · cases h
      trivial
    · cases h
  split at h
  · cases h
  · split at h <;> cases h
  · unfold Lexer.sign at h
    split at h
    · cases h
      exact lexed_sign (Bool.eq_false_iff.mpr hstart) _ _ p
    · split at h
      · cases h
        exact lexed_sign (Bool.eq_false_iff.mpr hstart) _ _ p
      · cases h

/-- **Every token of a text carries what can be printed.** -/
theorem lexed_scan {p : Position} {cs : List Char} {tokens : List Token}
    (h : Lexer.scan p cs = .ok tokens) : ∀ t ∈ tokens, t.Lexed := by
  fun_induction Lexer.scan p cs generalizing tokens with
  | case1 p =>
      cases h
      intro t ht
      rw [List.mem_singleton.mp ht]
      trivial
  | case2 p c cs cause heq => cases h
  | case3 p c cs n heq ih => exact ih h
  | case4 p c cs kind n heq => cases h
  | case5 p c cs kind n heq lexeme tokens' htokens =>
      rename_i ih
      cases h
      intro t ht
      rcases List.mem_cons.mp ht with rfl | ht
      · exact lexed_piece heq p
      · exact ih htokens t ht

/-! ## Streams -/

namespace Stream

/-- All tokens of the stream carry what can be printed. -/
def Lexed (s : Stream) : Prop :=
  ∀ t ∈ s.tokens, t.Lexed

theorem Lexed.peek {s : Stream} (h : s.Lexed) : s.peek.Lexed := by
  unfold Stream.peek
  cases hcurrent : s.tokens[s.cursor]? with
  | some t => exact h t (Array.mem_of_getElem? hcurrent)
  | none =>
      cases hlast : s.tokens.back? with
      | some t => exact h t (Array.mem_of_back? hlast)
      | none => trivial

theorem Lexed.of_tokens {s s' : Stream} (h : s.Lexed) (htokens : s'.tokens = s.tokens) :
    s'.Lexed := by
  intro t ht
  rw [htokens] at ht
  exact h t ht

theorem Lexed.keeps {s s' : Stream} (h : s.Lexed) (hkeeps : s.Keeps s') : s'.Lexed :=
  h.of_tokens hkeeps.tokens

theorem Lexed.number {s : Stream} (h : s.Lexed) {x : Float} (hkind : s.kind = .number x) :
    ∃ bits < Number.infinityBits, x = Number.ofSignedBits false bits := by
  have hpeek := h.peek
  unfold Token.Lexed at hpeek
  rw [show s.peek.kind = .number x from hkind] at hpeek
  exact hpeek

theorem Lexed.identifier {s : Stream} (h : s.Lexed) {name : String}
    (hkind : s.kind = .identifier name) : IsName name ∧ s.peek.lexeme = name := by
  have hpeek := h.peek
  unfold Token.Lexed at hpeek
  rw [show s.peek.kind = .identifier name from hkind] at hpeek
  exact hpeek

theorem Lexed.keyword {s : Stream} (h : s.Lexed) {k : Keyword} (hkind : s.kind = .keyword k) :
    IsWord s.peek.lexeme ∧ Keyword.ofWord? s.peek.lexeme = some k := by
  have hpeek := h.peek
  unfold Token.Lexed at hpeek
  rw [show s.peek.kind = .keyword k from hkind] at hpeek
  exact hpeek

end Stream

/-! ## Names -/

namespace Parser

theorem isName_of_identifier {expectation name : String} {s s' : Stream} (hs : s.Lexed)
    (h : identifier expectation s = .ok name s') : IsName name :=
  (hs.identifier (identifier_ok h).1).1

/-- The name of a member is a word, and spells the keyword that it is read as, if it is one. -/
theorem isWord_of_memberName {expectation name : String} {s s' : Stream} (hs : s.Lexed)
    (h : memberName expectation s = .ok name s') :
    IsWord name ∧ s.kind = Lexer.wordKind name := by
  obtain ⟨hmember, rfl, _⟩ := memberName_ok h
  unfold Token.isWord at hmember
  cases hkind : s.peek.kind with
  | identifier x =>
      obtain ⟨hname, hlexeme⟩ := hs.identifier hkind
      rw [hlexeme, show s.kind = _ from hkind]
      exact ⟨hname.isWord, hname.wordKind.symm⟩
  -- a keyword is taken as it is written, in either spelling
  | keyword k =>
      obtain ⟨hword, hkeyword⟩ := hs.keyword hkind
      refine ⟨hword, ?_⟩
      unfold Lexer.wordKind
      rw [hkeyword, show s.kind = _ from hkind]
  -- no sign is written with letters
  | sign sign =>
      have hsign := hs.peek
      unfold Token.Lexed at hsign
      rw [hkind] at hmember hsign
      exact absurd (hmember.symm.trans hsign) Bool.noConfusion
  | number x => simp only [hkind, Bool.false_eq_true] at hmember
  | string x => simp only [hkind, Bool.false_eq_true] at hmember
  | eof => simp only [hkind, Bool.false_eq_true] at hmember

end Parser

end Lipi
