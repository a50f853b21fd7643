import Lipi.Proofs.LineIndex
import Lipi.Proofs.Token.Shows

set_option autoImplicit false

/-! # What stands between two tokens

A statement may end without a semicolon where a line ends, and a stream tells this from the lines of
two tokens: the one on which the first of them starts, moved on by the newlines of its lexeme, and
the one on which the second starts. **This test sees the newlines of the text between the two lexemes,
and no others** (`atLineBreak_iff_newline`). What stands there are blanks and comments, and a newline
of a comment counts; a newline inside a string stands in the lexeme.

The place of a token is its position, which the index of the text gives to one place only
(`LineIndex.front_unique`). So there is one text between two tokens, and it does not matter that the
same lexemes may stand elsewhere as well.
-/

namespace Lipi

/-- The text has `between` from the end of the lexeme of `t` to the start of `t'`, both at the place
that their positions say. -/
def Token.Apart (text : String) (t t' : Token) (between : List Char) : Prop :=
  ∃ before behind,
    text.toList = before ++ (t.lexeme.toList ++ (between ++ (t'.lexeme.toList ++ behind))) ∧
      t.position = (LineIndex.ofText text).position (byteLength before) ∧
      t'.position = (LineIndex.ofText text).position
        (byteLength (before ++ (t.lexeme.toList ++ between)))

/-! ## Places -/

namespace LineIndex

/-- **There is one front of a text that ends at a position.** -/
theorem front_unique {text : String} {before before' behind behind' : List Char}
    (htext : text.toList = before ++ behind) (htext' : text.toList = before' ++ behind')
    (hposition : (ofText text).position (byteLength before) =
      (ofText text).position (byteLength before')) : before = before' := by
  have hboundary : IsBoundary text.toList (byteLength before) := ⟨before, behind, htext, rfl⟩
  have hboundary' : IsBoundary text.toList (byteLength before') := ⟨before', behind', htext', rfl⟩
  have hbytes : byteLength before = byteLength before' := by
    rcases lt_trichotomy (byteLength before) (byteLength before') with hlt | heq | hlt
    · exact absurd hposition (position_lt hboundary hboundary' hlt).ne
    · exact heq
    · exact absurd hposition (position_lt hboundary' hboundary hlt).ne'
  calc before = charsWithin (byteLength before) text.toList := by rw [htext, charsWithin_append]
    _ = charsWithin (byteLength before') text.toList := by rw [hbytes]
    _ = before' := by rw [htext', charsWithin_append]

end LineIndex

namespace Token.Apart

variable {text : String} {t t' : Token} {between between' : List Char}

/-- There is one text between two tokens. -/
theorem unique (h : Apart text t t' between) (h' : Apart text t t' between') :
    between = between' := by
  obtain ⟨before, behind, htext, hposition, hnext⟩ := h
  obtain ⟨before', behind', htext', hposition', hnext'⟩ := h'
  obtain rfl := LineIndex.front_unique htext htext' (hposition.symm.trans hposition')
  rw [← List.append_assoc t.lexeme.toList, ← List.append_assoc before] at htext htext'
  have hfront := LineIndex.front_unique htext htext' (hnext.symm.trans hnext')
  exact List.append_cancel_left (List.append_cancel_left hfront)

/-- The second token starts as many lines below the end of the first one as there are newlines
between them. -/
theorem line (h : Apart text t t' between) :
    t'.position.line = t.endLine + between.count '\n' := by
  obtain ⟨before, behind, htext, hposition, hnext⟩ := h
  have hstart : t.position = Position.start.after before := by
    rw [hposition, LineIndex.position_eq_after htext]
  rw [← List.append_assoc t.lexeme.toList, ← List.append_assoc before] at htext
  unfold Token.endLine
  rw [hnext, LineIndex.position_eq_after htext, Position.after_append, Position.after_append,
    Position.after_line, Position.after_line, hstart]

end Token.Apart

/-! ## The test -/

/-- At a token that is not the first one, lines are compared. -/
theorem Stream.atLineBreak_succ {tokens : List Token} {i : Nat} {t t' : Token}
    (ht : tokens[i]? = some t) (ht' : tokens[i + 1]? = some t') (errors : Array CompileError) :
    (⟨tokens.toArray, i + 1, errors⟩ : Stream).atLineBreak =
      decide (t.endLine < t'.position.line) := by
  have hprevious : tokens.toArray[i]? = some t := by rwa [List.getElem?_toArray]
  have hcurrent : tokens.toArray[i + 1]? = some t' := by rwa [List.getElem?_toArray]
  unfold Stream.atLineBreak Stream.previous? Stream.position Stream.peek
  dsimp only
  rw [hprevious, hcurrent]
  rfl

/-! ## The gaps of a text -/

namespace Lexer.Split

variable {p : Position} {cs : List Char} {tokens : List Token}

/-- In front of the first token there is a gap. -/
theorem first (h : Split p cs tokens) {t : Token} (ht : tokens[0]? = some t) :
    ∃ skipped behind, cs = skipped ++ (t.lexeme.toList ++ behind) ∧
      Gap (t.lexeme.toList ++ behind) skipped ∧ t.position = p.after skipped := by
  cases h with
  | done hgap =>
      cases ht
      exact ⟨_, [], (List.append_nil _).symm, hgap, rfl⟩
  | @token _ skipped w rest _ _ _ hgap hlexeme hkind hrest =>
      cases ht
      have hw : (String.ofList w).toList = w := String.toList_ofList
      exact ⟨skipped, rest, by rw [hw], by rwa [hw], rfl⟩

/-- Between two tokens in turn there is a gap. -/
theorem between (h : Split p cs tokens) {i : Nat} {t t' : Token} (ht : tokens[i]? = some t)
    (ht' : tokens[i + 1]? = some t') :
    ∃ before skipped behind,
      cs = before ++ (t.lexeme.toList ++ (skipped ++ (t'.lexeme.toList ++ behind))) ∧
        Gap (t'.lexeme.toList ++ behind) skipped ∧ t.position = p.after before ∧
        t'.position = p.after (before ++ (t.lexeme.toList ++ skipped)) := by
  induction h generalizing i with
  | done hgap => cases ht'
  | @token p front w rest _ _ tokens _ _ _ hrest ih =>
      have hw : (String.ofList w).toList = w := String.toList_ofList
      cases i with
      | zero =>
          cases ht
          obtain ⟨skipped, behind, rfl, hgap, hposition⟩ := hrest.first ht'
          refine ⟨front, skipped, behind, by rw [hw], hgap, rfl, ?_⟩
          rw [hposition, hw, ← Position.after_append, List.append_assoc]
      | succ i =>
          obtain ⟨before, skipped, behind, rfl, hgap, hposition, hnext⟩ := ih ht ht'
          refine ⟨front ++ (w ++ before), skipped, behind, ?_, hgap, ?_, ?_⟩
          · simp only [List.append_assoc]
          · rw [hposition, ← Position.after_append, List.append_assoc]
          · rw [hnext, ← Position.after_append]
            simp only [List.append_assoc]

end Lexer.Split

/-- Two tokens in turn are apart by a gap of the text. -/
theorem Token.apart_of_tokenize {text : String} {tokens : List Token}
    (h : tokenize text = .ok tokens) {i : Nat} {t t' : Token} (ht : tokens[i]? = some t)
    (ht' : tokens[i + 1]? = some t') :
    ∃ between, Token.Apart text t t' between ∧
      ∃ front rest, text.toList = front ++ (between ++ rest) ∧ Lexer.Gap rest between := by
  obtain ⟨before, gap, behind, htext, hgap, hposition, hnext⟩ :=
    (Lexer.split_of_scan h).between ht ht'
  have hnextText : text.toList =
      before ++ (t.lexeme.toList ++ gap) ++ (t'.lexeme.toList ++ behind) := by
    rw [htext, List.append_assoc, List.append_assoc]
  refine ⟨gap, ⟨before, behind, htext, ?_, ?_⟩, before ++ t.lexeme.toList, _, ?_, hgap⟩
  · rw [hposition, LineIndex.position_eq_after htext]
  · rw [hnext, LineIndex.position_eq_after hnextText]
  · rw [htext, List.append_assoc]

/-- **A stream at a token stands at a line break exactly if the text between the token in front of it
and this one has a newline**, for every text that has tokens and every two tokens in turn, the end of
the text among them. Between them are blanks and comments only. -/
theorem atLineBreak_iff_newline {text : String} {tokens : List Token}
    (h : tokenize text = .ok tokens) {i : Nat} {t t' : Token} (ht : tokens[i]? = some t)
    (ht' : tokens[i + 1]? = some t') :
    ∃ between, Token.Apart text t t' between ∧
      (∀ other, Token.Apart text t t' other → other = between) ∧
      (∃ front rest, text.toList = front ++ (between ++ rest) ∧ Lexer.Gap rest between) ∧
      ∀ errors, (⟨tokens.toArray, i + 1, errors⟩ : Stream).atLineBreak = true ↔
        '\n' ∈ between := by
  obtain ⟨between, hapart, hgap⟩ := Token.apart_of_tokenize h ht ht'
  refine ⟨between, hapart, fun other hother => hother.unique hapart, hgap, fun errors => ?_⟩
  rw [Stream.atLineBreak_succ ht ht', decide_eq_true_iff, hapart.line, ← List.count_pos_iff]
  omega

/-- A newline inside a string is none between the tokens, and one inside a comment is. -/
theorem atLineBreak_iff_newline_two_lines :
    let text := "\"a\nb\" x /*\n*/ y"
    ∃ tokens s x y, tokenize text = .ok tokens ∧
      tokens[0]? = some s ∧ tokens[1]? = some x ∧ tokens[2]? = some y ∧
      (∃ between, Token.Apart text s x between ∧ '\n' ∉ between) ∧
      ∃ between, Token.Apart text x y between ∧ '\n' ∈ between := by
  intro text
  have hscan : ((tokenize text).toOption.map fun tokens =>
      (tokens.length, (⟨tokens.toArray, 1, #[]⟩ : Stream).atLineBreak,
        (⟨tokens.toArray, 2, #[]⟩ : Stream).atLineBreak)) = some (4, false, true) := by
    decide +kernel
  cases htext : tokenize text with
  | error e =>
      rw [htext] at hscan
      cases hscan
  | ok tokens =>
      rw [htext] at hscan
      obtain ⟨hlength, hx, hy⟩ : tokens.length = 4 ∧
          (⟨tokens.toArray, 1, #[]⟩ : Stream).atLineBreak = false ∧
          (⟨tokens.toArray, 2, #[]⟩ : Stream).atLineBreak = true := by
        simpa [Except.toOption] using hscan
      match tokens, hlength with
      | [s, x, y, last], _ =>
        obtain ⟨inside, hapart, -, -, hnewline⟩ :=
          @atLineBreak_iff_newline _ _ htext 0 s x rfl rfl
        obtain ⟨comment, hapart', -, -, hnewline'⟩ :=
          @atLineBreak_iff_newline _ _ htext 1 x y rfl rfl
        refine ⟨_, s, x, y, rfl, rfl, rfl, rfl, ⟨inside, hapart, fun hmem => ?_⟩, comment,
          hapart', (hnewline' #[]).mp hy⟩
        exact Bool.false_ne_true (hx.symm.trans ((hnewline #[]).mpr hmem))

end Lipi
