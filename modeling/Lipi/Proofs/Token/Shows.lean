import Lipi.Proofs.Token.Items
import Lipi.Token.Stream

set_option autoImplicit false

/-! # What a stream shows

The tokens of a canonical text, seen from a stream. **A stream shows a list of items if its
remaining tokens are these items, each at the start of a line or not as the blanks in front of it
say**; nothing else about positions matters to a reader. The main statement is `shows_items`: the
tokens of a text of items show these items.
-/

namespace Lipi

namespace Item

/-- The kind of the first item, or the end of the text. -/
def kindOf : List Item → TokenKind
  | [] => .eof
  | i :: _ => i.kind

/-! ## Scanning -/

/-- Every item is told from what follows it. -/
def LexAll : List Item → List Char → Prop
  | [], _ => True
  | i :: is, rest => i.Lexes (text is ++ rest) ∧ LexAll is rest

theorem lexAll_append {is js : List Item} {rest : List Char} :
    LexAll (is ++ js) rest ↔ LexAll is (text js ++ rest) ∧ LexAll js rest := by
  induction is with
  | nil => simp [LexAll]
  | cons i is ih =>
      rw [List.cons_append, LexAll, LexAll, ih, text_append, List.append_assoc, and_assoc]

/-- The tokens of items that stand at a position. -/
def place (p : Position) : List Item → List Char → List Token
  | [], tail => [⟨.eof, "", p.after tail⟩]
  | i :: is, tail => ⟨i.kind, i.lexeme, p.after i.before⟩ :: place (p.after i.chars) is tail

/-- Blanks are skipped. -/
theorem scan_blanks {bs : List Char} (rest : List Char) (hbs : ∀ c ∈ bs, Lexer.isBlank c = true)
    (hrest : ∀ c cs, rest = c :: cs → Lexer.isBlank c = false) (p : Position) :
    Lexer.scan p (bs ++ rest) = Lexer.scan (p.after bs) rest := by
  cases bs with
  | nil => rfl
  | cons b bs =>
      have hb := hbs b List.mem_cons_self
      have htake := takeWhile_append_stop (fun c hc => hbs c (List.mem_cons_of_mem _ hc)) hrest
      have hpiece : Lexer.piece b (bs ++ rest) = .ok (.gap, bs.length) := by
        unfold Lexer.piece
        rw [if_pos hb, htake]
      rw [List.cons_append, Lexer.scan, hpiece]
      dsimp only
      rw [List.take_left, List.drop_left]

/-- **The tokens of a text of items are the items**, whatever blanks stand behind it. -/
theorem scan_items {is : List Item} {tail : List Char} (h : LexAll is tail)
    (htail : ∀ c ∈ tail, Lexer.isBlank c = true) (p : Position) :
    Lexer.scan p (text is ++ tail) = .ok (place p is tail) := by
  induction is generalizing p with
  | nil =>
      have hskip := scan_blanks [] htail (fun _ _ heq => by cases heq) p
      rw [List.append_nil] at hskip
      rw [text_nil, List.nil_append, hskip, Lexer.scan]
      rfl
  | cons i is ih =>
      obtain ⟨hi, his⟩ := h
      obtain ⟨c, cs, hcons, hblank, hpiece⟩ := hi.piece
      -- the blanks are skipped as one gap, and the piece behind them is the item
      have hshape : text (i :: is) ++ tail = i.before ++ (c :: (cs ++ (text is ++ tail))) := by
        rw [text_cons, hcons]
        simp
      have hskip : Lexer.scan p (text (i :: is) ++ tail)
          = Lexer.scan (p.after i.before) (c :: (cs ++ (text is ++ tail))) := by
        rw [hshape]
        refine scan_blanks _ hi.blanks (fun d ds heq => ?_) p
        injection heq with hhead
        rw [← hhead]
        exact hblank
      have hafter : p.after i.chars = (p.after i.before).after (c :: cs) := by
        rw [chars, Position.after_append, hcons]
      rw [hskip, Lexer.scan, hpiece]
      dsimp only
      rw [List.take_left, List.drop_left, ← hafter, ih his, ← hcons, String.ofList_toList]
      rfl

end Item

/-! ## Lines -/

theorem Position.after_line (p : Position) (cs : List Char) :
    (p.after cs).line = p.line + cs.count '\n' := by
  induction cs generalizing p with
  | nil => rfl
  | cons c cs ih =>
      rw [Position.after_cons, ih, List.count_cons]
      unfold Position.advance
      by_cases hc : c = '\n'
      · subst hc
        simp only [if_true, beq_self_eq_true]
        omega
      · rw [if_neg hc]
        simp [hc]

/-! ## Streams -/

theorem TokenKind.beq_sign (k : TokenKind) (s : Sign) : (k == .sign s) = true ↔ k = .sign s := by
  show instBEqTokenKind.beq k (.sign s) = true ↔ _
  cases k <;> simp [instBEqTokenKind.beq]

theorem TokenKind.beq_keyword (k : TokenKind) (w : Keyword) :
    (k == .keyword w) = true ↔ k = .keyword w := by
  show instBEqTokenKind.beq k (.keyword w) = true ↔ _
  cases k <;> simp [instBEqTokenKind.beq]

namespace Stream

theorem check_sign (s : Stream) (sign : Sign) :
    s.check (.sign sign) = true ↔ s.kind = .sign sign :=
  TokenKind.beq_sign s.kind sign

theorem check_keyword (s : Stream) (word : Keyword) :
    s.check (.keyword word) = true ↔ s.kind = .keyword word :=
  TokenKind.beq_keyword s.kind word

/-- The remaining tokens of a stream are these items, with the end of the text behind them. -/
def Shows : List Item → Stream → Prop
  | [], s => ∃ t, s.tokens[s.cursor]? = some t ∧ t.kind = .eof ∧ s.cursor + 1 = s.tokens.size
  | i :: is, s => (∃ t, s.tokens[s.cursor]? = some t ∧ t.kind = i.kind ∧ t.lexeme = i.lexeme) ∧
      i.kind ≠ .eof ∧ s.atLineBreak = i.startsLine ∧ Shows is { s with cursor := s.cursor + 1 }

theorem isAtEnd_iff (s : Stream) : s.isAtEnd = true ↔ s.kind = .eof := by
  unfold isAtEnd
  cases s.kind <;> simp

@[simp] theorem advance_errors (s : Stream) : s.advance.errors = s.errors := by
  unfold advance
  split <;> rfl

namespace Shows

variable {i j : Item} {is : List Item} {s : Stream}

theorem peek (h : Shows (i :: is) s) : s.peek.kind = i.kind ∧ s.peek.lexeme = i.lexeme := by
  obtain ⟨⟨t, ht, hkind, hlexeme⟩, _⟩ := h
  unfold Stream.peek
  rw [ht]
  exact ⟨hkind, hlexeme⟩

theorem kind (h : Shows (i :: is) s) : s.kind = i.kind :=
  h.peek.1

theorem kind_nil (h : Shows [] s) : s.kind = .eof := by
  obtain ⟨t, ht, hkind, _⟩ := h
  unfold Stream.kind Stream.peek
  rw [ht]
  exact hkind

theorem kindOf (h : Shows is s) : s.kind = Item.kindOf is := by
  cases is with
  | nil => exact h.kind_nil
  | cons i is => exact h.kind

theorem lineBreak (h : Shows (i :: is) s) : s.atLineBreak = i.startsLine :=
  h.2.2.1

theorem advance (h : Shows (i :: is) s) : Shows is s.advance := by
  have hend : s.isAtEnd = false := by
    rw [Bool.eq_false_iff, ne_eq, isAtEnd_iff, h.kind]
    exact h.2.1
  unfold Stream.advance
  rw [hend, if_neg Bool.false_ne_true]
  exact h.2.2.2

theorem nextKind (h : Shows (i :: j :: is) s) : s.nextKind = j.kind := by
  obtain ⟨⟨t, ht, hkind, _⟩, _⟩ := h.2.2.2
  have ht' : s.tokens[s.cursor + 1]? = some t := ht
  unfold Stream.nextKind
  rw [ht']
  exact hkind

/-- A stream has room for as many steps as it shows items. -/
theorem bound (h : Shows is s) : s.bound = is.length + 5 := by
  induction is generalizing s with
  | nil =>
      obtain ⟨_, _, _, hsize⟩ := h
      unfold Stream.bound
      rw [List.length_nil]
      omega
  | cons i is ih =>
      have hrest : s.tokens.size - (s.cursor + 1) + 4 = is.length + 5 := ih h.2.2.2
      obtain ⟨⟨t, ht, _⟩, _⟩ := h
      have hin : s.cursor < s.tokens.size := by
        by_contra hout
        rw [Array.getElem?_eq_none (by omega)] at ht
        cases ht
      unfold Stream.bound
      rw [List.length_cons]
      omega

end Shows

/-! ## The tokens of items -/

/-- The tokens of items that stand behind other tokens, the last of which ends where the items
start. -/
theorem shows_place {is : List Item} {tail : List Char} (h : Item.LexAll is tail)
    {p : Position} (previous : List Token) {last : Token} (hlast : last.endLine = p.line)
    (errors : Array CompileError) :
    Shows is ⟨(previous ++ last :: Item.place p is tail).toArray, previous.length + 1, errors⟩ := by
  induction is generalizing p previous last with
  | nil =>
      refine ⟨⟨.eof, "", p.after tail⟩, ?_, rfl, ?_⟩
      · simp [Item.place]
      · simp [Item.place]
  | cons i is ih =>
      obtain ⟨hi, his⟩ := h
      let token : Token := ⟨i.kind, i.lexeme, p.after i.before⟩
      have hcurrent : (previous ++ last :: Item.place p (i :: is) tail).toArray[previous.length + 1]?
          = some token := by
        simp [Item.place, token]
      -- an item may span lines, so its last line is counted from its text
      have hend : token.endLine = (p.after i.chars).line := by
        show (p.after i.before).line + i.lexeme.toList.count '\n' = _
        rw [Item.chars, Position.after_append, Position.after_line _ i.lexeme.toList]
      refine ⟨⟨token, hcurrent, rfl, rfl⟩, hi.notEnd, ?_, ?_⟩
      · -- the last token ends on this line, so only the blanks can break it
        have hprevious : (previous ++ last :: Item.place p (i :: is) tail).toArray[previous.length]?
            = some last := by
          simp
        have hposition : (p.after i.before).line = last.endLine + i.before.count '\n' := by
          rw [Position.after_line, hlast]
        unfold atLineBreak previous? Stream.position Stream.peek
        dsimp only
        rw [hprevious, hcurrent]
        show decide (last.endLine < (p.after i.before).line) = i.before.contains '\n'
        rw [hposition, Bool.eq_iff_iff, decide_eq_true_iff, List.contains_iff_mem,
          ← List.count_pos_iff]
        omega
      · have hnext := ih his (previous ++ [last]) hend
        rw [List.append_assoc, List.length_append] at hnext
        exact hnext

/-- **The tokens of a text of items show the items.** Nothing is in front of the first one, so it
does not count as the start of a line. -/
theorem shows_items {is : List Item} {tail : List Char} (h : Item.LexAll is tail)
    (hfirst : ∀ i js, is = i :: js → i.startsLine = false) :
    Shows is (ofTokens (Item.place Position.start is tail)) := by
  cases is with
  | nil => exact ⟨_, rfl, rfl, rfl⟩
  | cons i is =>
      obtain ⟨hi, his⟩ := h
      -- behind the first item, every token has another one in front of it
      have hend : (⟨i.kind, i.lexeme, Position.start.after i.before⟩ : Token).endLine
          = (Position.start.after i.chars).line := by
        unfold Token.endLine
        rw [Item.chars, Position.after_append, Position.after_line _ i.lexeme.toList]
      refine ⟨⟨_, rfl, rfl, rfl⟩, hi.notEnd, ?_, ?_⟩
      · rw [hfirst i is rfl]
        rfl
      · exact shows_place his [] hend #[]

end Stream

end Lipi
