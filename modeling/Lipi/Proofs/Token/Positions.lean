import Lipi.Proofs.Parser.Progress
import Lipi.Proofs.Token.Shows
import Lipi.Proofs.Token.Split
import Mathlib.Data.Prod.Lex

set_option autoImplicit false

/-! # Where tokens stand

Positions are ordered by lines and then by columns. As no token is empty but the end token, **the
tokens of a text stand strictly one behind the other** (`scan_sorted`). Nothing but positions depends on where a text starts
(`scan_down`), and nothing but blanks goes on over the end of a line, so that the tokens of a text
whose lines stand behind those of another one are the tokens of both (`scan_lines`).
-/

namespace Lipi

/-! ## The order of positions -/

namespace Position

instance : Preorder Position :=
  Preorder.lift fun p => toLex (p.line, p.column)

theorem lt_iff {p q : Position} :
    p < q ↔ p.line < q.line ∨ p.line = q.line ∧ p.column < q.column :=
  Prod.Lex.toLex_lt_toLex

theorem lt_advance (p : Position) (c : Char) : p < p.advance c := by
  rw [lt_iff]
  unfold advance
  split
  · exact .inl (Nat.lt_succ_self _)
  · exact .inr ⟨rfl, Nat.lt_succ_self _⟩

theorem le_after (p : Position) (cs : List Char) : p ≤ p.after cs := by
  induction cs generalizing p with
  | nil => exact le_refl p
  | cons c cs ih => exact (p.lt_advance c).le.trans (ih _)

/-- A text that is not empty takes up room. -/
theorem lt_after (p : Position) (c : Char) (cs : List Char) : p < p.after (c :: cs) :=
  (p.lt_advance c).trans_le (le_after _ cs)

/-- The position a number of lines further down. -/
def down (k : Nat) (p : Position) : Position :=
  ⟨p.line + k, p.column⟩

theorem advance_down (k : Nat) (p : Position) (c : Char) :
    (p.down k).advance c = (p.advance c).down k := by
  unfold advance down
  split
  · exact congrArg (Position.mk · 1) (Nat.add_right_comm _ _ _)
  · rfl

theorem after_down (k : Nat) (p : Position) (cs : List Char) :
    (p.down k).after cs = (p.after cs).down k := by
  induction cs generalizing p with
  | nil => rfl
  | cons c cs ih => rw [after_cons, after_cons, advance_down, ih]

end Position

/-- The token a number of lines further down. -/
def Token.down (k : Nat) (t : Token) : Token :=
  ⟨t.kind, t.lexeme, t.position.down k⟩

namespace Lexer

/-! ## The tokens of a text -/

/-- No piece of a text is the end token. -/
theorem piece_ne_eof {c : Char} {cs : List Char} {kind : TokenKind} {n : Nat}
    (h : piece c cs = .ok (.token kind, n)) : kind ≠ .eof := by
  obtain ⟨r, -, hpiece⟩ := longest_of_piece h
  rintro rfl
  cases r with
  | word =>
      simp only [Rule.piece?, wordKind, Option.some.injEq, Piece.token.injEq] at hpiece
      split at hpiece <;> cases hpiece
  | number =>
      obtain ⟨_, _, heq⟩ := Option.map_eq_some_iff.mp hpiece
      cases heq
  | _ => cases hpiece

/-- **The end token is the last one and the only one.** -/
theorem endsOnce_of_scan {p : Position} {cs : List Char} {tokens : List Token}
    (h : scan p cs = .ok tokens) : Token.EndsOnce tokens := by
  fun_induction scan p cs generalizing tokens with
  | case1 p =>
      cases h
      exact ⟨[], _, rfl, rfl, by simp⟩
  | case2 p c cs cause hpiece => cases h
  | case3 p c cs n hpiece ih => exact ih h
  | case4 p c cs kind n hpiece => cases h
  | case5 p c cs kind n hpiece lexeme rest hrest =>
      rename_i ih
      cases h
      obtain ⟨front, last, rfl, hlast, hfront⟩ := ih hrest
      exact ⟨_ :: front, last, rfl, hlast,
        List.forall_mem_cons.mpr ⟨piece_ne_eof hpiece, hfront⟩⟩

/-- **Tokens stand strictly one behind the other**: every one but the last has a lexeme. -/
theorem scan_sorted {p : Position} {cs : List Char} {tokens : List Token}
    (h : scan p cs = .ok tokens) :
    (∀ t ∈ tokens, p ≤ t.position) ∧ tokens.Pairwise fun t t' => t.position < t'.position := by
  fun_induction scan p cs generalizing tokens with
  | case1 p =>
      cases h
      simp
  | case2 p c cs cause hpiece => cases h
  | case3 p c cs n hpiece ih =>
      obtain ⟨hbehind, hsorted⟩ := ih h
      exact ⟨fun t ht => (p.le_after _).trans (hbehind t ht), hsorted⟩
  | case4 p c cs kind n hpiece => cases h
  | case5 p c cs kind n hpiece lexeme rest hrest =>
      rename_i ih
      cases h
      obtain ⟨hbehind, hsorted⟩ := ih hrest
      have hrest' := fun t ht => (p.lt_after c _).trans_le (hbehind t ht)
      exact ⟨List.forall_mem_cons.mpr ⟨le_refl p, fun t ht => (hrest' t ht).le⟩,
        .cons hrest' hsorted⟩

end Lexer

/-- What the tokens of a text are like, as far as reading them is concerned. -/
structure Token.Scanned (tokens : List Token) : Prop where
  ended : Token.EndsOnce tokens
  sorted : tokens.Pairwise fun t t' => t.position ≤ t'.position
  lexed : ∀ t ∈ tokens, t.Lexed

theorem scanned_of_tokenize {text : String} {tokens : List Token} (h : tokenize text = .ok tokens) :
    Token.Scanned tokens :=
  ⟨Lexer.endsOnce_of_scan h, (Lexer.scan_sorted h).2.imp le_of_lt, lexed_scan h⟩

namespace Lexer

/-- Where a text starts matters to positions only. -/
theorem scan_down (k : Nat) {p : Position} {cs : List Char} {tokens : List Token}
    (h : scan p cs = .ok tokens) : scan (p.down k) cs = .ok (tokens.map (Token.down k)) := by
  fun_induction scan p cs generalizing tokens with
  | case1 p =>
      cases h
      rw [scan]
      rfl
  | case2 p c cs cause hpiece => cases h
  | case3 p c cs n hpiece ih =>
      rw [scan, hpiece]
      dsimp only
      rw [Position.after_down]
      exact ih h
  | case4 p c cs kind n hpiece => cases h
  | case5 p c cs kind n hpiece lexeme rest hrest =>
      rename_i ih
      cases h
      rw [scan, hpiece]
      dsimp only
      rw [Position.after_down, ih hrest]
      rfl

/-! ## The end of a line -/

/-- A text of a rule that goes over the end of a line is blanks, a comment or a string. -/
theorem rule_of_newline {r : Rule} {w : List Char} (hw : w ∈ r.language) (hline : '\n' ∈ w) :
    r = .blanks ∨ r = .blockComment ∨ r = .string := by
  cases r with
  | blanks => exact .inl rfl
  | blockComment => exact .inr (.inl rfl)
  | string => exact .inr (.inr rfl)
  -- the other rules have no newline in their alphabet
  | lineComment =>
      obtain ⟨_, rfl, v, hv, rfl⟩ := hw
      have hmem : '\n' ∈ v := by simpa using hline
      exact absurd (mem_many.mp hv _ hmem) (by decide)
  | openComment =>
      obtain rfl := mem_single.mp hw
      exact absurd hline (by decide)
  | number =>
      obtain ⟨whole, fraction, hwhole, hfraction, rfl⟩ := mem_number.mp hw
      have hmem : '\n' ∈ whole ∨ '\n' ∈ fraction := by
        cases fraction with
        | nil => exact .inl hline
        | cons d ds => simpa [Number.numeral_cons] using hline
      rcases hmem with hmem | hmem
      · exact absurd (hwhole.digit _ hmem) (by decide)
      · exact absurd (hfraction _ hmem) (by decide)
  | word =>
      obtain ⟨c, cs, rfl, hc, hcs⟩ := mem_run.mp hw
      rcases List.mem_cons.mp hline with rfl | hmem
      · exact absurd hc (by decide)
      · exact absurd (hcs _ hmem) (by decide)
  | sign s =>
      obtain rfl := mem_single.mp hw
      cases s <;> exact absurd hline (by decide)

/-- **The end of a line ends every piece but blanks**: what is a longest piece in front of a text is
one when further lines follow. -/
theorem Longest.line {r : Rule} {w rest : List Char} (h : Longest r w rest) (hblanks : r ≠ .blanks)
    (hpiece : (r.piece? w).isSome = true) (cs : List Char) : Longest r w (rest ++ '\n' :: cs) := by
  refine ⟨h.mem, fun r' w' hw' hbegins => ?_⟩
  rw [← List.append_assoc] at hbegins
  rcases List.prefix_or_prefix_of_prefix hbegins (List.prefix_append (w ++ rest) _) with hshort | hlong
  · exact h.longest r' w' hw' hshort
  obtain ⟨t, rfl⟩ := hlong
  have ht : t <+: '\n' :: cs := (List.prefix_append_right_inj _).mp hbegins
  cases t with
  | nil => exact h.longest r' _ hw' (by rw [List.append_nil])
  | cons d ds =>
      obtain rfl := (List.cons_prefix_cons.mp ht).1
      obtain ⟨c, v, rfl⟩ := List.exists_cons_of_ne_nil h.ne_nil
      have hrule := Rule.ofText?_of_mem h.mem
      have hrule' := Rule.ofText?_of_mem hw'
      have hinside : c :: v <+: c :: v ++ rest ++ '\n' :: ds := by
        rw [List.append_assoc]
        exact List.prefix_append _ _
      rcases rule_of_newline hw' (by simp) with rfl | rfl | rfl
      · -- a text that starts with a blank is blanks
        obtain ⟨b, bs, heq, hb, -⟩ := mem_run.mp hw'
        injection heq with hhead
        rw [hhead, Rule.ofText?_of_start (Rule.ofStart?_blank hb)] at hrule
        cases hrule
        exact absurd rfl hblanks
      · have hstart : ∃ u, c :: v ++ rest ++ '\n' :: ds = '/' :: '*' :: u := by
          obtain ⟨_, rfl, u, -, heq⟩ := hw'
          exact ⟨u, heq.symm⟩
        obtain ⟨u, hstart⟩ := hstart
        obtain ⟨rfl, htail⟩ := List.cons.inj hstart
        obtain _ | ⟨e, _ | ⟨f, fs⟩⟩ := v
        · -- the opening of the comment is longer than a slash
          cases rest with
          | nil => cases htail
          | cons e es =>
              cases htail
              exact absurd (h.longest .openComment ['/', '*'] rfl ⟨es, rfl⟩) (by decide)
        · cases htail
          cases hrule
          cases hpiece
        · cases htail
          cases hrule
          have hlength := commentLength?_of_begins hw' (List.prefix_refl _)
          have hlength' := commentLength?_of_begins h.mem hinside
          have hsame := Option.some.inj (hlength.symm.trans hlength')
          simp only [List.length_append, List.length_cons] at hsame ⊢
          omega
      · have hstart : c = '"' := by
          obtain ⟨_, rfl, u, -, heq⟩ := hw'
          exact (List.cons.inj heq).1.symm
        subst hstart
        cases hrule
        have hlength := stringLength?_of_begins hw' (List.prefix_refl _)
        have hlength' := stringLength?_of_begins h.mem hinside
        have hsame := Option.some.inj (hlength.symm.trans hlength')
        simp only [List.length_append, List.length_cons] at hsame ⊢
        omega

/-- Blanks are skipped one by one. -/
theorem scan_skip {bs : List Char} (hbs : ∀ c ∈ bs, isBlank c = true) (rest : List Char)
    (p : Position) : scan p (bs ++ rest) = scan (p.after bs) rest := by
  -- the blanks go on as far as they can, and so do the blanks of the rest
  have hstop : ∀ c cs, rest.dropWhile isBlank = c :: cs → isBlank c = false := by
    intro c cs heq
    have hhead := List.head?_dropWhile_not isBlank rest
    rw [heq] at hhead
    simpa using hhead
  have hrest : ∀ c ∈ rest.takeWhile isBlank, isBlank c = true := fun c hc => List.mem_takeWhile_imp hc
  have hall : ∀ c ∈ bs ++ rest.takeWhile isBlank, isBlank c = true := by
    intro c hc
    rcases List.mem_append.mp hc with hc | hc
    · exact hbs c hc
    · exact hrest c hc
  have hlong := Item.scan_blanks _ hall hstop p
  have hshort := Item.scan_blanks _ hrest hstop (p.after bs)
  rw [List.append_assoc, List.takeWhile_append_dropWhile, Position.after_append] at hlong
  rw [List.takeWhile_append_dropWhile] at hshort
  rw [hlong, hshort]

/-- **The tokens of a text behind which further lines stand** are its own, without the end token, and
those of the further lines. -/
theorem scan_lines {p : Position} {cs : List Char} {tokens : List Token}
    (h : scan p cs = .ok tokens) : ∃ front, tokens = front ++ [⟨.eof, "", p.after cs⟩] ∧
      ∀ ds, scan p (cs ++ '\n' :: ds) =
        (scan ((p.after cs).advance '\n') ds).map fun rest => front ++ rest := by
  fun_induction scan p cs generalizing tokens with
  | case1 p =>
      cases h
      refine ⟨[], rfl, fun ds => ?_⟩
      have hblank : ∀ c ∈ ['\n'], isBlank c = true := List.forall_mem_singleton.mpr rfl
      refine (scan_skip hblank ds p).trans ?_
      show scan (p.advance '\n') ds = (scan (p.advance '\n') ds).map fun rest => [] ++ rest
      cases scan (p.advance '\n') ds <;> rfl
  | case2 p c cs cause hpiece => cases h
  | case3 p c cs n hpiece ih =>
      obtain ⟨r, hlongest, hwhat⟩ := longest_of_piece hpiece
      obtain ⟨front, rfl, hlines⟩ := ih h
      have htext : c :: cs = c :: cs.take n ++ cs.drop n := by
        rw [List.cons_append, List.take_append_drop]
      rw [htext, Position.after_append]
      refine ⟨front, rfl, fun ds => ?_⟩
      rw [List.append_assoc, ← hlines]
      -- blanks are the one piece that may go on over the end of the line, into the newline
      by_cases hblanks : r = .blanks
      · subst hblanks
        obtain ⟨b, bs, hcons, hb, hbs⟩ := mem_run.mp hlongest.mem
        refine scan_skip ?_ _ p
        rw [hcons]
        exact List.forall_mem_cons.mpr ⟨hb, hbs⟩
      · exact scan_gap (hlongest.line hblanks (by rw [hwhat]; rfl) ds) hwhat p
  | case4 p c cs kind n hpiece => cases h
  | case5 p c cs kind n hpiece lexeme rest hrest =>
      rename_i ih
      cases h
      obtain ⟨r, hlongest, hwhat⟩ := longest_of_piece hpiece
      obtain ⟨front, rfl, hlines⟩ := ih hrest
      have htext : c :: cs = lexeme ++ cs.drop n := by
        show _ = c :: cs.take n ++ cs.drop n
        rw [List.cons_append, List.take_append_drop]
      rw [htext, Position.after_append]
      refine ⟨⟨kind, String.ofList lexeme, p⟩ :: front, rfl, fun ds => ?_⟩
      -- a token is no blank, so it is cut in the same way whatever lines follow
      have hblanks : r ≠ .blanks := by
        rintro rfl
        cases hwhat
      rw [List.append_assoc, scan_token (hlongest.line hblanks (by rw [hwhat]; rfl) ds) hwhat, hlines]
      cases scan ((p.after lexeme).after (cs.drop n) |>.advance '\n') ds <;> rfl

end Lexer

end Lipi
