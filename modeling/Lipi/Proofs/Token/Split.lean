import Lipi.Proofs.Number.Overflow
import Lipi.Proofs.Token.Grammar

set_option autoImplicit false

/-! # Cutting a text

A text that has tokens is gaps and lexemes in turn, each the longest piece at its place. **There is
one such split at most, and the lexer finds it** (`tokenize_split`); a text without one has a place
up to which it has tokens, and where it gets `Stuck`. Both rest on a single statement about the front
of a text, `piece_cut`.
-/

namespace Lipi

namespace Lexer

/-! ## Longest pieces -/

theorem Longest.ne_nil {r : Rule} {w rest : List Char} (h : Longest r w rest) : w ≠ [] := by
  rintro rfl
  cases Rule.ofText?_of_mem h.mem

/-- The longest piece of a text, and its rule, are unique. -/
theorem Longest.unique {r r' : Rule} {w w' rest rest' : List Char} (h : Longest r w rest)
    (h' : Longest r' w' rest') (htext : w ++ rest = w' ++ rest') : r = r' ∧ w = w' ∧ rest = rest' := by
  have hlength : w.length = w'.length := by
    refine Nat.le_antisymm (h'.longest r w h.mem ?_) (h.longest r' w' h'.mem ?_)
    · exact htext ▸ List.prefix_append w rest
    · exact htext ▸ List.prefix_append w' rest'
  obtain ⟨rfl, rfl⟩ := List.append_inj htext hlength
  exact ⟨Rule.unique h.mem h'.mem, rfl, rfl⟩

section Front

variable {c : Char} {cs : List Char} {n : Nat} {r : Rule}

theorem longest_of_le (hmem : c :: cs.take n ∈ r.language)
    (hlong : ∀ r' w, w ∈ Rule.language r' → w <+: c :: cs → w.length ≤ n + 1) :
    Longest r (c :: cs.take n) (cs.drop n) := by
  refine ⟨hmem, fun r' w hw hbegins => ?_⟩
  rw [List.cons_append, List.take_append_drop] at hbegins
  have hshort := hlong r' w hw hbegins
  have hinside := hbegins.length_le
  rw [List.length_cons] at hinside
  rw [List.length_cons, List.length_take]
  omega

/-- Where the first character decides on the rule, only this rule has to be looked at. -/
theorem longest_of_start (hstart : Rule.ofStart? c = some r) (hmem : c :: cs.take n ∈ r.language)
    (hlong : ∀ w, w ∈ r.language → w <+: c :: cs → w.length ≤ n + 1) :
    Longest r (c :: cs.take n) (cs.drop n) := by
  refine longest_of_le hmem fun r' w hw hbegins => ?_
  cases w with
  | nil => exact Nat.zero_le _
  | cons d ds =>
      obtain rfl := (List.cons_prefix_cons.mp hbegins).1
      have hrule := Rule.ofText?_of_mem hw
      rw [Rule.ofText?_of_start hstart] at hrule
      cases hrule
      exact hlong _ hw hbegins

end Front

/-! ## Where there is no piece -/

/-- What stands at a place where a text has no token: a string that is not closed, a block comment
that is not closed, a numeral that is too large, or a character that starts nothing. -/
inductive Stuck : List Char → CompileError.Cause → Prop
  | string {cs : List Char} (hopen : ∀ w ∈ Rule.string.language, ¬ w <+: '"' :: cs) :
      Stuck ('"' :: cs) .unterminatedString
  | comment {cs : List Char} (hopen : ∀ w ∈ Rule.blockComment.language, ¬ w <+: '/' :: '*' :: cs) :
      Stuck ('/' :: '*' :: cs) .unterminatedComment
  | number {whole fraction rest : List Char} (hwhole : Number.Digits whole)
      (hfraction : ∀ c ∈ fraction, c.isDigit = true)
      (hlongest : Longest .number (Number.numeral whole fraction) rest)
      (hlarge : Number.overflow ≤ Number.numeralValue whole fraction) :
      Stuck (Number.numeral whole fraction ++ rest)
        (.invalidNumber (String.ofList (Number.numeral whole fraction)))
  | character {c : Char} {cs : List Char} (hnone : ∀ r w, w ∈ Rule.language r → w.head? ≠ some c) :
      Stuck (c :: cs) (.unexpectedCharacter c)

theorem piece?_number (w : List Char) : Rule.number.piece? w =
    ((Number.read? (String.ofList w)).filter Number.isFinite).map fun value =>
      .token (.number value) := rfl

/-- A numeral makes a token if it is below the bound. -/
theorem piece?_numeral {whole fraction : List Char} (hwhole : Number.Digits whole)
    (hfraction : ∀ c ∈ fraction, c.isDigit = true) :
    (Rule.number.piece? (Number.numeral whole fraction)).isSome = true ↔
      Number.numeralValue whole fraction < Number.overflow := by
  obtain ⟨x, hread, hfinite⟩ := Number.isFinite_read?_numeral hwhole hfraction
  rw [piece?_number, hread, Option.isSome_map, ← hfinite, Option.filter_some]
  split <;> simp_all

/-- A text that is stuck has no piece in front that would be skipped or make a token. -/
theorem Stuck.not_longest {cs w rest : List Char} {cause : CompileError.Cause} {r : Rule}
    (h : Stuck cs cause) (hlongest : Longest r w rest) (htext : cs = w ++ rest)
    (hpiece : (r.piece? w).isSome = true) : False := by
  have hbegins : w <+: cs := htext ▸ List.prefix_append w rest
  have hrule := Rule.ofText?_of_mem hlongest.mem
  obtain ⟨c, w, rfl⟩ := List.exists_cons_of_ne_nil hlongest.ne_nil
  cases h with
  | string hopen =>
      obtain rfl := (List.cons_prefix_cons.mp hbegins).1
      cases hrule
      exact hopen _ hlongest.mem hbegins
  | comment hopen =>
      obtain ⟨rfl, htail⟩ := List.cons_prefix_cons.mp hbegins
      cases w with
      | nil =>
          -- the opening of the comment is longer
          have hlong := hlongest.longest .openComment ['/', '*'] rfl (by
            rw [← htext]
            exact ⟨_, rfl⟩)
          exact absurd hlong (by decide)
      | cons d ds =>
          obtain ⟨rfl, -⟩ := List.cons_prefix_cons.mp htail
          cases ds with
          | nil =>
              cases hrule
              cases hpiece
          | cons e es =>
              cases hrule
              exact hopen _ hlongest.mem hbegins
  | number hwhole hfraction hnumeral hlarge =>
      obtain ⟨rfl, hsame, -⟩ := hlongest.unique hnumeral htext.symm
      rw [hsame] at hpiece
      exact absurd ((piece?_numeral hwhole hfraction).mp hpiece) (not_lt.mpr hlarge)
  | character hnone =>
      obtain rfl := (List.cons_prefix_cons.mp hbegins).1
      exact hnone r _ hlongest.mem rfl

/-! ## Pieces -/

/-- What the lexer says about the front of a text is right. -/
def Cut (c : Char) (cs : List Char) : Except CompileError.Cause (Piece × Nat) → Prop
  | .ok (what, n) =>
    ∃ r, Longest r (c :: cs.take n) (cs.drop n) ∧ r.piece? (c :: cs.take n) = some what
  | .error cause => Stuck (c :: cs) cause

theorem cut_number {c : Char} (hc : c.isDigit = true) (cs : List Char) :
    Cut c cs ((numberKind (String.ofList (c :: cs.take (numberLength cs)))).map
      fun kind => (.token kind, numberLength cs)) := by
  have hmem := mem_number_take hc cs
  have hlongest := longest_of_start (Rule.ofStart?_digit hc) hmem fun w => length_le_numberLength
  unfold numberKind
  cases hread : (Number.read? (String.ofList (c :: cs.take (numberLength cs)))).filter
      Number.isFinite with
  | some x =>
      refine ⟨.number, hlongest, ?_⟩
      rw [piece?_number, hread]
      rfl
  | none =>
      obtain ⟨whole, fraction, hwhole, hfraction, hnumeral⟩ := mem_number.mp hmem
      have hlarge : ¬ Number.numeralValue whole fraction < Number.overflow := by
        rw [← piece?_numeral hwhole hfraction, ← hnumeral, piece?_number, hread]
        exact Bool.false_ne_true
      rw [hnumeral] at hlongest
      have hstuck := Stuck.number hwhole hfraction hlongest (not_lt.mp hlarge)
      rw [← hnumeral, List.cons_append, List.take_append_drop] at hstuck
      exact hstuck

/-- A string in front of a text is the one that is measured. -/
theorem stringLength?_of_begins {w cs : List Char} (hw : w ∈ Rule.string.language)
    (hbegins : w <+: '"' :: cs) : stringLength? 0 cs = some (w.length - 1) := by
  obtain ⟨_, rfl, _, ⟨body, hbody, _, rfl, rfl⟩, rfl⟩ := hw
  obtain ⟨rest, rfl⟩ := (List.cons_prefix_cons.mp hbegins).2
  have htext : body ++ ['"'] ++ rest = body ++ '"' :: rest := List.append_assoc _ _ _
  have hlength : ('"' :: (body ++ ['"'])).length - 1 = 0 + body.length + 1 := by simp
  show stringLength? 0 (body ++ ['"'] ++ rest) = some (('"' :: (body ++ ['"'])).length - 1)
  rw [htext, stringLength?_append hbody, hlength]

/-- A closed comment in front of a text is the one that is measured. -/
theorem commentLength?_of_begins {w cs : List Char} (hw : w ∈ Rule.blockComment.language)
    (hbegins : w <+: '/' :: '*' :: cs) : commentLength? 0 cs = some (w.length - 2) := by
  obtain ⟨_, rfl, tail, htail, rfl⟩ := hw
  obtain ⟨after, rfl⟩ := (List.cons_prefix_cons.mp (List.cons_prefix_cons.mp hbegins).2).2
  refine (commentLength?_append htail after 0).trans ?_
  simp

theorem cut_string (cs : List Char) : Cut '"' cs (piece '"' cs) := by
  cases hlength : stringLength? 0 cs with
  | none =>
      have hpiece : piece '"' cs = .error .unterminatedString := by
        unfold piece
        simp [hlength, show isBlank '"' = false from rfl, show isWordStart '"' = false from rfl,
          show '"'.isDigit = false from rfl]
      rw [hpiece]
      refine Stuck.string fun w hw hbegins => ?_
      rw [stringLength?_of_begins hw hbegins] at hlength
      cases hlength
  | some n =>
      rw [Item.piece_string hlength]
      obtain ⟨body, rest, hbody, rfl, rfl⟩ := mem_of_stringLength? hlength
      have htake : (body ++ '"' :: rest).take (0 + body.length + 1) = body ++ ['"'] := by
        rw [Nat.zero_add, List.take_length_add_append]
        rfl
      refine ⟨.string, longest_of_start rfl ?_ fun w hw hbegins => ?_, ?_⟩
      · rw [htake]
        exact ⟨['"'], rfl, body ++ ['"'], ⟨body, hbody, ['"'], rfl, rfl⟩, rfl⟩
      · have hsame := Option.some.inj (hlength.symm.trans (stringLength?_of_begins hw hbegins))
        omega
      · rw [htake, Nat.zero_add, Nat.add_sub_cancel, List.take_left]
        show some (Piece.token (.string (String.ofList (Text.unescape (body ++ ['"']).dropLast)))) = _
        rw [List.dropLast_concat]

theorem cut_lineComment (rest : List Char) : Cut '/' ('/' :: rest) (piece '/' ('/' :: rest)) := by
  show ∃ r, Longest r _ _ ∧ _
  rw [Nat.add_comm, List.take_succ_cons, List.drop_succ_cons, take_length_takeWhile]
  have hlongest : Longest .lineComment ('/' :: ('/' :: rest).take
      ((rest.takeWhile (· ≠ '\n')).length + 1)) (('/' :: rest).drop
      ((rest.takeWhile (· ≠ '\n')).length + 1)) := by
    refine longest_of_le ?_ fun r w hw hbegins => ?_
    · rw [List.take_succ_cons, take_length_takeWhile]
      have hall : ∀ c ∈ rest.takeWhile (· ≠ '\n'), decide (c ≠ '\n') = true :=
        fun c hc => List.mem_takeWhile_imp (p := fun c => decide (c ≠ '\n')) hc
      exact ⟨['/', '/'], rfl, _, mem_many.mpr hall, rfl⟩
    · have hrule := Rule.ofText?_of_mem hw
      obtain _ | ⟨d, _ | ⟨e, es⟩⟩ := w
      · exact Nat.zero_le _
      · exact Nat.le_add_left _ _
      · obtain ⟨rfl, htail⟩ := List.cons_prefix_cons.mp hbegins
        obtain ⟨rfl, hes⟩ := List.cons_prefix_cons.mp htail
        cases hrule
        obtain ⟨_, rfl, v, hv, heq⟩ := hw
        obtain rfl : v = es := by
          injection heq with _ heq
          injection heq
        have hle := length_le_takeWhile hes (mem_many.mp hv)
        simp only [List.length_cons]
        omega
  rw [List.take_succ_cons, take_length_takeWhile, List.drop_succ_cons] at hlongest
  exact ⟨.lineComment, hlongest, rfl⟩

/-- The piece of a block comment of this length, if it is closed. -/
def commentPiece : Option Nat → Except CompileError.Cause (Piece × Nat)
  | some n => .ok (.gap, 1 + n)
  | none => .error .unterminatedComment

theorem cut_blockComment (rest : List Char) : Cut '/' ('*' :: rest) (piece '/' ('*' :: rest)) := by
  have hpiece : piece '/' ('*' :: rest) = commentPiece (commentLength? 0 rest) := rfl
  rw [hpiece]
  cases hlength : commentLength? 0 rest with
  | none =>
      refine Stuck.comment fun w hw hbegins => ?_
      rw [commentLength?_of_begins hw hbegins] at hlength
      cases hlength
  | some n =>
      obtain ⟨tail, after, htail, rfl, rfl⟩ := mem_of_commentLength? hlength
      refine ⟨.blockComment, longest_of_le ?_ fun r w hw hbegins => ?_, rfl⟩
      · rw [Nat.add_comm, List.take_succ_cons, Nat.zero_add, List.take_left]
        exact ⟨['/', '*'], rfl, tail, htail, rfl⟩
      · have hrule := Rule.ofText?_of_mem hw
        obtain _ | ⟨d, _ | ⟨e, _ | ⟨f, fs⟩⟩⟩ := w
        · exact Nat.zero_le _
        · exact Nat.le_add_left _ _
        · simp only [List.length_cons, List.length_nil]
          omega
        · obtain ⟨rfl, hmore⟩ := List.cons_prefix_cons.mp hbegins
          obtain ⟨rfl, -⟩ := List.cons_prefix_cons.mp hmore
          cases hrule
          have hsame := Option.some.inj (hlength.symm.trans (commentLength?_of_begins hw hbegins))
          simp only [List.length_cons] at hsame ⊢
          omega

/-- A text that starts with none of the other rules belongs to a sign. -/
theorem Rule.ofText?_sign {c : Char} {w : List Char} (hstart : Rule.ofStart? c = none)
    (hcomment : ∀ ds, c = '/' → w ≠ '/' :: ds ∧ w ≠ '*' :: ds) :
    Rule.ofText? (c :: w) = (signOf? (c :: w)).map .sign := by
  unfold Rule.ofText?
  dsimp only
  rw [hstart]
  dsimp only
  split
  · exact absurd rfl (hcomment _ rfl).1
  · exact absurd rfl (hcomment _ rfl).2
  · exact absurd rfl (hcomment _ rfl).2
  · rfl

theorem cut_sign {c : Char} {cs : List Char} (hstart : Rule.ofStart? c = none)
    (hcomment : ∀ ds, c = '/' → cs ≠ '/' :: ds ∧ cs ≠ '*' :: ds) : Cut c cs (sign c cs) := by
  -- what stands here is a sign, if anything does
  have hsign : ∀ {r d ds}, d :: ds ∈ Rule.language r → d :: ds <+: c :: cs →
      ∃ s, signOf? (c :: ds) = some s := by
    intro r d ds hw hbegins
    have hrule := Rule.ofText?_of_mem hw
    obtain ⟨rfl, hds⟩ := List.cons_prefix_cons.mp hbegins
    rw [Rule.ofText?_sign hstart, Option.map_eq_some_iff] at hrule
    · obtain ⟨s, hs, -⟩ := hrule
      exact ⟨s, hs⟩
    · rintro es rfl
      obtain ⟨rest, rfl⟩ := hds
      constructor
      · rintro rfl
        exact (hcomment _ rfl).1 rfl
      · rintro rfl
        exact (hcomment _ rfl).2 rfl
  unfold sign
  cases hpair : cs.head?.bind (Sign.ofPair? c) with
  | some s =>
      obtain ⟨d, hd, hs⟩ := Option.bind_eq_some_iff.mp hpair
      obtain ⟨es, rfl⟩ := List.head?_eq_some_iff.mp hd
      refine ⟨.sign s, longest_of_le (signOf?_eq_some.mp hs) fun r w hw hbegins => ?_, rfl⟩
      obtain _ | ⟨e, _ | ⟨f, _ | ⟨g, gs⟩⟩⟩ := w
      · exact Nat.zero_le _
      · exact Nat.le_add_left _ _
      · exact Nat.le_refl _
      · obtain ⟨s', hs'⟩ := hsign hw hbegins
        cases hs'
  | none =>
      have hsingle : ∀ {r w}, w ∈ Rule.language r → w <+: c :: cs → w.length ≤ 0 + 1 := by
        intro r w hw hbegins
        obtain _ | ⟨e, _ | ⟨f, fs⟩⟩ := w
        · exact Nat.zero_le _
        · exact Nat.le_refl _
        · obtain ⟨s, hs⟩ := hsign hw hbegins
          obtain ⟨rest, rfl⟩ := (List.cons_prefix_cons.mp hbegins).2
          cases fs with
          | nil =>
              have hhead : ([f] ++ rest).head?.bind (Sign.ofPair? c) = signOf? [c, f] := rfl
              rw [hhead, hs] at hpair
              cases hpair
          | cons g gs => cases hs
      cases hone : Sign.ofChar? c with
      | some s =>
          exact ⟨.sign s, longest_of_le (signOf?_eq_some.mp hone) fun r w => hsingle, rfl⟩
      | none =>
          refine Stuck.character fun r w hw hhead => ?_
          have hslash : c ≠ '/' := by
            rintro rfl
            cases hone
          -- a sign of two characters starts with one that is a sign itself
          have hnopair : ∀ d, Sign.ofPair? c d = none := by
            intro d
            unfold Sign.ofPair?
            split
            · split
              · cases hone
              · cases hone
              · cases hone
              · cases hone
              · rfl
            · rfl
          obtain ⟨ds, rfl⟩ := List.head?_eq_some_iff.mp hhead
          have hrule := Rule.ofText?_of_mem hw
          rw [Rule.ofText?_sign hstart fun _ h => absurd h hslash, Option.map_eq_some_iff] at hrule
          obtain ⟨s, hs, -⟩ := hrule
          obtain _ | ⟨d, _ | ⟨e, es⟩⟩ := ds
          · rw [show signOf? [c] = Sign.ofChar? c from rfl, hone] at hs
            cases hs
          · rw [show signOf? [c, d] = Sign.ofPair? c d from rfl, hnopair] at hs
            cases hs
          · cases hs

/-- **The front of a text is cut where its longest piece ends.** -/
theorem piece_cut (c : Char) (cs : List Char) : Cut c cs (piece c cs) := by
  by_cases hblank : isBlank c = true
  · unfold piece
    rw [if_pos hblank]
    have hmem := takeWhile_mem_run (q := isBlank) hblank cs
    rw [← take_length_takeWhile isBlank cs] at hmem
    exact ⟨.blanks, longest_of_start (Rule.ofStart?_blank hblank) hmem
      fun w => length_le_of_mem_run, rfl⟩
  by_cases hword : isWordStart c = true
  · unfold piece
    rw [if_neg hblank, if_pos hword]
    have hmem := takeWhile_mem_run (q := isWordPart) hword cs
    rw [← take_length_takeWhile isWordPart cs] at hmem
    exact ⟨.word, longest_of_start (Rule.ofStart?_word hword) hmem
      fun w => length_le_of_mem_run, rfl⟩
  by_cases hdigit : c.isDigit = true
  · unfold piece
    rw [if_neg hblank, if_neg hword, if_pos hdigit]
    exact cut_number hdigit cs
  by_cases hquote : c = '"'
  · subst hquote
    exact cut_string cs
  -- from here on the first character decides nothing by itself
  have hstart : Rule.ofStart? c = none := by
    unfold Rule.ofStart?
    rw [if_neg hblank, if_neg hword, if_neg hdigit, if_neg hquote]
  by_cases hline : ∃ ds, c = '/' ∧ cs = '/' :: ds
  · obtain ⟨ds, rfl, rfl⟩ := hline
    exact cut_lineComment ds
  by_cases hblock : ∃ ds, c = '/' ∧ cs = '*' :: ds
  · obtain ⟨ds, rfl, rfl⟩ := hblock
    exact cut_blockComment ds
  -- with comments excluded only a sign is left
  have hpiece : piece c cs = sign c cs := by
    unfold piece
    rw [if_neg hblank, if_neg hword, if_neg hdigit, if_neg hquote]
    split
    · exact absurd ⟨_, rfl, rfl⟩ hline
    · exact absurd ⟨_, rfl, rfl⟩ hblock
    · rfl
  rw [hpiece]
  exact cut_sign hstart fun ds hc =>
    ⟨fun hcs => hline ⟨ds, hc, hcs⟩, fun hcs => hblock ⟨ds, hc, hcs⟩⟩

theorem longest_of_piece {c : Char} {cs : List Char} {what : Piece} {n : Nat}
    (h : piece c cs = .ok (what, n)) :
    ∃ r, Longest r (c :: cs.take n) (cs.drop n) ∧ r.piece? (c :: cs.take n) = some what := by
  have hcut := piece_cut c cs
  rwa [h] at hcut

theorem stuck_of_piece {c : Char} {cs : List Char} {cause : CompileError.Cause}
    (h : piece c cs = .error cause) : Stuck (c :: cs) cause := by
  have hcut := piece_cut c cs
  rwa [h] at hcut

/-! ## The split of a text -/

/-- The text is blanks and comments in front of `rest`. -/
inductive Gap (rest : List Char) : List Char → Prop
  | nil : Gap rest []
  | cons {r : Rule} {w g : List Char} (hlongest : Longest r w (g ++ rest))
      (hpiece : r.piece? w = some .gap) (hrest : Gap rest g) : Gap rest (w ++ g)

/-- A text that starts at a position is gaps and lexemes in turn, **each of them the longest piece
at its place**, and these are its tokens. -/
inductive Split : Position → List Char → List Token → Prop
  | done {p : Position} {g : List Char} (hgap : Gap [] g) : Split p g [⟨.eof, "", p.after g⟩]
  | token {p : Position} {g w rest : List Char} {r : Rule} {kind : TokenKind} {tokens : List Token}
      (hgap : Gap (w ++ rest) g) (hlexeme : Longest r w rest)
      (hkind : r.piece? w = some (.token kind))
      (hrest : Split (p.after (g ++ w)) rest tokens) :
      Split p (g ++ (w ++ rest)) (⟨kind, String.ofList w, p.after g⟩ :: tokens)

theorem Split.gap {p : Position} {r : Rule} {w rest : List Char} {tokens : List Token}
    (h : Split (p.after w) rest tokens) (hlongest : Longest r w rest)
    (hpiece : r.piece? w = some .gap) : Split p (w ++ rest) tokens := by
  cases h with
  | done hrest =>
      rw [← Position.after_append]
      exact .done (.cons (by rwa [List.append_nil]) hpiece hrest)
  | token hrest hlexeme hkind htokens =>
      rw [← List.append_assoc, ← Position.after_append]
      refine .token (.cons hlongest hpiece hrest) hlexeme hkind ?_
      rwa [List.append_assoc, Position.after_append]

/-! ### Scanning a piece -/

section Scanning

variable {r : Rule} {w rest : List Char}

/-- The lexer takes the longest piece. -/
theorem piece_longest (h : Longest r w rest) {what : Piece} (hpiece : r.piece? w = some what) :
    ∃ c cs n, w ++ rest = c :: cs ∧ piece c cs = .ok (what, n) ∧ c :: cs.take n = w ∧
      cs.drop n = rest := by
  obtain ⟨c, v, rfl⟩ := List.exists_cons_of_ne_nil h.ne_nil
  cases hresult : piece c (v ++ rest) with
  | error cause =>
      have hstuck := stuck_of_piece hresult
      exact (hstuck.not_longest h rfl (Option.isSome_iff_exists.mpr ⟨_, hpiece⟩)).elim
  | ok result =>
      obtain ⟨r', hlongest, hwhat⟩ := longest_of_piece hresult
      obtain ⟨rfl, hw, hrest⟩ := h.unique hlongest (by simp)
      rw [← hw, hpiece] at hwhat
      cases hwhat
      exact ⟨c, _, _, rfl, hresult, hw.symm, hrest.symm⟩

theorem scan_gap (h : Longest r w rest) (hpiece : r.piece? w = some .gap) (p : Position) :
    scan p (w ++ rest) = scan (p.after w) rest := by
  obtain ⟨c, cs, n, htext, hresult, rfl, rfl⟩ := piece_longest h hpiece
  rw [htext, scan, hresult]

theorem scan_token (h : Longest r w rest) {kind : TokenKind}
    (hpiece : r.piece? w = some (.token kind)) (p : Position) :
    scan p (w ++ rest) =
      (scan (p.after w) rest).map fun tokens => ⟨kind, String.ofList w, p⟩ :: tokens := by
  obtain ⟨c, cs, n, htext, hresult, rfl, rfl⟩ := piece_longest h hpiece
  rw [htext, scan, hresult]
  dsimp only
  split
  · next herror => rw [herror, Except.map]
  · next htokens => rw [htokens, Except.map]

end Scanning

theorem Gap.scan_append {g rest : List Char} (h : Gap rest g) (p : Position) :
    scan p (g ++ rest) = scan (p.after g) rest := by
  induction h generalizing p with
  | nil => rfl
  | cons hlongest hpiece hrest ih =>
      rw [List.append_assoc, scan_gap hlongest hpiece, ih, Position.after_append]

/-! ### Whole texts -/

/-- The tokens that the lexer finds split the text. -/
theorem split_of_scan {p : Position} {cs : List Char} {tokens : List Token}
    (h : scan p cs = .ok tokens) : Split p cs tokens := by
  fun_induction scan p cs generalizing tokens with
  | case1 p =>
      cases h
      exact Split.done .nil
  | case2 p c cs cause hpiece => cases h
  | case3 p c cs n hpiece ih =>
      obtain ⟨r, hlongest, hwhat⟩ := longest_of_piece hpiece
      have hsplit := (ih h).gap hlongest hwhat
      rwa [List.cons_append, List.take_append_drop] at hsplit
  | case4 p c cs kind n hpiece => cases h
  | case5 p c cs kind n hpiece lexeme rest hrest =>
      rename_i ih
      cases h
      obtain ⟨r, hlongest, hwhat⟩ := longest_of_piece hpiece
      have hsplit : Split p ([] ++ (lexeme ++ cs.drop n))
          (⟨kind, String.ofList lexeme, p.after []⟩ :: rest) :=
        .token .nil hlongest hwhat (ih hrest)
      rwa [List.nil_append, List.cons_append, List.take_append_drop] at hsplit

/-- The lexer finds the tokens that split the text. -/
theorem scan_of_split {p : Position} {cs : List Char} {tokens : List Token}
    (h : Split p cs tokens) : scan p cs = .ok tokens := by
  induction h with
  | @done p g hgap =>
      have hskip := hgap.scan_append p
      rw [List.append_nil] at hskip
      rw [hskip, scan]
  | token hgap hlexeme hkind hrest ih =>
      rw [Position.after_append] at ih
      rw [hgap.scan_append, scan_token hlexeme hkind, ih]
      rfl

/-- A text without tokens has some up to a place, and gets stuck there. -/
theorem stuck_of_scan {p : Position} {cs : List Char} {e : CompileError} (h : scan p cs = .error e) :
    ∃ front rest, cs = front ++ rest ∧ (∃ tokens, scan p front = .ok tokens) ∧
      e.position = p.after front ∧ Stuck rest e.cause := by
  fun_induction scan p cs with
  | case1 p => cases h
  | case2 p c cs cause hpiece =>
      cases h
      exact ⟨[], c :: cs, rfl, ⟨_, scan.eq_1 p⟩, rfl, stuck_of_piece hpiece⟩
  | case3 p c cs n hpiece ih =>
      obtain ⟨r, hlongest, hwhat⟩ := longest_of_piece hpiece
      obtain ⟨front, rest, hdrop, ⟨tokens, htokens⟩, hposition, hstuck⟩ := ih h
      rw [hdrop] at hlongest
      refine ⟨c :: cs.take n ++ front, rest, ?_, ⟨tokens, ?_⟩, ?_, hstuck⟩
      · rw [List.append_assoc, ← hdrop, List.cons_append, List.take_append_drop]
      -- a piece that is longest in the whole text is longest in its front
      · rw [scan_gap hlongest.shorten hwhat, htokens]
      · rw [hposition, Position.after_append]
  | case4 p c cs kind n hpiece lexeme e' herror ih =>
      cases h
      obtain ⟨r, hlongest, hwhat⟩ := longest_of_piece hpiece
      obtain ⟨front, rest, hdrop, ⟨tokens, htokens⟩, hposition, hstuck⟩ := ih herror
      rw [hdrop] at hlongest
      refine ⟨lexeme ++ front, rest, ?_, ⟨⟨kind, String.ofList lexeme, p⟩ :: tokens, ?_⟩, ?_, hstuck⟩
      · show c :: cs = c :: cs.take n ++ front ++ rest
        rw [List.append_assoc, ← hdrop, List.cons_append, List.take_append_drop]
      · rw [scan_token hlongest.shorten hwhat, htokens, Except.map]
      · rw [hposition, Position.after_append]
  | case5 p c cs kind n hpiece lexeme tokens htokens => cases h

end Lexer

/-- **The tokens of a text are its only split into gaps and lexemes that are the longest at their
places. A text without tokens has some up to the position of the error, and there stands what the
error says**: a string or a block comment that is not closed, a numeral that is too large, or a
character that starts no token. -/
theorem tokenize_split (text : String) :
    (∀ tokens, tokenize text = .ok tokens ↔ Lexer.Split Position.start text.toList tokens) ∧
      ∀ e, tokenize text = .error e → ∃ front rest, text.toList = front ++ rest ∧
        (∃ tokens, tokenize (String.ofList front) = .ok tokens) ∧
        e.position = Position.start.after front ∧ Lexer.Stuck rest e.cause := by
  refine ⟨fun tokens => ⟨Lexer.split_of_scan, Lexer.scan_of_split⟩, fun e he => ?_⟩
  obtain ⟨front, rest, htext, htokens, hposition, hstuck⟩ := Lexer.stuck_of_scan he
  refine ⟨front, rest, htext, ?_, hposition, hstuck⟩
  unfold tokenize
  rwa [String.toList_ofList]

/-- A comment that is not closed, behind a word. -/
theorem tokenize_split_comment :
    tokenize "x /*" = .error ⟨.unterminatedComment, ⟨1, 3⟩⟩ ∧
      ∃ front rest, "x /*".toList = front ++ rest ∧
        (∃ tokens, tokenize (String.ofList front) = .ok tokens) ∧
        (⟨1, 3⟩ : Position) = Position.start.after front ∧
        Lexer.Stuck rest .unterminatedComment := by
  have hfound : (match tokenize "x /*" with
      | .ok _ => none
      | .error e => some e) = some (⟨.unterminatedComment, ⟨1, 3⟩⟩ : CompileError) := by
    decide +kernel
  have herror : tokenize "x /*" = .error ⟨.unterminatedComment, ⟨1, 3⟩⟩ := by
    split at hfound
    · cases hfound
    · next heq =>
      rw [heq, Option.some.inj hfound]
  exact ⟨herror, (tokenize_split "x /*").2 _ herror⟩

end Lipi
