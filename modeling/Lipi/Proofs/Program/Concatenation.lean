import Lipi.Proofs.Expr.Completeness
import Lipi.Proofs.Program.Diagnostics
import Lipi.Proofs.Program.RoundTrip

set_option autoImplicit false

/-! # Texts behind one another

**Two texts of which the first one ends with a semicolon are read one behind the other**
(`Program.ofText_append`). The tokens of the two are those of the whole text, and a reader of the
whole is in step with the reader of a part as long as it stands inside the part. A statement only
looks behind its last token where that is no semicolon, or for an `else`; and no program starts with
an `else`.
-/

namespace Lipi

open Token (nth breaksLine)

/-! ## A stretch of tokens -/

namespace Token

/-- The end token is the last one and no other. -/
theorem EndsOnce.kind_eof_iff {tokens : List Token} (h : EndsOnce tokens) {i : Nat}
    (hi : i < tokens.length) : (nth tokens.toArray i).kind = .eof ↔ i + 1 = tokens.length := by
  obtain ⟨front, last, rfl, hlast, hfront⟩ := h
  rw [List.length_append, List.length_singleton] at hi ⊢
  rw [nth, List.getElem?_toArray]
  by_cases hlt : i < front.length
  · rw [List.getElem?_append_left hlt, List.getElem?_eq_getElem hlt]
    exact iff_of_false (hfront _ (List.getElem_mem hlt)) (by omega)
  · obtain rfl : i = front.length := by omega
    rw [List.getElem?_concat_length]
    exact iff_of_true hlast rfl

theorem EndsOnce.length_pos {tokens : List Token} (h : EndsOnce tokens) : 0 < tokens.length := by
  obtain ⟨front, last, rfl, -, -⟩ := h
  rw [List.length_append, List.length_singleton]
  exact Nat.succ_pos _

/-- What a reader sees of a token. -/
def face (t : Token) : TokenKind × String :=
  (t.kind, t.lexeme)

/-- The first `k` tokens of a list, all but the end token, end with a semicolon. In the other list they
stand behind `d` tokens, and no `else` stands behind them. -/
structure Seam (ts us : List Token) (d k : Nat) : Prop where
  length_eq : ts.length = k + 1
  semicolon : (nth ts.toArray (k - 1)).kind = .sign .semicolon
  noElse : (nth us.toArray (d + k)).kind ≠ .keyword .warna

/-- The first `k` tokens of a list stand in another list behind `d` tokens: they look the same there
and have the same line breaks between them. They are all tokens, or all but the end token. -/
structure Stretch (ts us : List Token) (d k : Nat) : Prop where
  scanned : Scanned ts
  scanned' : Scanned us
  le : k ≤ ts.length
  fits : d + ts.length ≤ us.length
  faces : ∀ i < k, (nth us.toArray (d + i)).face = (nth ts.toArray i).face
  breaks : ∀ i, 0 < i → i < k → breaksLine us.toArray (d + i) = breaksLine ts.toArray i
  stops : k = ts.length ∨ Seam ts us d k

end Token

namespace Stream

variable {tokens : List Token} {s : Stream}

theorem peek_eq_nth (htokens : s.tokens = tokens.toArray) (hcursor : s.cursor < tokens.length) :
    s.peek = nth tokens.toArray s.cursor := by
  rw [peek_eq htokens hcursor, nth, List.getElem?_toArray, List.getElem?_eq_getElem hcursor]
  rfl

theorem nextKind_eq_nth (htokens : s.tokens = tokens.toArray) :
    s.nextKind = (nth tokens.toArray (s.cursor + 1)).kind := by
  unfold nextKind nth
  rw [htokens]
  cases tokens.toArray[s.cursor + 1]? <;> rfl

theorem atLineBreak_eq_nth (htokens : s.tokens = tokens.toArray)
    (hcursor : s.cursor < tokens.length) : s.atLineBreak = breaksLine tokens.toArray s.cursor := by
  unfold atLineBreak position
  rw [peek_eq_nth htokens hcursor]
  unfold previous?
  cases hprevious : s.cursor with
  | zero => rfl
  | succ i =>
      have hlt : i < tokens.toArray.size := by
        rw [List.size_toArray]
        omega
      have hbefore : tokens.toArray[i]? = some (nth tokens.toArray i) := by
        rw [nth, Array.getElem?_eq_getElem hlt]
        rfl
      dsimp only
      rw [htokens, hbefore]
      rfl

end Stream

/-- The left stream stands inside the stretch and the right one at the same place. Nothing has been
recorded on the right. -/
structure Stream.Along (ts us : List Token) (d k : Nat) (s s' : Stream) : Prop where
  tokens_eq : s.tokens = ts.toArray
  tokens_eq' : s'.tokens = us.toArray
  cursor_lt : s.cursor < k
  cursor_eq : s'.cursor = d + s.cursor
  errors : s'.errors = #[]

/-- Both streams stand behind the stretch, where the left one ends. -/
structure Stream.Beyond (ts us : List Token) (d k : Nat) (s s' : Stream) : Prop where
  seam : Token.Seam ts us d k
  tokens_eq : s.tokens = ts.toArray
  tokens_eq' : s'.tokens = us.toArray
  cursor_eq : s.cursor = k
  cursor_eq' : s'.cursor = d + k
  errors : s'.errors = #[]

namespace Stream.Along

variable {ts us : List Token} {d k : Nat} {s s' : Stream} (h : Token.Stretch ts us d k)

include h

theorem cursor_lt_length (hs : s.Along ts us d k s') : s.cursor < ts.length :=
  Nat.lt_of_lt_of_le hs.cursor_lt h.le

theorem cursor_lt_length' (hs : s.Along ts us d k s') : s'.cursor < us.length := by
  have hlt := hs.cursor_lt_length h
  have hfits := h.fits
  rw [hs.cursor_eq]
  omega

theorem face_eq (hs : s.Along ts us d k s') : s'.peek.face = s.peek.face := by
  rw [peek_eq_nth hs.tokens_eq (hs.cursor_lt_length h),
    peek_eq_nth hs.tokens_eq' (hs.cursor_lt_length' h), hs.cursor_eq, h.faces _ hs.cursor_lt]

theorem kind_eq (hs : s.Along ts us d k s') : s'.kind = s.kind :=
  congrArg Prod.fst (hs.face_eq h)

theorem lexeme_eq (hs : s.Along ts us d k s') : s'.peek.lexeme = s.peek.lexeme :=
  congrArg Prod.snd (hs.face_eq h)

theorem isWord_eq (hs : s.Along ts us d k s') : s'.peek.isWord = s.peek.isWord := by
  have hkind : s'.peek.kind = s.peek.kind := hs.kind_eq h
  unfold Token.isWord
  rw [hkind, hs.lexeme_eq h]

theorem isAtEnd_eq (hs : s.Along ts us d k s') : s'.isAtEnd = s.isAtEnd := by
  unfold isAtEnd
  rw [hs.kind_eq h]

/-- The stretch goes on behind a token that is neither the end nor a semicolon. -/
theorem succ_lt (hs : s.Along ts us d k s') (hend : s.isAtEnd = false)
    (hsemicolon : s.kind ≠ .sign .semicolon) : s.cursor + 1 < k := by
  have hlt := hs.cursor_lt
  rcases h.stops with hall | hseam
  · rw [hall]
    exact Stream.succ_lt h.scanned.ended hs.tokens_eq (hs.cursor_lt_length h) hend
  · by_contra hlast
    have hcursor : s.cursor = k - 1 := by omega
    apply hsemicolon
    unfold Stream.kind
    rw [peek_eq_nth hs.tokens_eq (hs.cursor_lt_length h), hcursor]
    exact hseam.semicolon

theorem nextKind_eq (hs : s.Along ts us d k s') (hlt : s.cursor + 1 < k) :
    s'.nextKind = s.nextKind := by
  rw [nextKind_eq_nth hs.tokens_eq, nextKind_eq_nth hs.tokens_eq', hs.cursor_eq, Nat.add_assoc]
  exact congrArg Prod.fst (h.faces _ hlt)

theorem atLineBreak_eq (hs : s.Along ts us d k s') (hpos : 0 < s.cursor) :
    s'.atLineBreak = s.atLineBreak := by
  rw [atLineBreak_eq_nth hs.tokens_eq (hs.cursor_lt_length h),
    atLineBreak_eq_nth hs.tokens_eq' (hs.cursor_lt_length' h), hs.cursor_eq,
    h.breaks _ hpos hs.cursor_lt]

theorem bound_le (hs : s.Along ts us d k s') : s.bound ≤ s'.bound := by
  have hfits := h.fits
  have hlt := hs.cursor_lt_length h
  unfold bound
  rw [hs.tokens_eq, hs.tokens_eq', hs.cursor_eq, List.size_toArray, List.size_toArray]
  omega

theorem advance (hs : s.Along ts us d k s') (hend : s.isAtEnd = false) (hlt : s.cursor + 1 < k) :
    s.advance.Along ts us d k s'.advance ∧ 0 < s.advance.cursor := by
  have hend' : s'.isAtEnd = false := (hs.isAtEnd_eq h).trans hend
  rw [advance_eq hend, advance_eq hend']
  exact ⟨⟨hs.tokens_eq, hs.tokens_eq', hlt, by rw [hs.cursor_eq, Nat.add_assoc], hs.errors⟩,
    Nat.succ_pos _⟩

/-- Behind a semicolon the stretch goes on, or the left stream has come to its end. -/
theorem semicolon (hs : s.Along ts us d k s') (hkind : s.kind = .sign .semicolon) :
    (s.advance.Along ts us d k s'.advance ∧ 0 < s.advance.cursor) ∨
      s.advance.Beyond ts us d k s'.advance := by
  have hend : s.isAtEnd = false := Parser.isAtEnd_of_kind hkind (by simp)
  have hlt := hs.cursor_lt
  by_cases hgoes : s.cursor + 1 < k
  · exact .inl (hs.advance h hend hgoes)
  · have hend' : s'.isAtEnd = false := (hs.isAtEnd_eq h).trans hend
    have hlast : s.cursor + 1 = k := by omega
    have hseam := h.stops.resolve_left fun hall => by
      have hsucc := Stream.succ_lt h.scanned.ended hs.tokens_eq (hs.cursor_lt_length h) hend
      omega
    rw [advance_eq hend, advance_eq hend']
    exact .inr ⟨hseam, hs.tokens_eq, hs.tokens_eq', hlast,
      by rw [← hlast, ← Nat.add_assoc, hs.cursor_eq], hs.errors⟩

end Stream.Along

namespace Stream.Beyond

variable {ts us : List Token} {d k : Nat} {s s' : Stream} (h : Token.Stretch ts us d k)
  (hs : s.Beyond ts us d k s')

include h hs

theorem isAtEnd : s.isAtEnd = true := by
  have hlength := hs.seam.length_eq
  have hcursor := hs.cursor_eq
  rw [isAtEnd_iff, Stream.kind, peek_eq_nth hs.tokens_eq (by omega),
    h.scanned.ended.kind_eof_iff (by omega)]
  omega

theorem noElse : s'.kind ≠ .keyword .warna := by
  have hlength := hs.seam.length_eq
  have hcursor := hs.cursor_eq'
  have hfits := h.fits
  rw [Stream.kind, peek_eq_nth hs.tokens_eq' (by omega), hcursor]
  exact hs.seam.noElse

end Stream.Beyond

/-- A reading of the part and a reading of the whole, in step as long as they stand inside the
part. -/
def Tandem.along {ts us : List Token} {d k : Nat} (h : Token.Stretch ts us d k) : Tandem where
  lenient := True
  name := Eq
  entry := Stream.Along ts us d k
  midway s s' := s.Along ts us d k s' ∧ 0 < s.cursor
  beyond := Stream.Beyond ts us d k
  name_refl _ _ := rfl
  entry_of_midway hs := hs.1
  kind hs := hs.kind_eq h
  nextKind hs hend hsemicolon := hs.nextKind_eq h (hs.succ_lt h hend hsemicolon)
  lineBreak hs _ := hs.1.atLineBreak_eq h hs.2
  bound_le hs := hs.bound_le h
  bound_eq _ hstrict := absurd trivial hstrict
  advance hs hend hsemicolon := hs.advance h hend (hs.succ_lt h hend hsemicolon)
  semicolon hs hkind := hs.semicolon h hkind
  of_beyond hs := ⟨trivial, hs.isAtEnd h, hs.noElse h⟩
  isWord hs := hs.isWord_eq h
  word {s s'} hs hword := by
    refine ⟨fun hkind => ?_, (hs.lexeme_eq h).symm⟩
    have hkind : s.peek.kind = .sign .semicolon := hkind
    have hmem : s.peek ∈ ts := by
      rw [Stream.peek_eq hs.tokens_eq (hs.cursor_lt_length h)]
      exact List.getElem_mem _
    rw [(h.scanned.lexed _ hmem).isWord_iff, hkind] at hword
    simp at hword
  recover hstrict := absurd trivial hstrict

/-! ## The loop over a program -/

namespace Parser

variable {n m : Nat} {previous previous' : List Statement} {s s' t : Stream} {q : Program}

/-- A round of a loop that reads a program without errors reads a statement without errors. -/
theorem programBody_ok_round (hs : s.Lexed) (hends : endsProgram s = false)
    (h : programBody false (n + 1) previous s = .ok q) :
    ∃ statement t, declaration true s = .ok statement t ∧ t.errors.size = 0 ∧
      programBody false n (statement :: previous) t = .ok q := by
  rw [programBody_succ hends] at h
  cases hrun : declaration true s with
  | ok statement t =>
      rw [hrun] at h
      have hlexed := hs.keeps ((steady_declaration true).ok hrun)
      exact ⟨statement, t, rfl, (programBody_ok hlexed h).1, h⟩
  | error e t =>
      rw [hrun, afterRound] at h
      split at h
      · next previous' s' heq =>
        split at heq
        · cases heq
        · -- what is recorded stays recorded
          cases heq
          have hlexed := (hs.keeps ((steady_declaration true).error hrun)).keeps (.recover t e false)
          have hnone := (programBody_ok hlexed h).1
          have hsome := t.errors_lt_recover e false
          omega
      · cases h

theorem programBody_ok_end (hkind : s.kind = .eof)
    (h : programBody false (n + 1) previous s = .ok q) : q = ⟨previous.reverse, false⟩ := by
  simp only [programBody, hkind] at h
  exact (conclude_ok h).2

section Stretch

variable {ts us : List Token} {d k : Nat} (h : Token.Stretch ts us d k)

include h

/-- Where the right stream stands behind the statements of the part. -/
theorem eq_goto (htokens : s'.tokens = us.toArray) (hcursor : s'.cursor + 1 = d + ts.length)
    (herrors : s'.errors = #[]) : s' = (Stream.ofTokens us).goto (d + (ts.length - 1)) := by
  obtain ⟨_, cursor, _⟩ := s'
  cases htokens
  cases herrors
  have hpos := h.scanned.ended.length_pos
  dsimp only at hcursor
  obtain rfl : cursor = d + (ts.length - 1) := by omega
  rfl

omit h in
theorem within_of_quiet (hended : Token.EndsOnce us) (htokens : s'.tokens = us.toArray)
    (hcursor : s'.cursor < us.length) (herrors : s'.errors = #[]) : s'.Within us :=
  ⟨hended, htokens, hcursor, by simp [herrors]⟩

/-- **Reading the whole from where a part starts is reading the statements of the part, and then what
stands behind it.** -/
theorem programBody_along (hs : s.Along ts us d k s' ∨ s.Beyond ts us d k s') (hm : s'.left ≤ m)
    (hrun : programBody false n previous s = .ok q) :
    let t := (Stream.ofTokens us).goto (d + (ts.length - 1))
    ∃ new new', q = ⟨previous.reverse ++ new, false⟩ ∧
      List.Forall₂ (Statement.Renamed Eq) new new' ∧
      ∀ previous', programBody false m previous' s' =
        programBody false t.left (new'.reverse ++ previous') t := by
  intro t
  induction n generalizing m previous s s' with
  | zero => exact absurd hrun fatal_ne_ok
  | succ n ih =>
      -- both streams have come to the end of the part
      have harrived : s.kind = .eof → s'.tokens = us.toArray → s'.cursor + 1 = d + ts.length →
          s'.errors = #[] → ∃ new new', q = ⟨previous.reverse ++ new, false⟩ ∧
          List.Forall₂ (Statement.Renamed Eq) new new' ∧
          ∀ previous', programBody false m previous' s' =
            programBody false t.left (new'.reverse ++ previous') t := by
        intro hkind htokens hcursor herrors
        have hfits := h.fits
        have hwithin := within_of_quiet h.scanned'.ended htokens (by omega) herrors
        refine ⟨[], [], ?_, .nil, fun previous' => ?_⟩
        · rw [List.append_nil]
          exact programBody_ok_end hkind hrun
        · rw [(advances hwithin).program false previous' m hm, eq_goto h htokens hcursor herrors]
          rfl
      rcases hs with hs | hs
      · have hkind := hs.kind_eq h
        cases hends : endsProgram s with
        | true =>
            unfold endsProgram at hends
            split at hends
            · next heof =>
              refine harrived heof hs.tokens_eq' ?_ hs.errors
              have hlt := hs.cursor_lt_length h
              have hlast := (h.scanned.ended.kind_eof_iff hlt).mp
                (by rw [← Stream.peek_eq_nth hs.tokens_eq hlt]; exact heof)
              rw [hs.cursor_eq]
              omega
            · next hkhatam =>
              simp only [programBody, hkhatam] at hrun
              exact absurd hrun fatal_ne_ok
            · cases hends
        | false =>
            have hends' : endsProgram s' = false := by
              rw [← hends]
              unfold endsProgram
              rw [hkind]
            have hlexed : s.Lexed := by
              intro t ht
              rw [hs.tokens_eq] at ht
              exact h.scanned.lexed t (List.mem_toArray.mp ht)
            have hwithin := within_of_quiet h.scanned'.ended hs.tokens_eq'
              (hs.cursor_lt_length' h) hs.errors
            obtain ⟨statement, s₁, hread, hquiet, hrest⟩ := programBody_ok_round hlexed hends hrun
            have hmeets := (Tandem.runs_declaration (T := .along h) true).meets s s' hs
            have hmoves := (advances hwithin).declaration true
            rw [hread] at hmeets
            generalize hread' : declaration true s' = r' at hmeets hmoves
            cases hmeets with
            | lost hlost => exact absurd hquiet (Nat.ne_of_gt hlost.2)
            | @ok _ statement' _ s₁' hsame hs₁ =>
                obtain ⟨hwithin₁, hcursor⟩ := hmoves
                have hleft := hwithin.left_eq
                have hleft₁ := hwithin₁.left_eq
                have hlt := hwithin.cursor_lt
                obtain ⟨m, rfl⟩ : ∃ i, m = i + 1 := ⟨m - 1, by omega⟩
                obtain ⟨new, new', rfl, hnew, hgoes⟩ :=
                  ih (hs₁.imp_left And.left) (m := m) (by omega) hrest
                refine ⟨statement :: new, statement' :: new', by simp, .cons hsame hnew,
                  fun previous' => ?_⟩
                rw [programBody_succ hends', hread', afterRound]
                dsimp only
                rw [hgoes]
                simp
      · have hkind : s.kind = .eof := (s.isAtEnd_iff).mp (hs.isAtEnd h)
        refine harrived hkind hs.tokens_eq' ?_ hs.errors
        rw [hs.cursor_eq', hs.seam.length_eq, Nat.add_assoc]

end Stretch

end Parser

/-! ## What a program starts with -/

/-- No statement starts with an `else`. -/
theorem Parser.declaration_noElse {s t : Stream} (hs : s.Ended) {statement : Statement}
    (h : declaration true s = .ok statement t) : s.kind ≠ .keyword .warna := by
  intro hkind
  have hstatement : statementOf (declarationWithin (s.tokens.size - s.cursor + 3)) true s =
      .ok statement t := h
  simp only [statementOf, hkind] at hstatement
  obtain ⟨e, s₁, hread, -⟩ := bind_ok (x := expression) hstatement
  obtain ⟨j, -, hwhole⟩ := expression_parsed hs (i := s.cursor) hread
  have hfirst := hwhole.spells.first
  rw [← hs.kind, Stream.goto_cursor, hkind] at hfirst
  cases hfirst

namespace Program

variable {tokens : List Token} {p q : Program}

/-- A program without markers is read from its first token on, which is no `else`. -/
theorem ofTokens_unmarked (hscanned : Token.Scanned tokens) (h : ofTokens tokens = .ok p)
    (hmarkers : p.markers = false) :
    let s := Stream.ofTokens tokens
    s.check (.keyword .shuru) = false ∧ s.kind ≠ .keyword .warna ∧
      Parser.programBody false s.bound [] s = .ok p := by
  intro s
  have hlexed : s.Lexed := fun t ht => hscanned.lexed t (List.mem_toArray.mp ht)
  unfold ofTokens at h
  dsimp only at h
  cases hcheck : s.check (.keyword .shuru) with
  | true =>
      rw [if_pos hcheck] at h
      obtain ⟨-, us, rfl, -⟩ := Parser.programBody_ok (hlexed.keeps (.advance s)) h
      cases hmarkers
  | false =>
      rw [if_neg (Bool.eq_false_iff.mp hcheck)] at h
      refine ⟨rfl, fun hkind => ?_, h⟩
      have hends : Parser.endsProgram s = false := by
        unfold Parser.endsProgram
        rw [hkind]
      obtain ⟨statement, t, hread, -⟩ := Parser.programBody_ok_round hlexed hends h
      have hended : s.Ended := by
        obtain ⟨front, last, rfl, hlast, -⟩ := hscanned.ended
        exact ⟨last, by simp [s, Stream.ofTokens], hlast⟩
      exact Parser.declaration_noElse hended hread hkind

end Program

/-! ## The tokens of two texts -/

namespace Token

variable {front rest : List Token}

theorem nth_append_left {i : Nat} (hi : i < front.length) :
    nth (front ++ rest).toArray i = nth front.toArray i := by
  rw [nth, nth, List.getElem?_toArray, List.getElem?_toArray, List.getElem?_append_left hi]

theorem nth_append_right (i : Nat) :
    nth (front ++ rest).toArray (front.length + i) = nth rest.toArray i := by
  rw [nth, nth, List.getElem?_toArray, List.getElem?_toArray, List.getElem?_append_right (by omega),
    Nat.add_sub_cancel_left]

theorem nth_map_down (j : Nat) {i : Nat} (hi : i < rest.length) :
    nth (rest.map (down j)).toArray i = (nth rest.toArray i).down j := by
  rw [nth, nth, List.getElem?_toArray, List.getElem?_toArray, List.getElem?_map,
    List.getElem?_eq_getElem hi]
  rfl

/-- Whether a token breaks the line is seen from it and from the token in front of it. -/
theorem breaksLine_down (j : Nat) (t u : Token) :
    decide ((t.down j).endLine < (u.down j).position.line) = decide (t.endLine < u.position.line) := by
  unfold endLine down Position.down
  dsimp only
  rw [decide_eq_decide]
  omega

variable {last : Token} {j : Nat}

theorem length_pos_of_semicolon {i : Nat} (h : (nth front.toArray i).kind = .sign .semicolon) :
    0 < front.length := by
  have hlt : i < front.toArray.size := Stream.lt_of_kind (by rw [h]; simp)
  rw [List.size_toArray] at hlt
  exact Nat.zero_lt_of_lt hlt

/-- The first text, which ends with a semicolon, in front of the second one. -/
theorem stretch_front (hts : Scanned (front ++ [last])) (hus : Scanned (front ++ rest))
    (hrest : 0 < rest.length)
    (hsemicolon : (nth front.toArray (front.length - 1)).kind = .sign .semicolon)
    (hnone : (nth rest.toArray 0).kind ≠ .keyword .warna) :
    Stretch (front ++ [last]) (front ++ rest) 0 front.length := by
  have hpos := length_pos_of_semicolon hsemicolon
  have hnth : ∀ i < front.length,
      nth (front ++ rest).toArray (0 + i) = nth (front ++ [last]).toArray i := by
    intro i hi
    rw [Nat.zero_add, nth_append_left hi, nth_append_left hi]
  refine ⟨hts, hus, by simp, ?_, fun i hi => congrArg face (hnth i hi), ?_, .inr ⟨by simp, ?_, ?_⟩⟩
  · rw [List.length_append, List.length_append, List.length_singleton]
    omega
  · intro i _ hi
    cases i with
    | zero => rfl
    | succ i =>
        rw [← Nat.add_assoc, breaksLine, breaksLine, hnth i (by omega), Nat.add_assoc,
          hnth (i + 1) hi]
  · rw [nth_append_left (by omega)]
    exact hsemicolon
  · rw [Nat.zero_add]
    exact (nth_append_right 0 : nth (front ++ rest).toArray front.length = _) ▸ hnone

/-- The second text behind the first one. -/
theorem stretch_back (hts : Scanned rest) (hus : Scanned (front ++ rest.map (down j))) :
    Stretch rest (front ++ rest.map (down j)) front.length rest.length := by
  have hnth : ∀ i < rest.length,
      nth (front ++ rest.map (down j)).toArray (front.length + i) = (nth rest.toArray i).down j :=
    fun i hi => (nth_append_right i).trans (nth_map_down j hi)
  refine ⟨hts, hus, Nat.le_refl _, by simp, fun i hi => ?_, fun i hpos hi => ?_, .inl rfl⟩
  · rw [hnth i hi]
    rfl
  · obtain ⟨i, rfl⟩ : ∃ l, i = l + 1 := ⟨i - 1, by omega⟩
    rw [← Nat.add_assoc, breaksLine, breaksLine, hnth i (by omega), Nat.add_assoc, hnth (i + 1) hi,
      breaksLine_down]

end Token

/-- **The tokens of two texts behind one another** are those of the first one and, further down, those
of the second one. -/
theorem tokenize_lines {text text' : String} {ts us : List Token} (h : tokenize text = .ok ts)
    (h' : tokenize text' = .ok us) : ∃ front last j, ts = front ++ [last] ∧
      tokenize (text ++ "\n" ++ text') = .ok (front ++ us.map (Token.down j)) := by
  obtain ⟨front, rfl, hlines⟩ := Lexer.scan_lines h
  refine ⟨front, _, (Position.start.after text.toList).line, rfl, ?_⟩
  have hstart : (Position.start.after text.toList).advance '\n' =
      Position.start.down (Position.start.after text.toList).line := by
    unfold Position.advance Position.down
    rw [if_pos rfl, Nat.add_comm]
    rfl
  have htext : (text ++ "\n" ++ text').toList = text.toList ++ '\n' :: text'.toList := by
    simp [String.toList_append]
  unfold tokenize
  rw [htext, hlines, hstart, Lexer.scan_down _ h']
  rfl

namespace Program

/-- At the end of the tokens the program is concluded. -/
theorem programBody_last {tokens : List Token} (h : Token.EndsOnce tokens)
    (previous : List Statement) :
    let t := (Stream.ofTokens tokens).goto (tokens.length - 1)
    Parser.programBody false t.left previous t = .ok ⟨previous.reverse, false⟩ := by
  intro t
  have hpos := h.length_pos
  have hleft : t.left = 0 + 1 := by
    show tokens.toArray.size - (tokens.length - 1) = _
    rw [List.size_toArray]
    omega
  have hkind : t.kind = .eof := by
    have hcursor : t.cursor < tokens.length := by
      show tokens.length - 1 < _
      omega
    have hpeek : t.peek = nth tokens.toArray t.cursor := Stream.peek_eq_nth rfl hcursor
    unfold Stream.kind
    rw [hpeek, h.kind_eof_iff hcursor]
    show tokens.length - 1 + 1 = _
    omega
  rw [hleft, Parser.programBody_of_ends (by simp [Parser.endsProgram, hkind])]
  unfold Parser.ending
  rw [hkind]
  rfl

theorem tokenize_of_ofText {text : String} {p : Program} (h : ofText text = .ok p) :
    ∃ tokens, tokenize text = .ok tokens ∧ ofTokens tokens = .ok p := by
  unfold ofText at h
  split at h
  · next tokens htokens => exact ⟨tokens, htokens, h⟩
  · cases h

/-- The tokens of two programs, behind one another. -/
theorem ofTokens_append {front rest : List Token} {last : Token} {j : Nat} {p q : Program}
    (hfront : Token.Scanned (front ++ [last])) (hrest : Token.Scanned rest)
    (hwhole : Token.Scanned (front ++ rest.map (Token.down j)))
    (hp : ofTokens (front ++ [last]) = .ok p) (hq : ofTokens rest = .ok q)
    (hpm : p.markers = false) (hqm : q.markers = false)
    (hsemicolon : (nth front.toArray (front.length - 1)).kind = .sign .semicolon) :
    ∃ c, ofTokens (front ++ rest.map (Token.down j)) = .ok c ∧ c.markers = false ∧
      List.Forall₂ (Statement.Renamed Eq) (p.body ++ q.body) c.body := by
  obtain ⟨hcheck, -, hbody⟩ := ofTokens_unmarked hfront hp hpm
  obtain ⟨-, hnone, hbody'⟩ := ofTokens_unmarked hrest hq hqm
  have hpos := hrest.ended.length_pos
  have hnone' : (nth (rest.map (Token.down j)).toArray 0).kind ≠ .keyword .warna := by
    rw [Token.nth_map_down j hpos]
    have hpeek : (Stream.ofTokens rest).peek = nth rest.toArray 0 := Stream.peek_eq_nth rfl hpos
    unfold Stream.kind at hnone
    rw [hpeek] at hnone
    exact hnone
  -- both parts stand in the whole
  have hstretch := Token.stretch_front hfront hwhole (by simpa using hpos) hsemicolon hnone'
  have hstretch' := Token.stretch_back hrest hwhole
  generalize hws : front ++ rest.map (Token.down j) = ws at hwhole hstretch hstretch'
  have hlength : ws.length = front.length + rest.length := by
    rw [← hws, List.length_append, List.length_map]
  have hstart : (Stream.ofTokens (front ++ [last])).Along (front ++ [last]) ws 0 front.length
      (Stream.ofTokens ws) :=
    ⟨rfl, rfl, Token.length_pos_of_semicolon hsemicolon, rfl, rfl⟩
  have hbound : (Stream.ofTokens ws).left ≤ (Stream.ofTokens ws).bound := Nat.le_add_right _ 4
  obtain ⟨new, new', rfl, hnew, hgoes⟩ :=
    Parser.programBody_along hstretch (.inl hstart) hbound hbody
  have hseam : (0 + ((front ++ [last]).length - 1)) = front.length := by
    simp
  rw [hseam] at hgoes
  have hnext : (Stream.ofTokens rest).Along rest ws front.length rest.length
      ((Stream.ofTokens ws).goto front.length) :=
    ⟨rfl, rfl, hpos, rfl, rfl⟩
  obtain ⟨more, more', rfl, hmore, hgoes'⟩ :=
    Parser.programBody_along hstretch' (.inl hnext) (Nat.le_refl _) hbody'
  have hend : front.length + (rest.length - 1) = ws.length - 1 := by
    omega
  rw [hend] at hgoes'
  refine ⟨⟨new' ++ more', false⟩, ?_, rfl, List.rel_append hnew hmore⟩
  have hcheck' : ¬(Stream.ofTokens ws).check (.keyword .shuru) = true := by
    unfold Stream.check
    rw [hstart.kind_eq hstretch]
    exact Bool.eq_false_iff.mp hcheck
  unfold ofTokens
  dsimp only
  rw [if_neg hcheck', hgoes, hgoes', programBody_last hwhole.ended]
  simp

/-- **A text, the end of a line and another text are read as the statements of both**, if no
program markers stand around them and the last token of the first one is a semicolon. -/
theorem ofText_append {text text' : String} {p q : Program} {ts : List Token}
    (hts : tokenize text = .ok ts)
    (hlast : ts.dropLast.getLast?.map Token.kind = some (.sign .semicolon))
    (hp : ofText text = .ok p) (hq : ofText text' = .ok q) (hpm : p.markers = false)
    (hqm : q.markers = false) :
    ∃ c, ofText (text ++ "\n" ++ text') = .ok c ∧ c.markers = false ∧
      List.Forall₂ (Statement.Renamed Eq) (p.body ++ q.body) c.body := by
  obtain ⟨us, hus, hq⟩ := tokenize_of_ofText hq
  obtain ⟨front, last, j, rfl, hwhole⟩ := tokenize_lines hts hus
  unfold ofText at hp ⊢
  rw [hts] at hp
  rw [hwhole]
  refine ofTokens_append (scanned_of_tokenize hts) (scanned_of_tokenize hus)
    (scanned_of_tokenize hwhole) hp hq hpm hqm ?_
  rw [List.dropLast_concat, List.getLast?_eq_getElem?] at hlast
  obtain ⟨t, ht, hkind⟩ := Option.map_eq_some_iff.mp hlast
  rw [nth, List.getElem?_toArray, ht]
  exact hkind

end Program

end Lipi
