import Lipi.Proofs.Expr.Grammar
import Lipi.Proofs.Program.Termination
import Lipi.Proofs.Statement.Tandem
import Lipi.Proofs.Token.Positions

set_option autoImplicit false

/-! # The errors that a reading reports

**The errors of a text are reported in the order of the text, each at a token, and a fatal one can
only be the last** (`Program.ofText_reports`), however deep the block is in which it was met.

The invariant is that the errors recorded so far are in order, not fatal, and not behind the current
token. It is carried through all readers at once by reading two streams in step, whose tokens show a
reader the same; for the errors of one text, both streams are that text. `programReading` is the loop
over a program with its last stream as a result, so that what has been recorded can be spoken of where
reading succeeds, too.
-/

namespace Lipi

/-! ## Errors in order -/

/-- Errors stand at tokens, one behind the other, and only the last one may be fatal. -/
structure CompileError.Orderly (tokens : List Token) (errors : List CompileError) : Prop where
  sorted : errors.Pairwise fun e e' => e.position ≤ e'.position
  stands : ∀ e ∈ errors, ∃ t ∈ tokens, e.position = t.position
  goesOn : ∀ e ∈ errors.dropLast, e.isFatal = false

/-- The cursor is on one of the tokens. The errors recorded so far stand at tokens, one behind the
other, and not behind the current token. None of them is fatal. -/
structure Stream.InOrder (tokens : List Token) (s : Stream) : Prop where
  tokens_eq : s.tokens = tokens.toArray
  cursor_lt : s.cursor < tokens.length
  sorted : s.errors.toList.Pairwise fun e e' => e.position ≤ e'.position
  behind : ∀ e ∈ s.errors.toList, e.position ≤ s.position
  stands : ∀ e ∈ s.errors.toList, ∃ t ∈ tokens, e.position = t.position
  goesOn : ∀ e ∈ s.errors.toList, e.isFatal = false

namespace Stream

variable {tokens : List Token} {s : Stream}

theorem errors_record (s : Stream) (e : CompileError) :
    (s.record e).errors.toList = s.errors.toList ++ [e] :=
  Array.toList_push

theorem peek_eq (htokens : s.tokens = tokens.toArray) (hcursor : s.cursor < tokens.length) :
    s.peek = tokens[s.cursor] := by
  unfold peek
  rw [htokens, List.getElem?_toArray, List.getElem?_eq_getElem hcursor]
  rfl

theorem advance_eq (hend : s.isAtEnd = false) : s.advance = { s with cursor := s.cursor + 1 } :=
  if_neg (by simp [hend])

/-- The end token is the last one, so the cursor is not on the last token in front of it. -/
theorem succ_lt (hended : Token.EndsOnce tokens) (htokens : s.tokens = tokens.toArray)
    (hcursor : s.cursor < tokens.length) (hend : s.isAtEnd = false) :
    s.cursor + 1 < tokens.length := by
  have hquiet : ({ s with errors := #[] } : Stream).Within tokens :=
    ⟨hended, htokens, hcursor, by simp⟩
  exact hquiet.succ_lt hend

namespace InOrder

theorem peek_mem (h : s.InOrder tokens) : s.peek ∈ tokens :=
  peek_eq h.tokens_eq h.cursor_lt ▸ List.getElem_mem h.cursor_lt

/-- What has been recorded is orderly. -/
theorem orderly (h : s.InOrder tokens) : CompileError.Orderly tokens s.errors.toList :=
  ⟨h.sorted, h.stands, fun e he => h.goesOn e (List.mem_of_mem_dropLast he)⟩

/-- So it is with one more error, even if that one is fatal. -/
theorem orderly_record (h : s.InOrder tokens) {e : CompileError} (he : e.position = s.position) :
    CompileError.Orderly tokens (s.record e).errors.toList := by
  rw [errors_record]
  refine ⟨?_, ?_, ?_⟩
  · refine List.pairwise_append.mpr ⟨h.sorted, List.pairwise_singleton _ _, fun e₁ h₁ e₂ h₂ => ?_⟩
    rw [List.mem_singleton.mp h₂, he]
    exact h.behind e₁ h₁
  · refine List.forall_mem_append.mpr ⟨h.stands, List.forall_mem_singleton.mpr ?_⟩
    exact ⟨s.peek, h.peek_mem, he⟩
  · rw [List.dropLast_concat]
    exact h.goesOn

theorem record (h : s.InOrder tokens) {e : CompileError} (he : e.position = s.position)
    (hfatal : e.isFatal = false) : (s.record e).InOrder tokens := by
  have horderly := h.orderly_record he
  refine ⟨h.tokens_eq, h.cursor_lt, horderly.sorted, ?_, horderly.stands, ?_⟩
  · rw [errors_record]
    exact List.forall_mem_append.mpr ⟨h.behind, List.forall_mem_singleton.mpr (he ▸ le_refl _)⟩
  · rw [errors_record]
    exact List.forall_mem_append.mpr ⟨h.goesOn, List.forall_mem_singleton.mpr hfatal⟩

/-- The next token does not stand in front of the current one. -/
theorem advance (hscanned : Token.Scanned tokens) (h : s.InOrder tokens) :
    s.advance.InOrder tokens := by
  cases hend : s.isAtEnd with
  | true =>
      have hstays : s.advance = s := if_pos hend
      rwa [hstays]
  | false =>
      have hmoves := advance_eq hend
      have hlt := succ_lt hscanned.ended h.tokens_eq h.cursor_lt hend
      have hle : s.position ≤ s.advance.position := by
        rw [hmoves]
        unfold Stream.position
        rw [peek_eq h.tokens_eq h.cursor_lt,
          peek_eq (s := { s with cursor := s.cursor + 1 }) h.tokens_eq hlt]
        exact List.pairwise_iff_getElem.mp hscanned.sorted _ _ h.cursor_lt hlt (Nat.lt_succ_self _)
      have hbehind : ∀ e ∈ s.errors.toList, e.position ≤ s.advance.position := fun e he =>
        (h.behind e he).trans hle
      rw [hmoves] at hbehind ⊢
      exact ⟨h.tokens_eq, hlt, h.sorted, hbehind, h.stands, h.goesOn⟩

end InOrder

end Stream

/-! ## Tokens that show a reader the same -/

namespace Token

/-- Tokens with the same index in two lists. -/
def Paired (ts us : List Token) (t u : Token) : Prop :=
  ∃ i : Nat, ts[i]? = some t ∧ us[i]? = some u

/-- Texts of tokens with the same index in two lists. -/
def PairedLexemes (ts us : List Token) (x y : String) : Prop :=
  ∃ t u, Paired ts us t u ∧ x = t.lexeme ∧ y = u.lexeme

/-- Whether the token with an index starts on a later line than the one on which the token in front
of it ends. -/
def breaksAt (tokens : List Token) (i : Nat) : Bool :=
  ((Stream.ofTokens tokens).goto i).atLineBreak

/-- The tokens of two texts are of the same kind at every place and stand alike with respect to the
ends of lines. -/
structure Interchangeable (ts us : List Token) : Prop where
  scanned : Scanned ts
  scanned' : Scanned us
  kinds : us.map Token.kind = ts.map Token.kind
  breaks : ∀ i < ts.length, breaksAt us i = breaksAt ts i

theorem Interchangeable.refl {tokens : List Token} (h : Scanned tokens) :
    Interchangeable tokens tokens :=
  ⟨h, h, rfl, fun _ _ => rfl⟩

theorem Interchangeable.length_eq {ts us : List Token} (h : Interchangeable ts us) :
    us.length = ts.length := by
  simpa using congrArg List.length h.kinds

/-- Whether a token of a text can name a member depends on its kind only. -/
theorem Lexed.isWord_iff {t : Token} (h : t.Lexed) : t.isWord = true ↔
    (∃ name, t.kind = .identifier name) ∨ ∃ word, t.kind = .keyword word := by
  unfold Lexed at h
  unfold isWord
  split <;> rename_i hkind <;> simp only [hkind] at h ⊢
  · simp
  · simpa using Keyword.isAlpha_of_ofWord? h.2
  · simp [h]
  all_goals simp

end Token

/-- Two errors of the same sort at tokens with the same index. -/
def CompileError.Corresponds (ts us : List Token) (e e' : CompileError) : Prop :=
  e'.cause.sort = e.cause.sort ∧
    ∃ t u, Token.Paired ts us t u ∧ e.position = t.position ∧ e'.position = u.position

theorem Stream.InOrder.atLineBreak_eq {tokens : List Token} {s : Stream} (h : s.InOrder tokens) :
    s.atLineBreak = Token.breaksAt tokens s.cursor := by
  obtain ⟨_, cursor, errors⟩ := s
  cases h.tokens_eq
  rfl

/-- Two streams at the same place in two lists of tokens. What has been recorded is in order in
both of them and corresponds. -/
structure Stream.Abreast (ts us : List Token) (s s' : Stream) : Prop where
  inOrder : s.InOrder ts
  inOrder' : s'.InOrder us
  cursor_eq : s'.cursor = s.cursor
  errors : List.Forall₂ (CompileError.Corresponds ts us) s.errors.toList s'.errors.toList

namespace Stream.Abreast

variable {ts us : List Token} {s s' : Stream}

/-- The current tokens have the same index. -/
theorem paired (h : s.Abreast ts us s') : Token.Paired ts us s.peek s'.peek := by
  refine ⟨s.cursor, ?_, ?_⟩
  · rw [peek_eq h.inOrder.tokens_eq h.inOrder.cursor_lt, List.getElem?_eq_getElem]
  · rw [peek_eq h.inOrder'.tokens_eq h.inOrder'.cursor_lt, ← h.cursor_eq, List.getElem?_eq_getElem]

theorem corresponds (h : s.Abreast ts us s') {e e' : CompileError} (he : e.position = s.position)
    (he' : e'.position = s'.position) (hsort : e'.cause.sort = e.cause.sort) :
    CompileError.Corresponds ts us e e' :=
  ⟨hsort, s.peek, s'.peek, h.paired, he, he'⟩

/-- What is recorded at the same place corresponds, even if it is fatal. -/
theorem errors_record (h : s.Abreast ts us s') {e e' : CompileError} (he : e.position = s.position)
    (he' : e'.position = s'.position) (hsort : e'.cause.sort = e.cause.sort) :
    List.Forall₂ (CompileError.Corresponds ts us) (s.record e).errors.toList
      (s'.record e').errors.toList := by
  rw [Stream.errors_record, Stream.errors_record]
  exact List.rel_append h.errors (.cons (h.corresponds he he' hsort) .nil)

theorem record (h : s.Abreast ts us s') {e e' : CompileError} (he : e.position = s.position)
    (he' : e'.position = s'.position) (hsort : e'.cause.sort = e.cause.sort)
    (hfatal : e.isFatal = false) : (s.record e).Abreast ts us (s'.record e') := by
  have hfatal' : e'.isFatal = false := by
    unfold CompileError.isFatal at hfatal ⊢
    rw [← CompileError.Cause.isFatal_sort, hsort, CompileError.Cause.isFatal_sort, hfatal]
  exact ⟨h.inOrder.record he hfatal, h.inOrder'.record he' hfatal', h.cursor_eq,
    h.errors_record he he' hsort⟩

variable (hsame : Token.Interchangeable ts us)

include hsame

theorem getElem?_kind (h : s.Abreast ts us s') (i : Nat) :
    (s'.tokens[i]?).map Token.kind = (s.tokens[i]?).map Token.kind := by
  rw [h.inOrder.tokens_eq, h.inOrder'.tokens_eq, List.getElem?_toArray, List.getElem?_toArray,
    ← List.getElem?_map, ← List.getElem?_map, hsame.kinds]

theorem kind_eq (h : s.Abreast ts us s') : s'.kind = s.kind := by
  obtain ⟨i, ht, hu⟩ := h.paired
  have hkinds := congrArg (fun kinds => kinds[i]?) hsame.kinds
  simp only [List.getElem?_map, ht, hu, Option.map_some, Option.some.injEq] at hkinds
  exact hkinds

theorem nextKind_eq (h : s.Abreast ts us s') : s'.nextKind = s.nextKind := by
  have hnext := h.getElem?_kind hsame (s.cursor + 1)
  unfold nextKind
  rw [h.cursor_eq]
  cases hs : s.tokens[s.cursor + 1]? <;> cases hs' : s'.tokens[s.cursor + 1]? <;>
    simp_all

theorem previous?_kind (h : s.Abreast ts us s') :
    s'.previous?.map Token.kind = s.previous?.map Token.kind := by
  unfold previous?
  rw [h.cursor_eq]
  split
  · rfl
  · exact h.getElem?_kind hsame _

theorem atLineBreak_eq (h : s.Abreast ts us s') : s'.atLineBreak = s.atLineBreak := by
  rw [h.inOrder.atLineBreak_eq, h.inOrder'.atLineBreak_eq, h.cursor_eq,
    hsame.breaks _ h.inOrder.cursor_lt]

theorem size_eq (h : s.Abreast ts us s') : s'.tokens.size = s.tokens.size := by
  rw [h.inOrder.tokens_eq, h.inOrder'.tokens_eq, List.size_toArray, List.size_toArray,
    hsame.length_eq]

theorem bound_eq (h : s.Abreast ts us s') : s'.bound = s.bound := by
  unfold bound
  rw [h.size_eq hsame, h.cursor_eq]

theorem isWord_eq (h : s.Abreast ts us s') : s'.peek.isWord = s.peek.isWord := by
  have hkind : s'.peek.kind = s.peek.kind := h.kind_eq hsame
  rw [Bool.eq_iff_iff, (hsame.scanned.lexed _ h.inOrder.peek_mem).isWord_iff,
    (hsame.scanned'.lexed _ h.inOrder'.peek_mem).isWord_iff, hkind]

theorem isAtEnd_eq (h : s.Abreast ts us s') : s'.isAtEnd = s.isAtEnd := by
  unfold isAtEnd
  rw [h.kind_eq hsame]

theorem advance (h : s.Abreast ts us s') : s.advance.Abreast ts us s'.advance := by
  refine ⟨h.inOrder.advance hsame.scanned, h.inOrder'.advance hsame.scanned', ?_, ?_⟩
  · unfold Stream.advance
    rw [h.isAtEnd_eq hsame]
    split
    · exact h.cursor_eq
    · exact congrArg (· + 1) h.cursor_eq
  · rw [s.advance_errors, s'.advance_errors]
    exact h.errors

theorem isSettled_eq (h : s.Abreast ts us s') : s'.isSettled = s.isSettled := by
  have hprevious := h.previous?_kind hsame
  unfold isSettled
  rw [h.kind_eq hsame]
  generalize s.previous? = t at hprevious
  generalize s'.previous? = t' at hprevious
  obtain _ | ⟨kind, _, _⟩ := t <;> obtain _ | ⟨_, _, _⟩ := t' <;> cases hprevious
  · rfl
  · cases kind with
    | sign sign => cases sign <;> rfl
    | _ => rfl

theorem settle (h : s.Abreast ts us s') (n : Nat) :
    (Stream.settle n s).Abreast ts us (Stream.settle n s') := by
  induction n generalizing s s' with
  | zero => exact h
  | succ n ih =>
      rw [Stream.settle, Stream.settle, h.isSettled_eq hsame]
      split
      · exact h
      · exact ih (h.advance hsame)

theorem synchronize (h : s.Abreast ts us s') (insideBlock : Bool) :
    (s.synchronize insideBlock).Abreast ts us (s'.synchronize insideBlock) := by
  have hclosing : s'.isClosing insideBlock = s.isClosing insideBlock := by
    unfold isClosing
    rw [h.kind_eq hsame]
  unfold Stream.synchronize
  rw [hclosing, h.size_eq hsame, h.cursor_eq]
  split
  · exact h.settle hsame _
  · exact (h.advance hsame).settle hsame _

end Stream.Abreast

/-- Two streams at the same place, read in step. -/
def Tandem.abreast {ts us : List Token} (hsame : Token.Interchangeable ts us) : Tandem where
  lenient := False
  name := Token.PairedLexemes ts us
  entry := Stream.Abreast ts us
  midway := Stream.Abreast ts us
  beyond _ _ := False
  name_refl h := h.elim
  entry_of_midway h := h
  kind h := h.kind_eq hsame
  nextKind h _ _ := h.nextKind_eq hsame
  lineBreak h _ := h.atLineBreak_eq hsame
  bound_le h := (h.bound_eq hsame).ge
  bound_eq h _ := h.bound_eq hsame
  advance h _ _ := h.advance hsame
  semicolon h _ := .inl (h.advance hsame)
  of_beyond h := h.elim
  isWord h := h.isWord_eq hsame
  word {s s'} h hword := by
    refine ⟨fun hkind => ?_, s.peek, s'.peek, h.paired, rfl, rfl⟩
    have hkind : s.peek.kind = .sign .semicolon := hkind
    rw [(hsame.scanned.lexed _ h.inOrder.peek_mem).isWord_iff, hkind] at hword
    simp at hword
  recover _ h he he' hsort hfatal insideBlock :=
    (h.record he he' hsort hfatal).synchronize hsame insideBlock

/-! ## The loop over a program -/

namespace Parser

/-- A round of a loop over statements goes on in both readings or ends in both. -/
theorem afterRound_meets {T : Tandem} (hstrict : ¬T.lenient)
    {r r' : EStateM.Result CompileError Stream Statement}
    (h : T.Meets T.exit (Statement.Renamed T.name) r r') {previous previous' : List Statement}
    (hprevious : List.Forall₂ (Statement.Renamed T.name) previous previous') :
    (∃ us us' s s', afterRound false previous r = .ok (us, s) ∧
      afterRound false previous' r' = .ok (us', s') ∧
      List.Forall₂ (Statement.Renamed T.name) us us' ∧ T.midway s s') ∨
    ∃ e e' s s', afterRound false previous r = .error (e, s) ∧
      afterRound false previous' r' = .error (e', s') ∧ T.Fails e s e' s' := by
  cases h with
  | ok hab hs =>
      exact .inl ⟨_, _, _, _, rfl, rfl, .cons hab hprevious, Tandem.midway_of_exit hstrict hs⟩
  | @error e e' s s' he =>
      by_cases hfatal : e.isFatal = true
      · exact .inr ⟨e, e', s, s', if_pos hfatal, if_pos (he.isFatal.trans hfatal), he⟩
      · have hfatal' : ¬e'.isFatal = true := he.isFatal ▸ hfatal
        have hnext := T.recover hstrict he.entry he.position he.position' he.sort
          (by simpa using hfatal) false
        exact .inl ⟨_, _, _, _, if_neg hfatal, if_neg hfatal', hprevious, hnext⟩
  | lost hlost => exact absurd hlost.1 hstrict

/-- Where the statements of a program end, the stream behind its end, with the error recorded that
this is no place to end. -/
def ending (markers : Bool) (s : Stream) : Stream :=
  match s.kind with
  | .keyword .khatam =>
    if markers then
      if s.advance.isAtEnd then s.advance
      else s.advance.record ⟨.trailingTokens s.advance.peek.describe, s.advance.position⟩
    else s.record ⟨.missingProgramStart, s.position⟩
  | _ => if markers then s.record ⟨.missingProgramEnd, s.position⟩ else s

/-- The loop over the statements of a program, with the statements that have been read and the last
stream as results, which holds all errors. -/
def programReading (markers : Bool) : Nat → List Statement → Stream → List Statement × Stream
  | 0, previous, s => (previous.reverse, s.record ⟨.exhausted, s.position⟩)
  | n + 1, previous, s =>
    if endsProgram s then (previous.reverse, ending markers s)
    else
      match afterRound false previous (declaration true s) with
      | .ok (previous', s') => programReading markers n previous' s'
      | .error (error, s') => (previous.reverse, s'.record error)

theorem conclude_record (markers : Bool) (body : List Statement) (s : Stream) (e : CompileError) :
    conclude markers body (s.record e) = .error (s.record e).errors.toList := by
  have hsome : (s.record e).errors.isEmpty = false := by
    simp [Stream.record]
  unfold conclude
  rw [hsome, if_neg Bool.false_ne_true]

theorem programBody_of_ends {markers : Bool} {n : Nat} {previous : List Statement} {s : Stream}
    (h : endsProgram s = true) :
    programBody markers (n + 1) previous s = conclude markers previous.reverse (ending markers s) := by
  unfold endsProgram at h
  split at h
  · next hkind =>
    simp only [programBody, ending, hkind]
    split
    · exact (conclude_record _ _ _ _).symm
    · rfl
  · next hkind =>
    simp only [programBody, ending, hkind]
    split
    · split
      · rfl
      · exact (conclude_record _ _ _ _).symm
    · exact (conclude_record _ _ _ _).symm
  · cases h

/-- **The loop over a program is concluded from what has been read and recorded.** -/
theorem programBody_eq (markers : Bool) (n : Nat) (previous : List Statement) (s : Stream) :
    programBody markers n previous s =
      conclude markers (programReading markers n previous s).1
        (programReading markers n previous s).2 := by
  induction n generalizing previous s with
  | zero => exact (conclude_record _ _ _ _).symm
  | succ n ih =>
      rw [programReading]
      cases hends : endsProgram s with
      | true => exact programBody_of_ends hends
      | false =>
          rw [programBody_succ hends, if_neg Bool.false_ne_true]
          cases afterRound false previous (declaration true s) with
          | ok next => exact ih _ _
          | error failure => exact (conclude_record _ _ _ _).symm

/-- What two readings of a program have recorded and read. -/
structure Accounts (ts us : List Token) (r r' : List Statement × Stream) : Prop where
  body : List.Forall₂ (Statement.Renamed (Token.PairedLexemes ts us)) r.1 r'.1
  errors : List.Forall₂ (CompileError.Corresponds ts us) r.2.errors.toList r'.2.errors.toList
  orderly : CompileError.Orderly ts r.2.errors.toList

section Abreast

variable {ts us : List Token} {s s' : Stream} (hsame : Token.Interchangeable ts us)
  {previous previous' : List Statement}
  (hprevious : List.Forall₂ (Statement.Renamed (Token.PairedLexemes ts us)) previous previous')

include hprevious

theorem accounts_record (h : s.Abreast ts us s') {e e' : CompileError}
    (he : e.position = s.position) (he' : e'.position = s'.position)
    (hsort : e'.cause.sort = e.cause.sort) :
    Accounts ts us (previous.reverse, s.record e) (previous'.reverse, s'.record e') :=
  ⟨List.rel_reverse hprevious, h.errors_record he he' hsort, h.inOrder.orderly_record he⟩

include hsame

theorem accounts_ending (h : s.Abreast ts us s') (markers : Bool) :
    Accounts ts us (previous.reverse, ending markers s) (previous'.reverse, ending markers s') := by
  have hstays : ∀ {s s' : Stream}, s.Abreast ts us s' →
      Accounts ts us (previous.reverse, s) (previous'.reverse, s') := fun h =>
    ⟨List.rel_reverse hprevious, h.errors, h.inOrder.orderly⟩
  have hnext := h.advance hsame
  unfold ending
  rw [h.kind_eq hsame, hnext.isAtEnd_eq hsame]
  split
  · split
    · split
      · exact hstays hnext
      · exact accounts_record hprevious hnext rfl rfl rfl
    · exact accounts_record hprevious h rfl rfl rfl
  · split
    · exact accounts_record hprevious h rfl rfl rfl
    · exact hstays h

/-- **Two readings of programs in step record the same errors and read the same statements.** -/
theorem accounts_programReading (h : s.Abreast ts us s') (markers : Bool) (n : Nat) :
    Accounts ts us (programReading markers n previous s) (programReading markers n previous' s') := by
  induction n generalizing previous previous' s s' with
  | zero => exact accounts_record hprevious h rfl rfl rfl
  | succ n ih =>
      have hends : endsProgram s' = endsProgram s := by
        unfold endsProgram
        rw [h.kind_eq hsame]
      rw [programReading, programReading, hends]
      split
      · exact accounts_ending hsame hprevious h markers
      · have hround := (Tandem.runs_declaration (T := .abreast hsame) true).meets s s' h
        rcases afterRound_meets id hround hprevious with
          ⟨us, us', s₁, s₁', hrun, hrun', hus, hs₁⟩ | ⟨e, e', s₁, s₁', hrun, hrun', he⟩
        · rw [hrun, hrun']
          exact ih hus hs₁
        · rw [hrun, hrun']
          exact accounts_record hprevious he.entry he.position he.position' he.sort

end Abreast

end Parser

namespace Program

/-- What is read and recorded for a list of tokens, and whether a marker stands in front. -/
def reading (tokens : List Token) : Bool × List Statement × Stream :=
  let s := Stream.ofTokens tokens
  let markers := s.check (.keyword .shuru)
  (markers, Parser.programReading markers s.bound [] (if markers then s.advance else s))

/-- The errors recorded while a list of tokens is read, oldest first. -/
def recorded (tokens : List Token) : List CompileError :=
  (reading tokens).2.2.errors.toList

theorem ofTokens_eq (tokens : List Token) :
    ofTokens tokens =
      Parser.conclude (reading tokens).1 (reading tokens).2.1 (reading tokens).2.2 := by
  unfold ofTokens reading
  dsimp only
  cases (Stream.ofTokens tokens).check (.keyword .shuru) <;> exact Parser.programBody_eq _ _ _ _

/-- The stream at the first tokens. -/
theorem abreast_ofTokens {ts us : List Token} (h : Token.Interchangeable ts us) :
    (Stream.ofTokens ts).Abreast ts us (Stream.ofTokens us) := by
  have hstart : ∀ {tokens : List Token}, Token.Scanned tokens →
      (Stream.ofTokens tokens).InOrder tokens := by
    intro tokens hscanned
    obtain ⟨front, last, rfl, -, -⟩ := hscanned.ended
    refine ⟨rfl, ?_, .nil, ?_, ?_, ?_⟩
    · simp [Stream.ofTokens]
    all_goals exact fun e he => absurd he List.not_mem_nil
  exact ⟨hstart h.scanned, hstart h.scanned', rfl, .nil⟩

/-- **Two texts whose tokens show a reader the same are read alike.** -/
theorem accounts_reading {ts us : List Token} (h : Token.Interchangeable ts us) :
    (reading us).1 = (reading ts).1 ∧ Parser.Accounts ts us (reading ts).2 (reading us).2 := by
  have hstart := abreast_ofTokens h
  have hcheck : (Stream.ofTokens us).check (.keyword .shuru) =
      (Stream.ofTokens ts).check (.keyword .shuru) :=
    Tandem.check_eq (T := .abreast h) hstart _
  unfold reading
  dsimp only
  rw [hcheck, hstart.bound_eq h]
  refine ⟨rfl, Parser.accounts_programReading h .nil ?_ _ _⟩
  split
  · exact hstart.advance h
  · exact hstart

/-- **A text is read exactly if no error is recorded.** Otherwise all that has been recorded is
reported: at least one error, each at a token of the text and not in front of the one before it. Only
the last one may be fatal. -/
theorem ofText_reports {text : String} {tokens : List Token} (h : tokenize text = .ok tokens) :
    ((∃ p, ofText text = .ok p) ↔ recorded tokens = []) ∧
      ∀ errors, ofText text = .error errors →
        errors = recorded tokens ∧ errors ≠ [] ∧
          errors.Pairwise (fun e e' => e.position ≤ e'.position) ∧
          (∀ e ∈ errors, ∃ t ∈ tokens, e.position = t.position) ∧
          ∀ e ∈ errors.dropLast, e.isFatal = false := by
  have hread : ofText text =
      Parser.conclude (reading tokens).1 (reading tokens).2.1 (reading tokens).2.2 := by
    unfold ofText
    rw [h]
    exact ofTokens_eq tokens
  have horderly := (accounts_reading (.refl (scanned_of_tokenize h))).2.orderly
  rw [hread]
  unfold Parser.conclude recorded
  cases hempty : (reading tokens).2.2.errors.isEmpty with
  | true =>
      have hnone : (reading tokens).2.2.errors.toList = [] := by
        rw [Array.isEmpty_iff.mp hempty]
      exact ⟨iff_of_true ⟨_, rfl⟩ hnone, nofun⟩
  | false =>
      have hsome : (reading tokens).2.2.errors.toList ≠ [] := by
        rw [ne_eq, Array.toList_eq_nil_iff, ← Array.isEmpty_iff, hempty]
        exact Bool.false_ne_true
      refine ⟨iff_of_false nofun hsome, fun errors herrors => ?_⟩
      cases herrors
      exact ⟨rfl, hsome, horderly.sorted, horderly.stands, horderly.goesOn⟩

/-- Two statements with errors, the second one inside a function, and a marker that ends the reading
from inside a block of that function. -/
theorem ofText_reports_nested :
    let text := "rakho = x; kaam f() \x7b x y; agar (x) \x7b shuru \x7d \x7d z"
    ∃ tokens errors, tokenize text = .ok tokens ∧ ofText text = .error errors ∧
      errors.map CompileError.isFatal = [false, false, true] ∧ errors = recorded tokens ∧
      errors.Pairwise (fun e e' => e.position ≤ e'.position) ∧
      ∀ e ∈ errors, ∃ t ∈ tokens, e.position = t.position := by
  intro text
  have hfound : (match ofText text with
      | .ok _ => none
      | .error errors => some (errors.map CompileError.isFatal)) = some [false, false, true] := by
    decide +kernel
  have hscan : (tokenize text).toOption.isSome = true := by
    decide +kernel
  obtain ⟨tokens, htokens⟩ : ∃ tokens, tokenize text = .ok tokens := by
    cases heq : tokenize text with
    | ok tokens => exact ⟨tokens, rfl⟩
    | error e =>
        rw [heq] at hscan
        cases hscan
  split at hfound
  · cases hfound
  · next errors herrors =>
    obtain ⟨hrecorded, -, hsorted, hstands, -⟩ := (ofText_reports htokens).2 errors herrors
    exact ⟨tokens, errors, htokens, herrors, Option.some.inj hfound, hrecorded, hsorted, hstands⟩

end Program

end Lipi
