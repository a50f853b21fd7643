import Lipi.Proofs.Parser.Steady

set_option autoImplicit false

/-! # Progress of a reading

Readers bound their repetitions and their nesting by a number. On a list of tokens whose only end
token is the last one, **the bound never decides anything**: a reader moves forward, stays in front
of the end token or at it, and where it repeats or nests it has taken a token, so that the tokens
that are left are bound enough.

The notion for it is `Parser.Alike k gain x y`: wherever at most `k` tokens are left, the readers
`x` and `y` do the same, take `gain` tokens or more, and do not give up for want of a bound. It is
closed under the steps of a reader, and the two readers may differ in the bound that they take.
-/

namespace Lipi

/-- The list ends with an end token and holds no other. -/
def Token.EndsOnce (tokens : List Token) : Prop :=
  ∃ front last, tokens = front ++ [last] ∧ last.kind = .eof ∧ ∀ t ∈ front, t.kind ≠ .eof

namespace Stream

/-- How many tokens are left, the current one included. -/
def left (s : Stream) : Nat :=
  s.tokens.size - s.cursor

/-- The stream is one of the given tokens, ended once, with the cursor on one of them; and no
reading in it has been given up. -/
structure Within (tokens : List Token) (s : Stream) : Prop where
  ended : Token.EndsOnce tokens
  tokens_eq : s.tokens = tokens.toArray
  cursor_lt : s.cursor < tokens.length
  errors : ∀ e ∈ s.errors, e.cause ≠ .exhausted

namespace Within

variable {tokens : List Token} {s : Stream}

theorem left_eq (h : s.Within tokens) : s.left = tokens.length - s.cursor := by
  rw [left, h.tokens_eq, List.size_toArray]

theorem left_pos (h : s.Within tokens) : 0 < s.left := by
  have hlt := h.cursor_lt
  have hleft := h.left_eq
  omega

/-- The last token is the end token, so a cursor in front of the end is not on the last token. -/
theorem succ_lt (h : s.Within tokens) (hend : s.isAtEnd = false) :
    s.cursor + 1 < tokens.length := by
  obtain ⟨front, last, rfl, hlast, -⟩ := h.ended
  have hlt := h.cursor_lt
  have hcursor : s.cursor ≠ front.length := by
    intro hcursor
    have hpeek : s.peek = last := by
      simp [peek, h.tokens_eq, hcursor]
    simp [isAtEnd, kind, hpeek, hlast] at hend
  simp only [List.length_append, List.length_singleton] at hlt ⊢
  omega

theorem cursor_advance (hend : s.isAtEnd = false) : s.advance.cursor = s.cursor + 1 := by
  simp [Stream.advance, hend]

theorem advance (h : s.Within tokens) : s.advance.Within tokens := by
  unfold Stream.advance
  split
  · exact h
  · next hend => exact ⟨h.ended, h.tokens_eq, h.succ_lt (by simpa using hend), h.errors⟩

theorem record (h : s.Within tokens) {e : CompileError} (he : e.cause ≠ .exhausted) :
    (s.record e).Within tokens := by
  refine ⟨h.ended, h.tokens_eq, h.cursor_lt, ?_⟩
  intro e' he'
  rcases Array.mem_push.mp he' with hold | rfl
  · exact h.errors e' hold
  · exact he

end Within

/-! ## Skipping tokens after an error -/

theorem cursor_le_advance (s : Stream) : s.cursor ≤ s.advance.cursor := by
  unfold advance
  split <;> simp

theorem isSettled_of_isAtEnd {s : Stream} (h : s.isAtEnd = true) : s.isSettled = true := by
  unfold isAtEnd at h
  unfold isSettled
  split at h
  · next heof => simp [heof]
  · cases h

/-- Skipping stops inside the list: it moves forward, and with a token for each of its steps left it
comes to a place where reading can go on. -/
theorem Within.settle {tokens : List Token} {n : Nat} {s : Stream} (h : s.Within tokens) :
    (Stream.settle n s).Within tokens ∧ s.cursor ≤ (Stream.settle n s).cursor ∧
      (s.left ≤ n → (Stream.settle n s).isSettled = true) := by
  induction n generalizing s with
  | zero =>
      refine ⟨h, Nat.le_refl _, fun hn => ?_⟩
      have hpos := h.left_pos
      omega
  | succ n ih =>
      rw [Stream.settle]
      split
      · next hsettled => exact ⟨h, Nat.le_refl _, fun _ => hsettled⟩
      · next hsettled =>
        have hend : s.isAtEnd = false := by
          rw [← Bool.not_eq_true]
          exact fun hend => hsettled (isSettled_of_isAtEnd hend)
        obtain ⟨hwithin, hle, hstops⟩ := ih h.advance
        refine ⟨hwithin, Nat.le_trans (cursor_le_advance s) hle, fun hn => hstops ?_⟩
        have hadvance := h.advance.left_eq
        have hleft := h.left_eq
        have hcursor := cursor_advance hend
        omega

theorem isAtEnd_of_isClosing {s : Stream} {insideBlock : Bool}
    (h : s.isClosing insideBlock = false) : s.isAtEnd = false := by
  unfold isClosing at h
  unfold isAtEnd
  split
  · next heof => simp [heof] at h
  · rfl

/-- Recovery stays inside the list, takes a token unless the current one closes what is being read,
and ends where reading can go on. -/
theorem Within.synchronize {tokens : List Token} {s : Stream} (h : s.Within tokens)
    (insideBlock : Bool) :
    (s.synchronize insideBlock).Within tokens ∧
      s.cursor + (if s.isClosing insideBlock then 0 else 1) ≤ (s.synchronize insideBlock).cursor ∧
      (s.synchronize insideBlock).isSettled = true := by
  unfold Stream.synchronize
  split
  · obtain ⟨hwithin, hle, hstops⟩ := h.settle (n := s.left)
    exact ⟨hwithin, hle, hstops (Nat.le_refl _)⟩
  · next hclosing =>
    obtain ⟨hwithin, hle, hstops⟩ := h.advance.settle (n := s.left)
    have hcursor := cursor_advance (isAtEnd_of_isClosing (by simpa using hclosing))
    refine ⟨hwithin, by rw [← hcursor]; exact hle, hstops ?_⟩
    have hadvance := h.advance.left_eq
    have hleft := h.left_eq
    omega

end Stream

namespace Parser

variable {α β : Type} {tokens : List Token}

/-! ## Moving forward -/

/-- The reading moves the cursor by `gain` or more if it succeeds and never moves it back. The
cursor stays inside the list of tokens, and the reading is not given up for want of a bound. -/
def Moves (tokens : List Token) (gain : Nat) (s : Stream) :
    EStateM.Result CompileError Stream α → Prop
  | .ok _ s' => s'.Within tokens ∧ s.cursor + gain ≤ s'.cursor
  | .error e s' => s'.Within tokens ∧ s.cursor ≤ s'.cursor ∧ e.cause ≠ .exhausted

theorem Moves.after {gain gain' : Nat} {s s' : Stream}
    {r : EStateM.Result CompileError Stream α} (h : Moves tokens gain' s' r)
    (hle : s.cursor + gain ≤ s'.cursor) : Moves tokens (gain' + gain) s r := by
  cases r with
  | ok a t => exact ⟨h.1, by have := h.2; omega⟩
  | error e t => exact ⟨h.1, by have := h.2.1; omega, h.2.2⟩

theorem Moves.mono {gain gain' : Nat} {s : Stream} {r : EStateM.Result CompileError Stream α}
    (h : Moves tokens gain s r) (hle : gain' ≤ gain) : Moves tokens gain' s r := by
  cases r with
  | ok a t => exact ⟨h.1, by have := h.2; omega⟩
  | error e t => exact h

theorem moves_expected {gain : Nat} {s : Stream} (h : s.Within tokens) (expectation : String) :
    Moves tokens gain s (.error (s.expected expectation) s : EStateM.Result _ _ α) :=
  ⟨h, Nat.le_refl _, by simp [Stream.expected, CompileError.Cause.exhausted]⟩

/-- The error at a token names the token. -/
theorem moves_unexpected {gain : Nat} {s : Stream} (h : s.Within tokens) :
    Moves tokens gain s (.error s.unexpected s : EStateM.Result _ _ α) := by
  have hdescribe : s.peek.describe ≠ "" := by
    unfold Token.describe
    split <;> simp [String.append_eq_empty_iff]
  exact ⟨h, Nat.le_refl _, by simpa [Stream.unexpected, CompileError.Cause.exhausted] using hdescribe⟩

theorem moves_advance {s : Stream} (h : s.Within tokens) (hend : s.isAtEnd = false) (a : α) :
    Moves tokens 1 s (.ok a s.advance : EStateM.Result _ _ α) :=
  ⟨h.advance, Nat.le_of_eq (Stream.Within.cursor_advance hend).symm⟩

/-! ## Readers that do the same -/

/-- At the stream `s` the readers do the same, and the reading moves forward. -/
structure AlikeAt (tokens : List Token) (gain : Nat) (s : Stream) (x y : Parser α) : Prop where
  eq : y s = x s
  moves : Moves tokens gain s (x s)

/-- Wherever at most `k` tokens are left, the readers do the same, and the reading moves forward. -/
def Alike (tokens : List Token) (k gain : Nat) (x y : Parser α) : Prop :=
  ∀ s : Stream, s.Within tokens → s.left ≤ k → AlikeAt tokens gain s x y

section
variable {k gain : Nat} {x y : Parser α}

theorem alike_of_moves (h : ∀ s : Stream, s.Within tokens → Moves tokens gain s (x s)) :
    Alike tokens k gain x x :=
  fun s hs _ => ⟨rfl, h s hs⟩

theorem Alike.mono {k' gain' : Nat} (h : Alike tokens k gain x y) (hk : k' ≤ k)
    (hgain : gain' ≤ gain) : Alike tokens k' gain' x y :=
  fun s hs hleft =>
    have hat := h s hs (Nat.le_trans hleft hk)
    ⟨hat.eq, hat.moves.mono hgain⟩

theorem AlikeAt.weaken {s : Stream} (h : AlikeAt tokens gain s x y) : AlikeAt tokens 0 s x y :=
  ⟨h.eq, h.moves.mono (Nat.zero_le gain)⟩

theorem Alike.weaken (h : Alike tokens k gain x y) : Alike tokens k 0 x y :=
  h.mono (Nat.le_refl k) (Nat.zero_le gain)

/-- Readers that do the same at this stream. -/
theorem AlikeAt.congr {s : Stream} {x' y' : Parser α} (h : AlikeAt tokens gain s x y)
    (hx : x' s = x s) (hy : y' s = y s) : AlikeAt tokens gain s x' y' :=
  ⟨by rw [hx, hy, h.eq], by rw [hx]; exact h.moves⟩

/-- Where no token is left there is nothing to read. -/
theorem alike_zero : Alike tokens 0 gain x y :=
  fun s hs hleft => absurd hs.left_pos (by omega)

/-- The step of a reading: what the first reader has taken is off the tokens that the second one
has left. -/
theorem AlikeAt.bind {k' gain' : Nat} {s : Stream} {f g : α → Parser β}
    (hx : AlikeAt tokens gain s x y) (hf : ∀ a, Alike tokens k' gain' (f a) (g a))
    (hs : s.Within tokens) (hleft : s.left ≤ k' + gain) :
    AlikeAt tokens (gain' + gain) s (x >>= f) (y >>= g) := by
  have hmoves := hx.moves
  have heq := hx.eq
  cases hrun : x s with
  | ok a s' =>
      rw [hrun] at hmoves heq
      have hrest : AlikeAt tokens gain' s' (f a) (g a) := by
        apply hf a s' hmoves.1
        have hleft' := hmoves.1.left_eq
        have hleft₀ := hs.left_eq
        have hle := hmoves.2
        omega
      refine ⟨by rw [bind_of_ok hrun, bind_of_ok heq, hrest.eq], ?_⟩
      rw [bind_of_ok hrun]
      exact hrest.moves.after hmoves.2
  | error e s' =>
      rw [hrun] at hmoves heq
      refine ⟨by rw [bind_of_error hrun, bind_of_error heq], ?_⟩
      rw [bind_of_error hrun]
      exact hmoves

/-- A reader that need not take a token, and what follows it. -/
theorem alike_bind {f g : α → Parser β} (hx : Alike tokens k 0 x y)
    (hf : ∀ a, Alike tokens k gain (f a) (g a)) :
    Alike tokens k gain (x >>= f) (y >>= g) :=
  fun s hs hleft => (hx s hs hleft).bind hf hs hleft

/-- A reader that takes a token, and what follows it, which has one token less. -/
theorem alike_bind_taking {f g : α → Parser β} (hx : Alike tokens (k + 1) 1 x y)
    (hf : ∀ a, Alike tokens k 0 (f a) (g a)) :
    Alike tokens (k + 1) 1 (x >>= f) (y >>= g) :=
  fun s hs hleft => (hx s hs hleft).bind hf hs hleft

/-- The reader behind the current token, which is not the end. -/
theorem alikeAt_advance_bind {s : Stream} {f g : Token → Parser β} (hs : s.Within tokens)
    (hend : s.isAtEnd = false) (hleft : s.left ≤ k + 1)
    (hf : ∀ token, Alike tokens k 0 (f token) (g token)) :
    AlikeAt tokens 1 s (advance >>= f) (advance >>= g) := by
  have hadvance : AlikeAt tokens 1 s advance advance := ⟨rfl, moves_advance hs hend _⟩
  exact hadvance.bind hf hs hleft

/-- A reader of the stream itself. -/
theorem alike_get_bind {f g : Stream → Parser β}
    (hf : ∀ s : Stream, s.Within tokens → s.left ≤ k → AlikeAt tokens gain s (f s) (g s)) :
    Alike tokens k gain (get >>= f) (get >>= g) :=
  fun s hs hleft => ⟨(hf s hs hleft).eq, (hf s hs hleft).moves⟩

/-- A reader with the bound that its stream gives: the tokens that are left are within it. -/
theorem alike_bounded {reader reader' : Nat → Parser α}
    (h : ∀ j n, j ≤ k → j ≤ n → Alike tokens j gain (reader n) (reader' n)) :
    Alike tokens k gain (bounded reader) (bounded reader') := by
  intro s hs hleft
  have hbound : s.left ≤ s.bound := Nat.le_add_right _ 4
  have hat := h s.left s.bound hleft hbound s hs (Nat.le_refl _)
  exact ⟨hat.eq, hat.moves⟩

end

/-! ## Steps that all readers share -/

section
variable {k : Nat}

theorem alike_pure (a : α) : Alike tokens k 0 (pure a) (pure a) :=
  alike_of_moves fun _ hs => ⟨hs, Nat.le_refl _⟩

theorem alike_failExpected (gain : Nat) (expectation : String) :
    Alike tokens k gain (failExpected expectation : Parser α) (failExpected expectation) :=
  alike_of_moves fun _ hs => moves_expected hs expectation

theorem isAtEnd_of_ne {s : Stream} (h : s.kind ≠ .eof) : s.isAtEnd = false := by
  unfold Stream.isAtEnd
  split
  · next heof => exact absurd heof h
  · rfl

theorem isAtEnd_of_kind {s : Stream} {kind : TokenKind} (h : s.kind = kind) (hkind : kind ≠ .eof) :
    s.isAtEnd = false :=
  isAtEnd_of_ne (h ▸ hkind)

theorem isAtEnd_of_check {s : Stream} {kind : TokenKind} (h : s.check kind = true)
    (hkind : (TokenKind.eof == kind) = false) : s.isAtEnd = false := by
  unfold Stream.isAtEnd
  split
  · next heof =>
    rw [Stream.check, heof, hkind] at h
    cases h
  · rfl

/-- A branch on whether the current token is of a kind: where it is, it has been taken. -/
theorem alike_accept_bind {gain : Nat} {kind : TokenKind} {f g : Bool → Parser β}
    (hkind : (TokenKind.eof == kind) = false) (hgain : gain ≤ 1)
    (htrue : Alike tokens (k - 1) 0 (f true) (g true))
    (hfalse : Alike tokens k gain (f false) (g false)) :
    Alike tokens k gain (accept kind >>= f) (accept kind >>= g) := by
  intro s hs hleft
  cases hcheck : s.check kind with
  | true =>
      have haccept : accept kind s = .ok true s.advance := by rw [accept, if_pos hcheck]
      have hend := isAtEnd_of_check hcheck hkind
      have hcursor := Stream.Within.cursor_advance hend
      have hat : AlikeAt tokens 0 s.advance (f true) (g true) := by
        apply htrue s.advance hs.advance
        have hleft₀ := hs.left_eq
        have hleft₁ := hs.advance.left_eq
        omega
      refine ⟨by rw [bind_of_ok haccept, bind_of_ok haccept, hat.eq], ?_⟩
      rw [bind_of_ok haccept]
      exact (hat.moves.after (Nat.le_of_eq hcursor.symm)).mono (by omega)
  | false =>
      have haccept : accept kind s = .ok false s := by rw [accept, if_neg (by simp [hcheck])]
      have hat := hfalse s hs hleft
      refine ⟨by rw [bind_of_ok haccept, bind_of_ok haccept, hat.eq], ?_⟩
      rw [bind_of_ok haccept]
      exact hat.moves

theorem alike_consume {kind : TokenKind} (hkind : (TokenKind.eof == kind) = false)
    (expectation : String) :
    Alike tokens k 1 (consume kind expectation) (consume kind expectation) := by
  refine alike_of_moves fun s hs => ?_
  unfold consume
  split
  · next hcheck => exact moves_advance hs (isAtEnd_of_check hcheck hkind) _
  · exact moves_expected hs expectation

theorem alike_boundary (what : String) : Alike tokens k 0 (boundary what) (boundary what) := by
  refine alike_of_moves fun s hs => ?_
  unfold boundary
  split
  · next hcheck => exact (moves_advance hs (isAtEnd_of_check hcheck rfl) _).mono (by omega)
  · split
    · exact ⟨hs, Nat.le_refl _⟩
    · exact moves_expected hs _

theorem alike_identifier (expectation : String) :
    Alike tokens k 1 (identifier expectation) (identifier expectation) := by
  refine alike_of_moves fun s hs => ?_
  unfold identifier
  split
  · next hkind => exact moves_advance hs (by simp [Stream.isAtEnd, hkind]) _
  · exact moves_expected hs expectation

theorem alike_memberName (expectation : String) :
    Alike tokens k 1 (memberName expectation) (memberName expectation) := by
  refine alike_of_moves fun s hs => ?_
  unfold memberName
  split
  · next hword =>
    refine moves_advance hs ?_ _
    unfold Stream.isAtEnd Stream.kind
    split
    · next heof => simp [Token.isWord, heof] at hword
    · rfl
  · exact moves_expected hs expectation

/-- Each item takes a token, so the items are no more than the tokens that are left. -/
theorem alike_items {item item' : Parser α} (closing : Sign) (context : String) {n : Nat}
    (hitem : Alike tokens k 1 item item') (hn : k ≤ n) (previous : List α) :
    Alike tokens k 1 (items item closing context n previous)
      (items item' closing context n previous) := by
  induction n generalizing k previous with
  | zero =>
      obtain rfl : k = 0 := by omega
      exact alike_zero
  | succ n ih =>
      cases k with
      | zero => exact alike_zero
      | succ k =>
          refine alike_bind_taking hitem fun a => alike_accept_bind rfl (by omega) ?_ ?_
          · exact (ih (hitem.mono (by omega) (by omega)) (by omega) (a :: previous)).mono
              (Nat.le_refl _) (by omega)
          · exact alike_bind ((alike_consume rfl _).mono (Nat.le_refl _) (by omega))
              fun _ => alike_pure _

theorem alike_commaSeparated {item item' : Parser α} (hitem : Alike tokens k 1 item item')
    (closing : Sign) (context : String) :
    Alike tokens k 1 (commaSeparated item closing context)
      (commaSeparated item' closing context) := by
  refine alike_accept_bind rfl (by omega) (alike_pure _) ?_
  exact alike_bounded fun j n hj hn =>
    alike_items closing context (hitem.mono hj (by omega)) hn []

end

end Parser

end Lipi
