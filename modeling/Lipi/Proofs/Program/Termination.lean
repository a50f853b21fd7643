import Lipi.Program.Parser
import Lipi.Proofs.Expr.Rounds
import Lipi.Proofs.Parser.Progress

set_option autoImplicit false

/-! # Reading a program ends

**On a list of tokens whose only end token is the last one, however wrong, reading a program ends**
(`Program.ofTokens_ends`). No reader ever gives up for want of a bound, because every repetition and
every nesting has a token of its own; the steps of the argument are the notions of
`Lipi.Proofs.Parser.Progress`, taken through the readers one by one.

The loops that recover from errors are the delicate ones, since recovery takes nothing at the end
token, at `khatam` and, inside a block, at a closing brace. These are the tokens at which the loop
around it ends, so that a round never starts at one of them (`afterRound_moves`).
-/

namespace Lipi

namespace Parser

variable {tokens : List Token} {k : Nat}

/-! ## Expressions -/

section Nested

variable {nested nested' : Parser Expr} (hnested : Alike tokens k 1 nested nested')

include hnested

/-- A primary expression takes a token, and what is nested in it stands behind that token. -/
theorem alike_primary : Alike tokens (k + 1) 1 (primary nested) (primary nested') := by
  have hlist := fun closing context => (alike_commaSeparated hnested closing context).weaken
  intro s hs hleft
  rcases primary_round s with ⟨e, he, hrun⟩ | ⟨hkind, hrun⟩ | ⟨hkind, hrun⟩ | ⟨hkind, hrun⟩ | hrun
  · refine ⟨by rw [hrun, hrun], ?_⟩
    rw [hrun]
    refine moves_advance hs (isAtEnd_of_ne fun heof => ?_) e
    have hkind : s.peek.kind = .eof := heof
    simp [Token.expr?, literal?, hkind] at he
  · refine .congr (alikeAt_advance_bind hs (isAtEnd_of_kind hkind (by simp)) hleft fun start => ?_)
      (hrun nested) (hrun nested')
    refine alike_bind (alike_identifier _).weaken fun name => ?_
    refine alike_accept_bind rfl (Nat.zero_le 1) ?_ (alike_pure _)
    exact alike_bind ((hlist _ _).mono (Nat.sub_le k 1) (Nat.le_refl 0)) fun _ => alike_pure _
  · refine .congr (alikeAt_advance_bind hs (isAtEnd_of_kind hkind (by simp)) hleft fun start => ?_)
      (hrun nested) (hrun nested')
    exact alike_bind (hlist _ _) fun _ => alike_pure _
  · refine .congr (alikeAt_advance_bind hs (isAtEnd_of_kind hkind (by simp)) hleft fun start => ?_)
      (hrun nested) (hrun nested')
    exact alike_bind hnested.weaken fun _ =>
      alike_bind (alike_consume rfl _).weaken fun _ => alike_pure _
  · refine ⟨by rw [hrun, hrun], ?_⟩
    rw [hrun]
    exact moves_unexpected hs

/-- Each call or member access takes a token. -/
theorem alike_continuation {j n : Nat} (hj : j ≤ k + 1) (hn : j ≤ n) (e : Expr) :
    Alike tokens j 0 (continuation nested n e) (continuation nested' n e) := by
  induction n generalizing j e with
  | zero =>
      obtain rfl : j = 0 := by omega
      exact alike_zero
  | succ n ih =>
      cases j with
      | zero => exact alike_zero
      | succ j =>
          have hj' : j ≤ k := by omega
          have hrest := fun e => ih (j := j) (by omega) (by omega) e
          intro s hs hleft
          rcases continuation_round n e s with
            ⟨⟨hkind, -⟩, hrun⟩ | ⟨hkind, hrun⟩ | ⟨⟨hkind, -⟩, hrun⟩ | ⟨-, hrun⟩
          · refine .congr (alikeAt_advance_bind hs (isAtEnd_of_kind hkind (by simp)) hleft
              fun start => ?_).weaken (hrun nested) (hrun nested')
            have hlist := alike_commaSeparated (hnested.mono hj' (Nat.le_refl 1)) .rightParen
              "arguments"
            exact alike_bind hlist.weaken fun arguments => hrest _
          · refine .congr (alikeAt_advance_bind hs (isAtEnd_of_kind hkind (by simp)) hleft
              fun start => ?_).weaken (hrun nested) (hrun nested')
            exact alike_bind (alike_memberName _).weaken fun name => hrest _
          · refine .congr (alikeAt_advance_bind hs (isAtEnd_of_kind hkind (by simp)) hleft
              fun start => ?_).weaken (hrun nested) (hrun nested')
            exact alike_bind (hnested.mono hj' (Nat.zero_le 1)) fun key =>
              alike_bind (alike_consume rfl _).weaken fun _ => hrest _
          · refine ⟨by rw [hrun, hrun], ?_⟩
            rw [hrun]
            exact ⟨hs, Nat.le_refl _⟩

theorem alike_unary {j n : Nat} (hj : j ≤ k + 1) (hn : j ≤ n) :
    Alike tokens j 1 (unary nested n) (unary nested' n) := by
  induction n generalizing j with
  | zero =>
      obtain rfl : j = 0 := by omega
      exact alike_zero
  | succ n ih =>
      cases j with
      | zero => exact alike_zero
      | succ j =>
          intro s hs hleft
          rcases unary_round n s with ⟨op, hop, hrun⟩ | ⟨-, hrun⟩
          · refine .congr (alikeAt_advance_bind hs (isAtEnd_of_ne fun heof => ?_) hleft
              fun start => ?_) (hrun nested) (hrun nested')
            · rw [heof] at hop
              cases hop
            · exact alike_bind (ih (by omega) (by omega)).weaken fun _ => alike_pure _
          · refine .congr ?_ (hrun nested) (hrun nested')
            have hprimary := (alike_primary hnested).mono hj (Nat.le_refl 1)
            refine alike_bind_taking hprimary (fun e => ?_) s hs hleft
            exact alike_bounded fun i n hi hn => alike_continuation hnested (by omega) hn e

omit hnested in
/-- Each operator takes a token. -/
theorem alike_operations {operand operand' : Parser Expr} (tier : Nat) {n : Nat}
    (hoperand : Alike tokens k 1 operand operand') (hn : k ≤ n) (left : Expr) :
    Alike tokens k 0 (operations tier operand n left) (operations tier operand' n left) := by
  induction n generalizing k left with
  | zero =>
      obtain rfl : k = 0 := by omega
      exact alike_zero
  | succ n ih =>
      cases k with
      | zero => exact alike_zero
      | succ k =>
          have hoperand' := hoperand.mono (Nat.le_succ k) (Nat.le_refl 1)
          intro s hs hleft
          rcases operations_round tier n left s with ⟨op, hop, -, hrun⟩ | ⟨-, hrun⟩
          · refine .congr (alikeAt_advance_bind hs (isAtEnd_of_ne fun heof => ?_) hleft
              fun start => ?_).weaken (hrun operand) (hrun operand')
            · rw [heof] at hop
              cases hop
            · exact alike_bind hoperand'.weaken fun right => ih hoperand' (by omega) _
          · refine ⟨by rw [hrun, hrun], ?_⟩
            rw [hrun]
            exact ⟨hs, Nat.le_refl _⟩

theorem alike_tiered (tier : Nat) :
    Alike tokens (k + 1) 1 (tiered nested tier) (tiered nested' tier) := by
  induction tier with
  | zero => exact alike_bounded fun j n hj hn => alike_unary hnested hj hn
  | succ tier ih =>
      rw [tiered_succ, tiered_succ]
      refine alike_bind_taking ih fun left => alike_bounded fun j n hj hn => ?_
      exact alike_operations _ (ih.mono (by omega) (Nat.le_refl 1)) hn left

/-- Each assignment takes a token. -/
theorem alike_assignments {j n : Nat} (hj : j ≤ k + 1) (hn : j ≤ n) :
    Alike tokens j 1 (assignments nested n) (assignments nested' n) := by
  induction n generalizing j with
  | zero =>
      obtain rfl : j = 0 := by omega
      exact alike_zero
  | succ n ih =>
      cases j with
      | zero => exact alike_zero
      | succ j =>
          rw [assignments_succ, assignments_succ]
          have htarget := (alike_tiered hnested 6).mono hj (Nat.le_refl 1)
          refine alike_bind_taking htarget fun target s hs hleft => ?_
          rcases assignedTo_round n target s with ⟨hkind, hrun⟩ | ⟨-, hrun⟩
          · refine .congr (alikeAt_advance_bind hs (isAtEnd_of_kind hkind (by simp))
              (Nat.le_succ_of_le hleft) fun start => ?_).weaken (hrun nested) (hrun nested')
            exact alike_bind (ih (by omega) (by omega)).weaken fun _ => alike_pure _
          · refine ⟨by rw [hrun, hrun], ?_⟩
            rw [hrun]
            exact ⟨hs, Nat.le_refl _⟩

end Nested

/-- The bound on the nesting does not matter where it is no less than what is left. -/
theorem alike_expressionWithin {n m : Nat} (hn : k ≤ n) (hm : k ≤ m) :
    Alike tokens k 1 (expressionWithin n) (expressionWithin m) := by
  induction k generalizing n m with
  | zero => exact alike_zero
  | succ k ih =>
      obtain ⟨n, rfl⟩ : ∃ i, n = i + 1 := ⟨n - 1, by omega⟩
      obtain ⟨m, rfl⟩ : ∃ i, m = i + 1 := ⟨m - 1, by omega⟩
      have hnested : Alike tokens k 1 (expressionWithin n) (expressionWithin m) :=
        ih (by omega) (by omega)
      exact alike_bounded fun j b hj hb => alike_assignments hnested hj hb

theorem alike_expression : Alike tokens k 1 expression expression :=
  alike_bounded fun _ _ _ hn => alike_expressionWithin hn hn

theorem alike_expressionOfTier (tier : Nat) :
    Alike tokens k 1 (expressionOfTier tier) (expressionOfTier tier) :=
  alike_bounded fun _ _ _ hn =>
    (alike_tiered (alike_expressionWithin hn hn) tier).mono (Nat.le_succ _) (Nat.le_refl 1)

theorem alike_condition : Alike tokens k 1 condition condition := by
  cases k with
  | zero => exact alike_zero
  | succ k =>
      refine alike_bind_taking alike_expression fun e => ?_
      cases e <;> exact alike_pure _

/-! ## Rounds of a loop over statements -/

/-- What a round of a loop over statements makes of the statements read so far, and the stream of
the next round; or the error that ends the loop. An error that is not fatal is recorded, and the next
round starts where reading can go on. -/
def afterRound (insideBlock : Bool) (previous : List Statement) :
    EStateM.Result CompileError Stream Statement →
      Except (CompileError × Stream) (List Statement × Stream)
  | .ok statement s => .ok (statement :: previous, s)
  | .error error s =>
    if error.isFatal then .error (error, s)
    else .ok (previous, (s.record error).synchronize insideBlock)

/-- Only a fatal error of the reader ends a loop. -/
theorem eq_of_afterRound {insideBlock : Bool} {previous : List Statement}
    {r : EStateM.Result CompileError Stream Statement} {e : CompileError} {s : Stream}
    (h : afterRound insideBlock previous r = .error (e, s)) :
    r = .error e s ∧ e.isFatal = true := by
  cases r with
  | ok statement s' => cases h
  | error e' s' =>
      simp only [afterRound] at h
      split at h
      · next hfatal =>
        cases h
        exact ⟨rfl, hfatal⟩
      · cases h

theorem blockBody_succ (nested : Parser Statement) (n : Nat) (previous : List Statement)
    (s : Stream) :
    blockBody nested (n + 1) previous s =
      if endsBlock s then .ok previous.reverse s
      else
        match afterRound true previous (nested s) with
        | .ok (previous', s') => blockBody nested n previous' s'
        | .error (error, s') => .error error s' := by
  simp only [blockBody]
  split
  · rfl
  · cases nested s with
    | ok statement s' => rfl
    | error error s' =>
        simp only [afterRound]
        split <;> rfl

/-- Whether the statements of a program end at the current token, well or not. -/
def endsProgram (s : Stream) : Bool :=
  match s.kind with
  | .eof | .keyword .khatam => true
  | _ => false

theorem programBody_succ {markers : Bool} {n : Nat} {previous : List Statement} {s : Stream}
    (h : endsProgram s = false) :
    programBody markers (n + 1) previous s =
      match afterRound false previous (declaration true s) with
      | .ok (previous', s') => programBody markers n previous' s'
      | .error (error, s') => .error (s'.record error).errors.toList := by
  simp only [programBody]
  split
  · next hkind => simp [endsProgram, hkind] at h
  · next hkind => simp [endsProgram, hkind] at h
  · cases declaration true s with
    | ok statement s' => rfl
    | error error s' =>
        simp only [afterRound]
        split <;> rfl

theorem isClosing_block (s : Stream) : s.isClosing true = endsBlock s := by
  unfold Stream.isClosing endsBlock
  cases s.kind with
  | keyword k => cases k <;> rfl
  | sign s => cases s <;> rfl
  | _ => rfl

theorem isClosing_program (s : Stream) : s.isClosing false = endsProgram s := by
  unfold Stream.isClosing endsProgram
  cases s.kind with
  | keyword k => cases k <;> rfl
  | sign s => cases s <;> rfl
  | _ => rfl

/-- **A round takes a token.** Recovery takes none only at a token that closes what is being read,
and the round did not start at such a token; so the reader has taken a token before it failed. -/
theorem afterRound_moves {insideBlock : Bool} {previous previous' : List Statement} {s s' : Stream}
    {r : EStateM.Result CompileError Stream Statement} (hs : s.Within tokens)
    (hr : Moves tokens 1 s r) (hclosing : s.isClosing insideBlock = false)
    (h : afterRound insideBlock previous r = .ok (previous', s')) :
    s'.Within tokens ∧ s.cursor < s'.cursor := by
  cases r with
  | ok statement s₁ =>
      cases h
      exact ⟨hr.1, hr.2⟩
  | error e s₁ =>
      obtain ⟨hwithin, hle, hcause⟩ := hr
      simp only [afterRound] at h
      split at h
      · cases h
      · cases h
        obtain ⟨hwithin', hle', -⟩ := (hwithin.record hcause).synchronize insideBlock
        refine ⟨hwithin', ?_⟩
        by_cases hmoved : s.cursor < s₁.cursor
        · have hcursor : (s₁.record e).cursor = s₁.cursor := rfl
          omega
        · -- nothing has been taken: the reader failed at the token at which the round started
          have hcursor : s₁.cursor = s.cursor := by omega
          have hkind : (s₁.record e).isClosing insideBlock = false := by
            rw [← hclosing]
            simp only [Stream.isClosing, Stream.kind, Stream.peek, Stream.record, hwithin.tokens_eq,
              hs.tokens_eq, hcursor]
          rw [hkind] at hle'
          have hrecord : (s₁.record e).cursor = s₁.cursor := rfl
          simp only [Bool.false_eq_true, if_false] at hle'
          omega

/-- A round of the loop over the statements of a block, for every reader that reads the statement at
hand like this one. -/
theorem blockRound {nested : Parser Statement} {s : Stream} (hs : s.Within tokens)
    (hmoves : Moves tokens 1 s (nested s)) (previous : List Statement) :
    (endsBlock s = true ∧
      ∀ (x : Parser Statement) n, blockBody x (n + 1) previous s = .ok previous.reverse s) ∨
    (∃ e s', nested s = .error e s' ∧ e.isFatal = true ∧
      ∀ x, x s = nested s → ∀ n, blockBody x (n + 1) previous s = .error e s') ∨
    (∃ previous' s', s'.Within tokens ∧ s.cursor < s'.cursor ∧
      ∀ x, x s = nested s → ∀ n, blockBody x (n + 1) previous s = blockBody x n previous' s') := by
  cases hends : endsBlock s with
  | true =>
      refine .inl ⟨rfl, fun x n => ?_⟩
      rw [blockBody_succ, if_pos hends]
  | false =>
      have hclosing : s.isClosing true = false := (isClosing_block s).trans hends
      cases hafter : afterRound true previous (nested s) with
      | error failure =>
          obtain ⟨hrun, hfatal⟩ := eq_of_afterRound hafter
          refine .inr (.inl ⟨failure.1, failure.2, hrun, hfatal, fun x hx n => ?_⟩)
          rw [blockBody_succ, if_neg (by simp [hends]), hx, hafter]
      | ok next =>
          obtain ⟨hwithin, hlt⟩ := afterRound_moves hs hmoves hclosing hafter
          refine .inr (.inr ⟨next.1, next.2, hwithin, hlt, fun x hx n => ?_⟩)
          rw [blockBody_succ, if_neg (by simp [hends]), hx, hafter]

/-! ## Statements -/

section Nested

variable {nested nested' : Parser Statement} (hnested : Alike tokens k 1 nested nested')

include hnested

/-- Each round takes a token. -/
theorem alike_blockBody {j n : Nat} (hj : j ≤ k) (hn : j ≤ n) (previous : List Statement) :
    Alike tokens j 0 (blockBody nested n previous) (blockBody nested' n previous) := by
  induction n generalizing j previous with
  | zero =>
      obtain rfl : j = 0 := by omega
      exact alike_zero
  | succ n ih =>
      intro s hs hleft
      have hnested' := hnested s hs (Nat.le_trans hleft hj)
      rcases blockRound hs hnested'.moves previous with
        ⟨-, hrun⟩ | ⟨e, s', hresult, -, hrun⟩ | ⟨previous', s', hwithin, hlt, hrun⟩
      · refine ⟨by rw [hrun, hrun], ?_⟩
        rw [hrun]
        exact ⟨hs, Nat.le_refl _⟩
      · have hmoves := hnested'.moves
        rw [hresult] at hmoves
        refine ⟨by rw [hrun nested rfl, hrun nested' hnested'.eq], ?_⟩
        rw [hrun nested rfl]
        exact hmoves
      · have hrest : AlikeAt tokens 0 s' (blockBody nested n previous')
            (blockBody nested' n previous') := by
          refine ih (j := j - 1) (by omega) (by omega) previous' s' hwithin ?_
          have hleft₀ := hs.left_eq
          have hleft₁ := hwithin.left_eq
          omega
        have hcursor : s.cursor + 0 ≤ s'.cursor := by omega
        refine ⟨by rw [hrun nested rfl, hrun nested' hnested'.eq, hrest.eq], ?_⟩
        rw [hrun nested rfl]
        exact hrest.moves.after hcursor

theorem alike_blockOf (context : String) :
    Alike tokens (k + 1) 1 (blockOf nested context) (blockOf nested' context) := by
  refine alike_bind_taking (alike_consume rfl _) fun start => ?_
  refine alike_bind (alike_bounded fun j n hj hn => alike_blockBody hnested hj hn []) fun _ => ?_
  exact alike_bind (alike_consume rfl _).weaken fun _ => alike_pure _

theorem alike_routine (what : String) :
    Alike tokens (k + 1) 1 (routine nested what) (routine nested' what) := by
  refine alike_bind_taking (alike_consume rfl _) fun _ => ?_
  refine alike_bind (alike_commaSeparated (alike_identifier _) _ _).weaken fun parameters => ?_
  exact alike_bind ((alike_blockOf hnested _).mono (Nat.le_succ k) (Nat.zero_le 1)) fun _ =>
    alike_pure _

omit hnested in
/-- Each modifier takes a token. -/
theorem alike_methodModifiers {n : Nat} (hn : k ≤ n) (access : Access) (isStatic : Bool) :
    Alike tokens k 0 (methodModifiers n access isStatic) (methodModifiers n access isStatic) := by
  induction n generalizing k access isStatic with
  | zero =>
      obtain rfl : k = 0 := by omega
      exact alike_zero
  | succ n ih =>
      intro s hs hleft
      have hmodifier : ∀ (word : Keyword) access isStatic, s.kind = .keyword word →
          Moves tokens 0 s (methodModifiers n access isStatic s.advance) := by
        intro word access isStatic hkind
        have hcursor := Stream.Within.cursor_advance (isAtEnd_of_kind hkind (by simp))
        have hrest := ih (k := k - 1) (by omega) access isStatic s.advance hs.advance (by
          have hleft₀ := hs.left_eq
          have hleft₁ := hs.advance.left_eq
          omega)
        have hbehind : s.cursor + 0 ≤ s.advance.cursor := by omega
        exact hrest.moves.after hbehind
      refine ⟨rfl, ?_⟩
      simp only [methodModifiers]
      split
      · exact ⟨hs, Nat.le_refl _⟩
      · split
        · next hkind => exact hmodifier _ _ _ hkind
        · next hkind => exact hmodifier _ _ _ hkind
        · next hkind => exact hmodifier _ _ _ hkind
        · next hkind => exact hmodifier _ _ _ hkind
        · exact ⟨hs, Nat.le_refl _⟩

omit hnested in
theorem alike_skipFunctionWord : Alike tokens k 0 skipFunctionWord skipFunctionWord := by
  refine alike_of_moves fun s hs => ?_
  unfold skipFunctionWord
  split
  · exact ⟨hs, Nat.le_refl _⟩
  · next hkind _ => exact (moves_advance hs (isAtEnd_of_kind hkind (by simp)) _).mono (Nat.zero_le 1)
  · exact ⟨hs, Nat.le_refl _⟩

theorem alike_method : Alike tokens (k + 1) 1 (method nested) (method nested') := by
  have hroutine := alike_routine hnested "method"
  refine alike_get_bind fun s hs hleft => ?_
  refine alike_bind (k := k + 1) (alike_bounded fun j n _ hn =>
    alike_methodModifiers hn .sabka false) (fun modifiers => ?_) s hs hleft
  refine alike_bind alike_skipFunctionWord fun _ => alike_accept_bind rfl (Nat.le_refl 1) ?_ ?_
  · exact alike_bind (hroutine.mono (Nat.le_succ k) (Nat.zero_le 1)) fun _ => alike_pure _
  · refine alike_bind_taking (alike_memberName _) fun name => ?_
    exact alike_bind (hroutine.mono (Nat.le_succ k) (Nat.zero_le 1)) fun _ => alike_pure _

/-- Each method takes a token, and so does each stray semicolon. -/
theorem alike_classBody {j n : Nat} (hj : j ≤ k) (hn : j ≤ n) (previous : List Method) :
    Alike tokens j 0 (classBody nested n previous) (classBody nested' n previous) := by
  induction n generalizing j previous with
  | zero =>
      obtain rfl : j = 0 := by omega
      exact alike_zero
  | succ n ih =>
      cases j with
      | zero => exact alike_zero
      | succ j =>
          have hrest := fun previous => ih (j := j) (by omega) (by omega) previous
          intro s hs hleft
          -- a round ends the body, passes over a semicolon, or reads a method; the latter two take
          -- a token
          by_cases hends : endsBlock s = true
          · have hrun : ∀ nested, classBody nested (n + 1) previous s = .ok previous.reverse s := by
              intro nested
              simp only [classBody, hends, if_true]
            refine ⟨by rw [hrun, hrun], ?_⟩
            rw [hrun]
            exact ⟨hs, Nat.le_refl _⟩
          by_cases hsemicolon : s.check (.sign .semicolon) = true
          · have hrun : ∀ nested, classBody nested (n + 1) previous s =
                (advance >>= fun _ => classBody nested n previous) s := by
              intro nested
              simp only [classBody, if_neg hends, hsemicolon, if_true]
              rfl
            have hend := isAtEnd_of_check hsemicolon rfl
            exact .congr (alikeAt_advance_bind hs hend hleft fun _ => hrest previous).weaken
              (hrun nested) (hrun nested')
          · have hrun : ∀ nested, classBody nested (n + 1) previous s =
                (method nested >>= fun m => classBody nested n (m :: previous)) s := by
              intro nested
              simp only [classBody, if_neg hends, if_neg hsemicolon]
              exact eq_bind (fun _ _ hrun => by rw [hrun]) (fun _ _ hrun => by rw [hrun])
            have hmethod : Alike tokens (j + 1) 1 (method nested) (method nested') :=
              (alike_method hnested).mono (by omega) (Nat.le_refl 1)
            have hround := alike_bind_taking hmethod fun m => hrest (m :: previous)
            exact .congr (hround s hs hleft).weaken (hrun nested) (hrun nested')

end Nested

theorem alike_superclassName? : Alike tokens k 0 superclassName? superclassName? := by
  refine alike_accept_bind rfl (Nat.zero_le 1) ?_ (alike_pure _)
  exact alike_bind (alike_identifier _).weaken fun _ => alike_pure _

/-! The readers of this section stand at the word with which a construct starts. -/

section Keyword

variable {s : Stream} (hs : s.Within tokens) (hend : s.isAtEnd = false) (hleft : s.left ≤ k + 1)

include hs hend hleft

theorem alikeAt_functionDecl {nested nested' : Parser Statement}
    (hnested : Alike tokens k 1 nested nested') :
    AlikeAt tokens 1 s (functionDecl nested) (functionDecl nested') := by
  refine alikeAt_advance_bind hs hend hleft fun _ => alike_get_bind fun s hs hleft => ?_
  refine alike_bind (k := k) (alike_identifier _).weaken (fun name => ?_) s hs hleft
  exact alike_bind ((alike_routine hnested _).mono (Nat.le_succ k) (Nat.zero_le 1)) fun _ =>
    alike_pure _

theorem alikeAt_classDeclOf {nested nested' : Parser Statement}
    (hnested : Alike tokens k 1 nested nested') :
    AlikeAt tokens 1 s (classDeclOf nested) (classDeclOf nested') := by
  refine alikeAt_advance_bind hs hend hleft fun start => ?_
  refine alike_bind (alike_identifier _).weaken fun name => ?_
  refine alike_bind alike_superclassName? fun superclass => ?_
  refine alike_bind (alike_consume rfl _).weaken fun _ => ?_
  refine alike_bind (alike_bounded fun j n hj hn => alike_classBody hnested hj hn []) fun _ => ?_
  exact alike_bind (alike_consume rfl _).weaken fun _ => alike_pure _

theorem alikeAt_bindingDecl (constant : Bool) :
    AlikeAt tokens 1 s (bindingDecl constant) (bindingDecl constant) := by
  refine alikeAt_advance_bind hs hend hleft fun start => ?_
  refine alike_bind (alike_identifier _).weaken fun name => ?_
  refine alike_bind (alike_consume rfl _).weaken fun _ => ?_
  exact alike_bind alike_expression.weaken fun _ =>
    alike_bind (alike_boundary _) fun _ => alike_pure _

theorem alikeAt_returnStatement : AlikeAt tokens 1 s returnStatement returnStatement := by
  refine alikeAt_advance_bind hs hend hleft fun start => alike_get_bind fun s hs hleft => ?_
  split
  · exact alike_bind (k := k) (alike_boundary _) (fun _ => alike_pure _) s hs hleft
  · exact alike_bind (k := k) alike_expression.weaken
      (fun _ => alike_bind (alike_boundary _) fun _ => alike_pure _) s hs hleft

theorem alikeAt_printStatement : AlikeAt tokens 1 s printStatement printStatement := by
  refine alikeAt_advance_bind hs hend hleft fun start => ?_
  exact alike_bind alike_expression.weaken fun _ =>
    alike_bind (alike_boundary _) fun _ => alike_pure _

theorem alikeAt_importStatement : AlikeAt tokens 1 s importStatement importStatement := by
  have hname : Alike tokens k 0 moduleName moduleName := by
    refine alike_of_moves fun s hs => ?_
    unfold moduleName
    split
    · next hkind => exact (moves_advance hs (isAtEnd_of_kind hkind (by simp)) _).mono (Nat.zero_le 1)
    · exact moves_expected hs _
  refine alikeAt_advance_bind hs hend hleft fun start => ?_
  refine alike_bind (alike_consume rfl _).weaken fun _ => ?_
  refine alike_bind (alike_commaSeparated (alike_identifier _) _ _).weaken fun names => ?_
  refine alike_bind (alike_consume rfl _).weaken fun _ => ?_
  exact alike_bind hname fun _ => alike_bind (alike_boundary _) fun _ => alike_pure _

theorem alikeAt_conditionalStatement {nested nested' : Parser Statement}
    (hnested : Alike tokens k 1 nested nested') :
    AlikeAt tokens 1 s (conditionalStatement nested) (conditionalStatement nested') := by
  refine alikeAt_advance_bind hs hend hleft fun start => ?_
  refine alike_bind alike_condition.weaken fun test => ?_
  refine alike_bind hnested.weaken fun thenBranch => ?_
  refine alike_accept_bind rfl (Nat.zero_le 1) ?_ (alike_pure _)
  exact alike_bind (hnested.mono (Nat.sub_le k 1) (Nat.zero_le 1)) fun _ => alike_pure _

theorem alikeAt_loopStatement {nested nested' : Parser Statement}
    (hnested : Alike tokens k 1 nested nested') :
    AlikeAt tokens 1 s (loopStatement nested) (loopStatement nested') := by
  refine alikeAt_advance_bind hs hend hleft fun start => ?_
  exact alike_bind alike_condition.weaken fun test =>
    alike_bind hnested.weaken fun _ => alike_pure _

theorem alikeAt_exportStatement {nested nested' : Parser Statement}
    (hnested : Alike tokens k 1 nested nested') :
    AlikeAt tokens 1 s (exportStatement nested) (exportStatement nested') := by
  have hdeclaration : ∀ pos : Position, Alike tokens k 0
      (nested >>= fun declaration => pure (Statement.exportDecl declaration pos))
      (nested' >>= fun declaration => pure (Statement.exportDecl declaration pos)) :=
    fun pos => alike_bind hnested.weaken fun _ => alike_pure _
  refine alikeAt_advance_bind hs hend hleft fun start => alike_get_bind fun s hs hleft => ?_
  split
  · next hkind =>
    refine (alikeAt_advance_bind hs (isAtEnd_of_kind hkind (by simp)) (Nat.le_succ_of_le hleft)
      fun _ => ?_).weaken
    refine alike_bind (alike_commaSeparated (alike_identifier _) _ _).weaken fun names => ?_
    exact alike_bind (alike_boundary _) fun _ => alike_pure _
  · exact hdeclaration _ s hs hleft
  · exact hdeclaration _ s hs hleft
  · exact hdeclaration _ s hs hleft
  · exact hdeclaration _ s hs hleft
  · exact alike_failExpected (k := k) 0 _ s hs hleft

end Keyword

theorem alike_expressionStatement :
    Alike tokens (k + 1) 1 expressionStatement expressionStatement := by
  refine alike_get_bind fun s hs hleft => ?_
  exact alike_bind_taking (k := k) alike_expression
    (fun _ => alike_bind (alike_boundary _) fun _ => alike_pure _) s hs hleft

theorem alike_statementOf {nested nested' : Bool → Parser Statement}
    (hnested : ∀ topLevel, Alike tokens k 1 (nested topLevel) (nested' topLevel))
    (topLevel : Bool) :
    Alike tokens (k + 1) 1 (statementOf nested topLevel) (statementOf nested' topLevel) := by
  intro s hs hleft
  have hfalse := hnested false
  -- a word that may not stand here is refused and not taken
  have hrefused : ∀ cause : CompileError.Cause, cause ≠ .exhausted →
      AlikeAt tokens 1 s (fun s => .error ⟨cause, s.position⟩ s : Parser Statement)
        (fun s => .error ⟨cause, s.position⟩ s) :=
    fun cause hcause => ⟨rfl, hs, Nat.le_refl _, hcause⟩
  suffices h : AlikeAt tokens 1 s (fun _ => statementOf nested topLevel s)
      (fun _ => statementOf nested' topLevel s) from ⟨h.eq, h.moves⟩
  simp only [statementOf]
  generalize hkind : s.kind = kind
  -- one case for each word or sign with which a statement starts
  split
  · exact (alikeAt_bindingDecl hs (isAtEnd_of_kind hkind (by simp)) hleft false).congr rfl rfl
  · exact (alikeAt_bindingDecl hs (isAtEnd_of_kind hkind (by simp)) hleft true).congr rfl rfl
  · exact (alikeAt_functionDecl hs (isAtEnd_of_kind hkind (by simp)) hleft hfalse).congr rfl rfl
  · exact (alikeAt_classDeclOf hs (isAtEnd_of_kind hkind (by simp)) hleft hfalse).congr rfl rfl
  · split
    · exact (alikeAt_importStatement hs (isAtEnd_of_kind hkind (by simp)) hleft).congr rfl rfl
    · exact (hrefused _ (by simp [CompileError.Cause.exhausted])).congr rfl rfl
  · split
    · have hexport := hnested true
      exact (alikeAt_exportStatement hs (isAtEnd_of_kind hkind (by simp)) hleft hexport).congr rfl rfl
    · exact (hrefused _ (by simp [CompileError.Cause.exhausted])).congr rfl rfl
  · exact (hrefused _ (by simp [CompileError.Cause.exhausted])).congr rfl rfl
  · exact (alikeAt_conditionalStatement hs (isAtEnd_of_kind hkind (by simp)) hleft hfalse).congr
      rfl rfl
  · exact (alikeAt_loopStatement hs (isAtEnd_of_kind hkind (by simp)) hleft hfalse).congr rfl rfl
  · exact (alikeAt_returnStatement hs (isAtEnd_of_kind hkind (by simp)) hleft).congr rfl rfl
  · exact (alikeAt_printStatement hs (isAtEnd_of_kind hkind (by simp)) hleft).congr rfl rfl
  · have hblock : Alike tokens (k + 1) 1
        (blockOf (nested false) "block" >>= fun b => pure (Statement.block b.2 b.1))
        (blockOf (nested' false) "block" >>= fun b => pure (Statement.block b.2 b.1)) :=
      alike_bind_taking (alike_blockOf hfalse _) fun _ => alike_pure _
    refine (hblock s hs hleft).congr ?_ ?_ <;>
      exact eq_bind (fun _ _ hrun => by rw [hrun]; rfl) (fun _ _ hrun => by rw [hrun])
  · exact ⟨rfl, moves_advance hs (isAtEnd_of_kind hkind (by simp)) _⟩
  · exact (alike_expressionStatement s hs hleft).congr rfl rfl

/-- The bound on the nesting does not matter where it is no less than what is left. -/
theorem alike_declarationWithin {n m : Nat} (hn : k ≤ n) (hm : k ≤ m) (topLevel : Bool) :
    Alike tokens k 1 (declarationWithin n topLevel) (declarationWithin m topLevel) := by
  induction k generalizing n m topLevel with
  | zero => exact alike_zero
  | succ k ih =>
      obtain ⟨n, rfl⟩ : ∃ i, n = i + 1 := ⟨n - 1, by omega⟩
      obtain ⟨m, rfl⟩ : ∃ i, m = i + 1 := ⟨m - 1, by omega⟩
      exact alike_statementOf (fun topLevel => ih (by omega) (by omega) topLevel) topLevel

theorem alike_declaration (topLevel : Bool) :
    Alike tokens k 1 (declaration topLevel) (declaration topLevel) :=
  alike_bounded fun _ _ _ hn => alike_declarationWithin hn hn topLevel

/-! ## Programs -/

theorem fatal_cause {s : Stream} (hs : s.Within tokens) {cause : CompileError.Cause}
    (hcause : cause ≠ .exhausted) {errors : List CompileError}
    (h : fatal cause s = .error errors) : ∀ e ∈ errors, e.cause ≠ .exhausted := by
  cases h
  intro e he
  exact (hs.record (e := ⟨cause, s.position⟩) hcause).errors e (Array.mem_toList_iff.mp he)

theorem conclude_cause {s : Stream} (hs : s.Within tokens) {markers : Bool} {body : List Statement}
    {errors : List CompileError} (h : conclude markers body s = .error errors) :
    ∀ e ∈ errors, e.cause ≠ .exhausted := by
  unfold conclude at h
  split at h
  · cases h
  · cases h
    exact fun e he => hs.errors e (Array.mem_toList_iff.mp he)

/-- Where the statements of a program end, no bound is needed. -/
theorem programBody_stops {s : Stream} (hs : s.Within tokens) (hends : endsProgram s = true)
    (markers : Bool) (n : Nat) (previous : List Statement) :
    programBody markers (n + 1) previous s = programBody markers 1 previous s ∧
      ∀ errors, programBody markers 1 previous s = .error errors →
        ∀ e ∈ errors, e.cause ≠ .exhausted := by
  unfold endsProgram at hends
  split at hends
  · next hkind =>
    simp only [programBody, hkind]
    refine ⟨trivial, fun errors h => ?_⟩
    split at h
    · exact fatal_cause hs (by simp [CompileError.Cause.exhausted]) h
    · exact conclude_cause hs h
  · next hkind =>
    simp only [programBody, hkind]
    refine ⟨trivial, fun errors h => ?_⟩
    split at h
    · split at h
      · exact conclude_cause hs.advance h
      · exact fatal_cause hs.advance (by simp [CompileError.Cause.exhausted]) h
    · exact fatal_cause hs (by simp [CompileError.Cause.exhausted]) h
  · cases hends

/-- A round of the loop over the statements of a program. -/
theorem programRound {s : Stream} (hs : s.Within tokens) (markers : Bool)
    (previous : List Statement) :
    (endsProgram s = true ∧ ∃ r, ∀ n, programBody markers (n + 1) previous s = r) ∨
    (∃ e s', declaration true s = .error e s' ∧ e.isFatal = true ∧
      ∀ n, programBody markers (n + 1) previous s = .error (s'.record e).errors.toList) ∨
    (∃ previous' s', s'.Within tokens ∧ s.cursor < s'.cursor ∧
      ∀ n, programBody markers (n + 1) previous s = programBody markers n previous' s') := by
  cases hends : endsProgram s with
  | true => exact .inl ⟨rfl, _, fun n => (programBody_stops hs hends markers n previous).1⟩
  | false =>
      have hmoves := (alike_declaration (k := s.left) true s hs (Nat.le_refl _)).moves
      have hclosing : s.isClosing false = false := (isClosing_program s).trans hends
      cases hafter : afterRound false previous (declaration true s) with
      | error failure =>
          obtain ⟨hrun, hfatal⟩ := eq_of_afterRound hafter
          refine .inr (.inl ⟨failure.1, failure.2, hrun, hfatal, fun n => ?_⟩)
          rw [programBody_succ hends, hafter]
      | ok next =>
          obtain ⟨hwithin, hlt⟩ := afterRound_moves hs hmoves hclosing hafter
          refine .inr (.inr ⟨next.1, next.2, hwithin, hlt, fun n => ?_⟩)
          rw [programBody_succ hends, hafter]

/-- **The loop over the statements of a program ends before its bound does**, and then the bound does
not matter. -/
theorem programBody_ends {markers : Bool} {n : Nat} {previous : List Statement} {s : Stream}
    (hs : s.Within tokens) (hn : s.left ≤ n) :
    (∀ m, s.left ≤ m → programBody markers m previous s = programBody markers n previous s) ∧
      ∀ errors, programBody markers n previous s = .error errors →
        ∀ e ∈ errors, e.cause ≠ .exhausted := by
  induction n generalizing previous s with
  | zero =>
      have hpos := hs.left_pos
      omega
  | succ n ih =>
      have hpos := hs.left_pos
      have hsucc : ∀ m, s.left ≤ m → ∃ i, m = i + 1 := fun m hm => ⟨m - 1, by omega⟩
      -- a round ends the program, stops at an error, or leaves fewer tokens
      rcases programRound hs markers previous with
        ⟨hends, r, hrun⟩ | ⟨e, s', hresult, -, hrun⟩ | ⟨previous', s', hwithin, hlt, hrun⟩
      · rw [hrun]
        refine ⟨fun m hm => ?_, fun errors h => ?_⟩
        · obtain ⟨m, rfl⟩ := hsucc m hm
          exact hrun m
        · exact (programBody_stops hs hends markers 0 previous).2 errors ((hrun 0).trans h)
      · have hmoves := (alike_declaration (k := s.left) true s hs (Nat.le_refl _)).moves
        rw [hresult] at hmoves
        obtain ⟨hwithin, -, hcause⟩ := hmoves
        rw [hrun]
        refine ⟨fun m hm => ?_, fun errors h => ?_⟩
        · obtain ⟨m, rfl⟩ := hsucc m hm
          exact hrun m
        · cases h
          exact fun e' he' => (hwithin.record hcause).errors e' (Array.mem_toList_iff.mp he')
      · have hleft : s'.left < s.left := by
          have hleft₀ := hs.left_eq
          have hleft₁ := hwithin.left_eq
          have hbelow := hwithin.cursor_lt
          omega
        rw [hrun]
        refine ⟨fun m hm => ?_, (ih hwithin (by omega)).2⟩
        obtain ⟨m, rfl⟩ := hsucc m hm
        rw [hrun]
        exact (ih hwithin (by omega)).1 m (by omega)

/-- What reading does at a stream of the given tokens, wherever its cursor is. The loops are given
the number of rounds they have left. -/
structure Advances (tokens : List Token) (s : Stream) : Prop where
  /-- A statement takes a token. -/
  declaration : ∀ topLevel, Moves tokens 1 s (declaration topLevel s)
  /-- An expression takes a token. -/
  expression : Moves tokens 1 s (expression s)
  /-- An operand of a binary operator takes a token. -/
  unary : Moves tokens 1 s (expressionOfTier 0 s)
  /-- A method takes a token. -/
  method : Moves tokens 1 s (method (Parser.declaration false) s)
  /-- A nested statement is read as if it stood alone, whatever bound is left. -/
  nested : ∀ n topLevel, s.left ≤ n → declarationWithin n topLevel s = Parser.declaration topLevel s
  /-- The loop over the statements of a program needs no more rounds than there are tokens. -/
  program : ∀ markers previous n, s.left ≤ n →
    programBody markers n previous s = programBody markers s.left previous s
  /-- A round of the loop over the statements of a program ends the loop, at a token that ends it or
  with a fatal error; or it takes a token. -/
  programRound : ∀ markers previous,
    (endsProgram s = true ∧ ∃ r, ∀ n, programBody markers (n + 1) previous s = r) ∨
    (∃ e s', Parser.declaration true s = .error e s' ∧ e.isFatal = true ∧
      ∀ n, programBody markers (n + 1) previous s = .error (s'.record e).errors.toList) ∨
    (∃ previous' s', s'.Within tokens ∧ s.cursor < s'.cursor ∧
      ∀ n, programBody markers (n + 1) previous s = programBody markers n previous' s')
  /-- A round of the loop over the statements of a block does the same. -/
  blockRound : ∀ previous,
    (endsBlock s = true ∧
      ∀ n, blockBody (Parser.declaration false) (n + 1) previous s = .ok previous.reverse s) ∨
    (∃ e s', Parser.declaration false s = .error e s' ∧ e.isFatal = true ∧
      ∀ n, blockBody (Parser.declaration false) (n + 1) previous s = .error e s') ∨
    (∃ previous' s', s'.Within tokens ∧ s.cursor < s'.cursor ∧
      ∀ n, blockBody (Parser.declaration false) (n + 1) previous s =
        blockBody (Parser.declaration false) n previous' s')
  /-- Recovery from an error ends where reading can go on. -/
  recovery : ∀ insideBlock, (s.synchronize insideBlock).isSettled = true

theorem advances {s : Stream} (hs : s.Within tokens) : Advances tokens s := by
  have hdeclaration := fun topLevel =>
    alike_declaration (k := s.left) topLevel s hs (Nat.le_refl _)
  refine ⟨fun topLevel => (hdeclaration topLevel).moves, ?_, ?_, ?_, ?_, ?_, programRound hs, ?_,
    ?_⟩
  · exact (alike_expression (k := s.left) s hs (Nat.le_refl _)).moves
  · exact (alike_expressionOfTier (k := s.left) 0 s hs (Nat.le_refl _)).moves
  · exact (alike_method (alike_declaration (k := s.left) false) s hs (Nat.le_succ _)).moves
  · intro n topLevel hn
    have hbound : s.left ≤ s.bound := Nat.le_add_right _ 4
    have halike : Alike tokens s.left 1 _ _ := alike_declarationWithin hbound hn topLevel
    exact (halike s hs (Nat.le_refl _)).eq
  · exact fun markers previous n hn => (programBody_ends hs (Nat.le_refl _)).1 n hn
  · intro previous
    rcases blockRound hs (hdeclaration false).moves previous with
      ⟨hends, hrun⟩ | ⟨e, s', hresult, hfatal, hrun⟩ | ⟨previous', s', hwithin, hlt, hrun⟩
    · exact .inl ⟨hends, hrun _⟩
    · exact .inr (.inl ⟨e, s', hresult, hfatal, hrun _ rfl⟩)
    · exact .inr (.inr ⟨previous', s', hwithin, hlt, hrun _ rfl⟩)
  · exact fun insideBlock => (hs.synchronize insideBlock).2.2

end Parser

namespace Program

/-- **Reading a list of tokens ends**, if the end token is the last of them and the only one: no
error says that a bound was used up. Wherever the cursor is, it moves forward and stays in front of
the end of the list; statements, expressions, operands and methods take a token, and so does every
round of a loop that recovers from errors and goes on. -/
theorem ofTokens_ends (tokens : List Token) (h : Token.EndsOnce tokens) :
    (∀ errors, ofTokens tokens = .error errors → ∀ e ∈ errors, e.cause ≠ .exhausted) ∧
      ∀ s : Stream, s.Within tokens → Parser.Advances tokens s := by
  refine ⟨?_, fun s hs => Parser.advances hs⟩
  have hs : (Stream.ofTokens tokens).Within tokens := by
    refine ⟨h, rfl, ?_, fun e he => absurd he (Array.not_mem_empty e)⟩
    obtain ⟨front, last, rfl, -, -⟩ := h
    simp [Stream.ofTokens]
  have hbound : (Stream.ofTokens tokens).left ≤ (Stream.ofTokens tokens).bound :=
    Nat.le_add_right _ 4
  unfold ofTokens
  dsimp only
  split
  · refine (Parser.programBody_ends hs.advance ?_).2
    have hleft := hs.left_eq
    have hadvance := hs.advance.left_eq
    have hcursor := (Stream.ofTokens tokens).cursor_le_advance
    omega
  · exact (Parser.programBody_ends hs hbound).2

/-- A closing brace without an opening one, and a declaration that breaks off. -/
theorem ofTokens_ends_stray_brace :
    let tokens : List Token := [⟨.sign .rightBrace, "\x7d", ⟨1, 1⟩⟩,
      ⟨.keyword .rakho, "rakho", ⟨1, 3⟩⟩, ⟨.eof, "", ⟨1, 8⟩⟩]
    Token.EndsOnce tokens ∧
      (∀ errors, ofTokens tokens = .error errors → ∀ e ∈ errors, e.cause ≠ .exhausted) ∧
      ∀ s : Stream, s.Within tokens → Parser.Advances tokens s := by
  intro tokens
  have h : Token.EndsOnce tokens := by
    refine ⟨tokens.take 2, _, rfl, rfl, ?_⟩
    simp [tokens]
  exact ⟨h, ofTokens_ends tokens h⟩

end Program

end Lipi
