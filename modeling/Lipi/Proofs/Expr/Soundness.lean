import Lipi.Proofs.Expr.Grammar
import Lipi.Proofs.Parser.Steady

set_option autoImplicit false

/-! # Expressions that are read are in the grammar

**If the reader of expressions gives a tree, the tokens it has taken spell the tree, the tree is in
normal form, and the token behind it cannot extend it** (`expression_parsed`). The readers of calls
and of binary operators are loops that carry the tree read so far; what is known of that tree is
what a whole reading promises, except that more may follow.
-/

namespace Lipi

namespace Parser

open Token (nth Opens)
open Lipi.Expr (Spells SpellsList SpellsMore AllNormal StopsAt CannotExtend)

variable {α β : Type} {s : Stream}

/-! ## Readings from a numbered token -/

/-- If the reader succeeds at the `i`-th token, it has only moved the cursor, to a token `j` that
satisfies `P` together with the result. -/
def GivesAt (s : Stream) (i : Nat) (x : Parser α) (P : α → Nat → Prop) : Prop :=
  ∀ a s', x (s.goto i) = .ok a s' → ∃ j, s' = s.goto j ∧ P a j

section
variable {i : Nat} {x y : Parser α} {P Q : α → Nat → Prop}

theorem GivesAt.mono (h : GivesAt s i x P) (hPQ : ∀ a j, P a j → Q a j) : GivesAt s i x Q := by
  intro a s' hrun
  obtain ⟨j, hs', ha⟩ := h a s' hrun
  exact ⟨j, hs', hPQ a j ha⟩

theorem GivesAt.congr (h : GivesAt s i y P) (heq : x (s.goto i) = y (s.goto i)) :
    GivesAt s i x P :=
  fun a s' hrun => h a s' (heq ▸ hrun)

theorem givesAt_of_eq {a : α} {j : Nat} (heq : x (s.goto i) = .ok a (s.goto j)) (h : P a j) :
    GivesAt s i x P := by
  intro a' s' hrun
  rw [heq] at hrun
  cases hrun
  exact ⟨j, rfl, h⟩

theorem givesAt_error {e : CompileError} {s' : Stream} (heq : x (s.goto i) = .error e s') :
    GivesAt s i x P := by
  intro a' s' hrun
  rw [heq] at hrun
  cases hrun

theorem GivesAt.bind {f : α → Parser β} {R : β → Nat → Prop} (h : GivesAt s i x P)
    (hf : ∀ a j, P a j → GivesAt s j (f a) R) : GivesAt s i (x >>= f) R := by
  intro b s'' hrun
  obtain ⟨a, s', hx, hrest⟩ := bind_ok hrun
  obtain ⟨j, rfl, ha⟩ := h a s' hx
  exact hf a j ha b s'' hrest

theorem givesAt_pure {a : α} (h : P a i) : GivesAt s i (pure a) P :=
  givesAt_of_eq rfl h

theorem givesAt_bounded {reader : Nat → Parser α} (h : ∀ n, GivesAt s i (reader n) P) :
    GivesAt s i (bounded reader) P :=
  (h (s.goto i).bound).congr rfl

end

section
variable {i : Nat} (hs : s.Ended)

include hs

theorem givesAt_advance (hkind : (nth s.tokens i).kind ≠ .eof) :
    GivesAt s i advance fun _ j => j = i + 1 :=
  givesAt_of_eq (congrArg (EStateM.Result.ok _) (hs.advance hkind).2) rfl

section
variable {kind : TokenKind} (hcheck : ∀ s : Stream, s.check kind = true ↔ s.kind = kind)
  (hne : kind ≠ .eof)

include hcheck hne

theorem givesAt_consume (expectation : String) :
    GivesAt s i (consume kind expectation) fun _ j =>
      (nth s.tokens i).kind = kind ∧ j = i + 1 := by
  by_cases hfound : (s.goto i).check kind = true
  · have hkind := (hs.kind i).symm.trans ((hcheck _).mp hfound)
    have hadvance := (hs.advance (hkind.trans_ne hne)).2
    refine givesAt_of_eq (a := (s.goto i).peek) ?_ ⟨hkind, rfl⟩
    rw [consume, if_pos hfound, hadvance]
  · have hfails : consume kind expectation (s.goto i)
        = .error ((s.goto i).expected expectation) (s.goto i) := by
      rw [consume, if_neg hfound]
    exact givesAt_error hfails

theorem givesAt_accept :
    GivesAt s i (accept kind) fun found j =>
      (found = true ∧ (nth s.tokens i).kind = kind ∧ j = i + 1) ∨
        (found = false ∧ (nth s.tokens i).kind ≠ kind ∧ j = i) := by
  by_cases hfound : (s.goto i).check kind = true
  · have hkind := (hs.kind i).symm.trans ((hcheck _).mp hfound)
    have hadvance := (hs.advance (hkind.trans_ne hne)).2
    refine givesAt_of_eq ?_ (.inl ⟨rfl, hkind, rfl⟩)
    rw [accept, if_pos hfound, hadvance]
  · refine givesAt_of_eq ?_ (.inr ⟨rfl, ?_, rfl⟩)
    · rw [accept, if_neg hfound]
    · rw [← hs.kind]
      exact fun hkind => hfound ((hcheck _).mpr hkind)

end

theorem givesAt_consume_sign (sign : Sign) (expectation : String) :
    GivesAt s i (consume (.sign sign) expectation) fun _ j =>
      (nth s.tokens i).kind = .sign sign ∧ j = i + 1 :=
  givesAt_consume hs (fun s => s.check_sign sign) (by simp) expectation

theorem givesAt_accept_sign (sign : Sign) :
    GivesAt s i (accept (.sign sign)) fun found j =>
      (found = true ∧ (nth s.tokens i).kind = .sign sign ∧ j = i + 1) ∨
        (found = false ∧ (nth s.tokens i).kind ≠ .sign sign ∧ j = i) :=
  givesAt_accept hs (fun s => s.check_sign sign) (by simp)

theorem givesAt_identifier (expectation : String) :
    GivesAt s i (identifier expectation) fun name j =>
      (nth s.tokens i).kind = .identifier name ∧ j = i + 1 := by
  intro name s' hrun
  obtain ⟨hkind, rfl⟩ := identifier_ok hrun
  rw [hs.kind] at hkind
  exact ⟨i + 1, (hs.advance (hkind.trans_ne (by simp))).2, hkind, rfl⟩

theorem givesAt_memberName (expectation : String) :
    GivesAt s i (memberName expectation) fun name j =>
      (nth s.tokens i).isWord = true ∧ (nth s.tokens i).lexeme = name ∧ j = i + 1 := by
  intro name s' hrun
  obtain ⟨hword, rfl, rfl⟩ := memberName_ok hrun
  have hkind : (nth s.tokens i).kind ≠ .eof := by
    rw [← hs.kind]
    intro heof
    have hpeek : (s.goto i).peek.kind = .eof := heof
    simp [Token.isWord, hpeek] at hword
  obtain ⟨hpeek, hadvance⟩ := hs.advance hkind
  rw [hpeek] at hword ⊢
  exact ⟨i + 1, hadvance, hword, rfl, rfl⟩

/-! ## Lists -/

variable {nested : Parser Expr}
  (hnested : ∀ i, GivesAt s i nested fun e j => Spells s.tokens e i j ∧ e.Normal)

include hnested

theorem givesAt_items (closing : Sign) (context : String) (n i : Nat) (previous : List Expr) :
    GivesAt s i (items nested closing context n previous) fun es j =>
      ∃ e es', es = previous.reverse ++ e :: es' ∧ SpellsList s.tokens closing (e :: es') i j ∧
        AllNormal (e :: es') := by
  induction n generalizing i previous with
  | zero => exact givesAt_error rfl
  | succ n ih =>
      refine (hnested i).bind fun e m he => (givesAt_accept_sign hs .comma).bind ?_
      rintro found m' (⟨rfl, hcomma, rfl⟩ | ⟨rfl, -, rfl⟩)
      · refine (ih (m + 1) (e :: previous)).mono ?_
        rintro es j ⟨e', es', rfl, ⟨m', he', hmore⟩, hnormal⟩
        refine ⟨e, e' :: es', by simp, ⟨m, he.1, hcomma, m', he', hmore⟩, he.2, hnormal⟩
      · refine (givesAt_consume_sign hs closing _).bind fun _ j hclose => givesAt_pure ?_
        exact ⟨e, [], by simp, ⟨_, he.1, hclose⟩, he.2, trivial⟩

theorem givesAt_commaSeparated (closing : Sign) (context : String) (i : Nat) :
    GivesAt s i (commaSeparated nested closing context) fun es j =>
      SpellsList s.tokens closing es i j ∧ AllNormal es := by
  refine (givesAt_accept_sign hs closing).bind ?_
  rintro found m (⟨rfl, hclose, rfl⟩ | ⟨rfl, -, rfl⟩)
  · exact givesAt_pure ⟨⟨hclose, rfl⟩, trivial⟩
  · refine givesAt_bounded fun n => (givesAt_items hs hnested closing context n m []).mono ?_
    rintro es j ⟨e, es', rfl, hspells⟩
    exact hspells

/-! ## Primary expressions, calls and members -/

/-- A primary expression, or one with calls and members behind it. -/
structure Postfix (tokens : Array Token) (e : Expr) (i j : Nat) : Prop where
  spells : Spells tokens e i j
  normal : e.Normal
  level : e.level = 0

omit hs hnested in
theorem postfix_of_expr? {tokens : Array Token} {e : Expr} (h : (nth tokens i).expr? = some e) :
    Postfix tokens e i (i + 1) := by
  rcases Token.expr?_some h with ⟨value, hvalue, rfl⟩ | ⟨name, hkind, rfl⟩ | ⟨hkind, rfl⟩ |
    ⟨hkind, rfl⟩
  · exact ⟨⟨hvalue, rfl⟩, trivial, rfl⟩
  · exact ⟨⟨hkind, rfl⟩, trivial, rfl⟩
  · exact ⟨⟨hkind, rfl⟩, trivial, rfl⟩
  · exact ⟨⟨hkind, rfl⟩, trivial, rfl⟩

theorem givesAt_primary (i : Nat) :
    GivesAt s i (primary nested) fun e j => Postfix s.tokens e i j := by
  have hlist := givesAt_commaSeparated hs hnested
  rcases primary_round (s.goto i) with
    ⟨e, he, hrun⟩ | ⟨hkind, hrun⟩ | ⟨hkind, hrun⟩ | ⟨hkind, hrun⟩ | hrun
  · have hnot : (nth s.tokens i).kind ≠ .eof := by
      rw [← hs.kind]
      intro heof
      have hpeek : (s.goto i).peek.kind = .eof := heof
      simp [Token.expr?, literal?, hpeek] at he
    obtain ⟨hpeek, hadvance⟩ := hs.advance hnot
    rw [hpeek] at he
    exact givesAt_of_eq ((hrun nested).trans (by rw [hadvance])) (postfix_of_expr? he)
  · rw [hs.kind] at hkind
    refine .congr ((givesAt_advance hs (by simp [hkind])).bind ?_) (hrun nested)
    rintro start _ rfl
    refine (givesAt_identifier hs _).bind ?_
    rintro name _ ⟨hname, rfl⟩
    refine (givesAt_accept_sign hs .leftParen).bind ?_
    rintro found _ (⟨rfl, hparen, rfl⟩ | ⟨rfl, hparen, rfl⟩)
    · refine (hlist _ _ _).bind fun es j hes => givesAt_pure ?_
      exact ⟨⟨hkind, hname, .inl ⟨hparen, hes.1⟩⟩, hes.2, rfl⟩
    · exact givesAt_pure ⟨⟨hkind, hname, .inr ⟨hparen, rfl, rfl⟩⟩, trivial, rfl⟩
  · rw [hs.kind] at hkind
    refine .congr ((givesAt_advance hs (by simp [hkind])).bind ?_) (hrun nested)
    rintro start _ rfl
    refine (hlist _ _ _).bind fun es j hes => givesAt_pure ?_
    exact ⟨⟨hkind, hes.1⟩, hes.2, rfl⟩
  · rw [hs.kind] at hkind
    refine .congr ((givesAt_advance hs (by simp [hkind])).bind ?_) (hrun nested)
    rintro start _ rfl
    refine (hnested _).bind fun inner m hinner => (givesAt_consume_sign hs _ _).bind ?_
    rintro _ _ ⟨hclose, rfl⟩
    exact givesAt_pure ⟨⟨hkind, m, hinner.1, hclose, rfl⟩, hinner.2, rfl⟩
  · exact givesAt_error (hrun nested)

theorem givesAt_continuation (n : Nat) {e : Expr} {i m : Nat} (he : Postfix s.tokens e i m) :
    GivesAt s m (continuation nested n e) fun e' j =>
      Postfix s.tokens e' i j ∧ StopsAt s.tokens 0 j := by
  induction n generalizing e m with
  | zero => exact givesAt_error rfl
  | succ n ih =>
      rcases continuation_round n e (s.goto m) with
        ⟨hopens, hrun⟩ | ⟨hdot, hrun⟩ | ⟨hopens, hrun⟩ | ⟨⟨hparen, hdot, hbracket⟩, hrun⟩
      · rw [hs.atBracket] at hopens
        refine .congr ((givesAt_advance hs (by simp [hopens.1])).bind ?_) (hrun nested)
        rintro start _ rfl
        refine (givesAt_commaSeparated hs hnested _ _ _).bind fun es j hes => ih ?_
        exact ⟨⟨m, he.spells, hopens, hes.1⟩, ⟨⟨he.level, he.normal⟩, hes.2⟩, rfl⟩
      · rw [hs.kind] at hdot
        refine .congr ((givesAt_advance hs (by simp [hdot])).bind ?_) (hrun nested)
        rintro start _ rfl
        refine (givesAt_memberName hs _).bind ?_
        rintro name _ ⟨hword, hname, rfl⟩
        exact ih ⟨⟨m, he.spells, hdot, hword, hname, rfl⟩, ⟨he.level, he.normal⟩, rfl⟩
      · rw [hs.atBracket] at hopens
        refine .congr ((givesAt_advance hs (by simp [hopens.1])).bind ?_) (hrun nested)
        rintro start _ rfl
        refine (hnested _).bind fun key m' hkey => (givesAt_consume_sign hs _ _).bind ?_
        rintro _ _ ⟨hclose, rfl⟩
        exact ih ⟨⟨m, m', he.spells, hopens, hkey.1, hclose, rfl⟩,
          ⟨⟨he.level, he.normal⟩, hkey.2⟩, rfl⟩
      · rw [hs.atBracket] at hparen hbracket
        rw [hs.kind] at hdot
        refine givesAt_of_eq (hrun nested) ⟨he, fun op _ => ?_, hparen, hdot, hbracket⟩
        exact (Expr.tier_pos op).1

/-! ## Operators -/

omit hs hnested in
/-- An expression of a tier: its operators outside parentheses are of that tier or tighter, and none
of these follows. -/
structure Tiered (tokens : Array Token) (tier : Nat) (e : Expr) (i j : Nat) : Prop where
  spells : Spells tokens e i j
  normal : e.Normal
  level : e.level ≤ tier + 1
  stops : StopsAt tokens tier j

theorem givesAt_unary (n i : Nat) :
    GivesAt s i (unary nested n) fun e j => Tiered s.tokens 0 e i j := by
  induction n generalizing i with
  | zero => exact givesAt_error rfl
  | succ n ih =>
      rcases unary_round n (s.goto i) with ⟨op, hop, hrun⟩ | ⟨-, hrun⟩
      · rw [hs.kind] at hop
        refine .congr ((givesAt_advance hs fun heof => ?_).bind ?_) (hrun nested)
        · rw [heof] at hop
          cases hop
        · rintro start _ rfl
          refine (ih (i + 1)).bind fun operand j h => givesAt_pure ?_
          exact ⟨⟨hop, h.spells⟩, ⟨h.level, h.normal⟩, Nat.le_refl 1, h.stops⟩
      · refine .congr ((givesAt_primary hs hnested i).bind fun e m he => ?_) (hrun nested)
        refine givesAt_bounded fun n => (givesAt_continuation hs hnested n he).mono ?_
        rintro e' j ⟨he', hstops⟩
        exact ⟨he'.spells, he'.normal, by rw [he'.level]; omega, hstops⟩

omit hnested in
theorem givesAt_operations {operand : Parser Expr} {tier : Nat}
    (hoperand : ∀ i, GivesAt s i operand fun e j => Tiered s.tokens tier e i j) (n : Nat)
    {left : Expr} {i m : Nat} (hspells : Spells s.tokens left i m) (hnormal : left.Normal)
    (hlevel : left.level ≤ tier + 2) (hstops : StopsAt s.tokens tier m) :
    GivesAt s m (operations (tier + 1) operand n left) fun e j =>
      Tiered s.tokens (tier + 1) e i j := by
  induction n generalizing left m with
  | zero => exact givesAt_error rfl
  | succ n ih =>
      rcases operations_round (tier + 1) n left (s.goto m) with ⟨op, hop, htier, hrun⟩ | ⟨hnone, hrun⟩
      · rw [hs.kind] at hop
        refine .congr ((givesAt_advance hs fun heof => ?_).bind ?_) (hrun operand)
        · rw [heof] at hop
          cases hop
        · rintro start _ rfl
          refine (hoperand (m + 1)).bind fun right j h => ?_
          have hright : right.level ≤ op.tier := by
            have hlevel := h.level
            omega
          refine ih ⟨m, hspells, hop, h.spells⟩ ⟨⟨by omega, hnormal⟩, hright, h.normal⟩ ?_ h.stops
          show op.tier + 1 ≤ tier + 2
          omega
      · refine givesAt_of_eq (hrun operand) ⟨hspells, hnormal, hlevel, ?_⟩
        refine ⟨fun op hop => ?_, hstops.call, hstops.member, hstops.index⟩
        -- no operator of a tighter tier follows the last operand, and none of this tier either
        have hlt := hstops.operator op hop
        have hne := hnone op (by rw [hs.kind]; exact hop)
        omega

theorem givesAt_tiered (tier i : Nat) :
    GivesAt s i (tiered nested tier) fun e j => Tiered s.tokens tier e i j := by
  induction tier generalizing i with
  | zero => exact givesAt_bounded fun n => givesAt_unary hs hnested n i
  | succ tier ih =>
      rw [tiered_succ]
      refine (ih i).bind fun left m h => givesAt_bounded fun n => ?_
      exact givesAt_operations hs ih n h.spells h.normal (Nat.le_succ_of_le h.level) h.stops

/-! ## Assignments and whole expressions -/

/-- An expression, with a token behind it that cannot extend it. -/
structure Whole (tokens : Array Token) (e : Expr) (i j : Nat) : Prop where
  spells : Spells tokens e i j
  normal : e.Normal
  stops : CannotExtend tokens j

theorem givesAt_assignments (n i : Nat) :
    GivesAt s i (assignments nested n) fun e j => Whole s.tokens e i j := by
  induction n generalizing i with
  | zero => exact givesAt_error rfl
  | succ n ih =>
      rw [assignments_succ]
      refine (givesAt_tiered hs hnested 6 i).bind fun target m h => ?_
      rcases assignedTo_round n target (s.goto m) with ⟨hkind, hrun⟩ | ⟨hkind, hrun⟩
      · rw [hs.kind] at hkind
        refine .congr ((givesAt_advance hs (by simp [hkind])).bind ?_) (hrun nested)
        rintro start _ rfl
        refine (ih (m + 1)).bind fun value j hvalue => givesAt_pure ?_
        exact ⟨⟨m, h.spells, hkind, hvalue.spells⟩, ⟨⟨h.level, h.normal⟩, hvalue.normal⟩,
          hvalue.stops⟩
      · rw [hs.kind] at hkind
        refine givesAt_of_eq (hrun nested) ⟨h.spells, h.normal, ?_⟩
        exact Expr.cannotExtend_iff.mpr ⟨h.stops, hkind⟩

end

theorem givesAt_expressionWithin (hs : s.Ended) (n i : Nat) :
    GivesAt s i (expressionWithin n) fun e j => Whole s.tokens e i j := by
  induction n generalizing i with
  | zero => exact givesAt_error rfl
  | succ n ih =>
      refine givesAt_bounded fun m => givesAt_assignments hs (fun i => ?_) m i
      exact (ih i).mono fun e j h => ⟨h.spells, h.normal⟩

/-- **An expression that is read is in the grammar.** -/
theorem expression_parsed (hs : s.Ended) {i : Nat} {e : Expr} {s' : Stream}
    (h : expression (s.goto i) = .ok e s') :
    ∃ j, s' = s.goto j ∧ Whole s.tokens e i j :=
  givesAt_bounded (fun n => givesAt_expressionWithin hs n i) e s' h

end Parser

end Lipi
