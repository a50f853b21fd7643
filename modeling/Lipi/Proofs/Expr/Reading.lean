import Lipi.Expr.Parser
import Lipi.Proofs.Expr.Items
import Lipi.Proofs.Token.Lexed

set_option autoImplicit false

/-! # The expressions that are read

**Every expression that a reader gives is well-formed** (`expression_read`). The reader of a tier
gives an expression that binds at least as tightly as its tier asks for, and stops in front of the
operators that bind more loosely. An expression that has been read only grows: what later rounds of a
loop make of it contains it on its left edge (`Expr.Grows`).
-/

namespace Lipi

/-! ## Growth -/

/-- The second expression starts like the first one, and is no less deep. -/
structure Expr.Grows (e e' : Expr) : Prop where
  opening : e'.opening = e.opening
  depth : e.depth ≤ e'.depth

namespace Expr.Grows

theorem refl (e : Expr) : Grows e e :=
  ⟨rfl, Nat.le_refl _⟩

theorem trans {e e' e'' : Expr} (h : Grows e e') (h' : Grows e' e'') : Grows e e'' :=
  ⟨h'.opening.trans h.opening, Nat.le_trans h.depth h'.depth⟩

theorem call (e : Expr) (es : List Expr) (pos : Position) : Grows e (.call e es pos) := by
  refine ⟨rfl, ?_⟩
  rw [Expr.depth]
  omega

theorem member (e : Expr) (name : String) (pos : Position) : Grows e (.member e name pos) := by
  refine ⟨rfl, ?_⟩
  rw [Expr.depth]
  omega

theorem index (e key : Expr) (pos : Position) : Grows e (.index e key pos) := by
  refine ⟨rfl, ?_⟩
  rw [Expr.depth]
  omega

theorem binary (op : BinaryOp) (e right : Expr) (pos : Position) :
    Grows e (.binary op e right pos) := by
  refine ⟨rfl, ?_⟩
  rw [Expr.depth]
  omega

theorem assign (e value : Expr) (pos : Position) : Grows e (.assign e value pos) := by
  refine ⟨rfl, ?_⟩
  rw [Expr.depth]
  omega

end Expr.Grows

namespace Parser

open Lipi.Expr (AllWellFormed Grows)

/-! ## Tokens and errors are kept -/

section Steady

variable {nested : Parser Expr} (hnested : Steady nested)

include hnested

theorem steady_primary : Steady (primary nested) := by
  have hlist := fun closing context => steady_commaSeparated hnested closing context
  have hnew : Steady (newInstance nested) := by
    refine steady_bind steady_advance fun _ => steady_bind (steady_identifier _) fun _ =>
      steady_bind (steady_accept _) fun more => ?_
    cases more with
    | true => exact steady_bind (hlist _ _) fun _ => steady_pure _
    | false => exact steady_pure _
  have harray : Steady (arrayLiteral nested) :=
    steady_bind steady_advance fun _ => steady_bind (hlist _ _) fun _ => steady_pure _
  have hgroup : Steady (groupedExpr nested) :=
    steady_bind steady_advance fun _ => steady_bind hnested fun _ =>
      steady_bind (steady_consume _ _) fun _ => steady_pure _
  intro s
  unfold primary
  split
  · exact .advance s
  · split
    · exact .advance s
    · exact .advance s
    · exact .advance s
    · exact hnew s
    · exact harray s
    · exact hgroup s
    · exact .refl s

theorem steady_continuation (n : Nat) (e : Expr) : Steady (continuation nested n e) := by
  induction n generalizing e with
  | zero => exact steady_failExhausted
  | succ n ih =>
      intro s
      have hadvance := Stream.Keeps.advance s
      simp only [continuation]
      split
      · split
        · exact .refl s
        · have hlist := steady_commaSeparated hnested .rightParen "arguments"
          split
          · next heq => exact (hadvance.trans (hlist.ok heq)).trans (ih _ _)
          · next heq => exact hadvance.trans (hlist.error heq)
      · split
        · next heq => exact (hadvance.trans ((steady_memberName _).ok heq)).trans (ih _ _)
        · next heq => exact hadvance.trans ((steady_memberName _).error heq)
      · split
        · exact .refl s
        · split
          · next heq =>
            have hkey := hadvance.trans (hnested.ok heq)
            split
            · next heq' => exact (hkey.trans ((steady_consume _ _).ok heq')).trans (ih _ _)
            · next heq' => exact hkey.trans ((steady_consume _ _).error heq')
          · next heq => exact hadvance.trans (hnested.error heq)
      · exact .refl s

theorem steady_unary (n : Nat) : Steady (unary nested n) := by
  induction n with
  | zero => exact steady_failExhausted
  | succ n ih =>
      intro s
      simp only [unary]
      split
      · split
        · next heq => exact (Stream.Keeps.advance s).trans (ih.ok heq)
        · next heq => exact (Stream.Keeps.advance s).trans (ih.error heq)
      · have hprimary := steady_primary hnested
        split
        · next e s' heq => exact (hprimary.ok heq).trans (steady_continuation hnested _ e s')
        · next heq => exact hprimary.error heq

omit hnested in
theorem steady_operations {operand : Parser Expr} (hoperand : Steady operand) (tier n : Nat)
    (left : Expr) : Steady (operations tier operand n left) := by
  induction n generalizing left with
  | zero => exact steady_failExhausted
  | succ n ih =>
      intro s
      simp only [operations]
      split
      · split
        · have hadvance := Stream.Keeps.advance s
          split
          · next heq => exact (hadvance.trans (hoperand.ok heq)).trans (ih _ _)
          · next heq => exact hadvance.trans (hoperand.error heq)
        · exact .refl s
      · exact .refl s

theorem steady_tiered (tier : Nat) : Steady (tiered nested tier) := by
  induction tier with
  | zero => exact steady_bounded fun n => steady_unary hnested n
  | succ tier ih =>
      intro s
      simp only [tiered]
      split
      · next e s' heq => exact (ih.ok heq).trans (steady_operations ih _ _ e s')
      · next heq => exact ih.error heq

theorem steady_assignments (n : Nat) : Steady (assignments nested n) := by
  induction n with
  | zero => exact steady_failExhausted
  | succ n ih =>
      intro s
      simp only [assignments]
      split
      · next target s' heq =>
        have hkeeps := (steady_tiered hnested 6).ok heq
        split
        · have hadvance := hkeeps.trans (.advance s')
          split
          · next heq' => exact hadvance.trans (ih.ok heq')
          · next heq' => exact hadvance.trans (ih.error heq')
        · exact hkeeps
      · next heq => exact (steady_tiered hnested 6).error heq

end Steady

theorem steady_expressionWithin (n : Nat) : Steady (expressionWithin n) := by
  induction n with
  | zero => exact steady_failExhausted
  | succ n ih => exact steady_bounded fun n => steady_assignments ih n

theorem steady_expression : Steady expression :=
  steady_bounded steady_expressionWithin

theorem steady_condition : Steady condition := by
  refine steady_bind steady_expression fun e => ?_
  cases e <;> exact steady_pure _

/-! ## Expressions grow -/

theorem continuation_grows {nested : Parser Expr} {n : Nat} {e e' : Expr} {s s' : Stream}
    (h : continuation nested n e s = .ok e' s') : Grows e e' := by
  induction n generalizing e s with
  | zero => cases h
  | succ n ih =>
      simp only [continuation] at h
      split at h
      · split at h
        · cases h
          exact .refl _
        · split at h
          · next es _ _ => exact (Grows.call e es s.position).trans (ih h)
          · cases h
      · split at h
        · next name _ _ => exact (Grows.member e name s.position).trans (ih h)
        · cases h
      · split at h
        · cases h
          exact .refl _
        · split at h
          · next key _ _ =>
            split at h
            · exact (Grows.index e key s.position).trans (ih h)
            · cases h
          · cases h
      · cases h
        exact .refl _

/-- A bracket on the same line makes the expression deeper. -/
theorem continuation_deepens {nested : Parser Expr} {n : Nat} {e e' : Expr} {s s' : Stream}
    (hkind : s.kind = .sign .leftParen ∨ s.kind = .sign .leftBracket) (hline : s.atLineBreak = false)
    (h : continuation nested (n + 1) e s = .ok e' s') : e.depth < e'.depth := by
  have hline' : ¬s.atLineBreak = true := by
    rw [hline]
    exact Bool.false_ne_true
  -- one round takes the bracket, and later rounds only add to the tree
  rcases hkind with hkind | hkind
  · simp only [continuation, hkind] at h
    rw [if_neg hline'] at h
    split at h
    · next es _ _ =>
      have hgrows := (continuation_grows h).depth
      rw [Expr.depth] at hgrows
      omega
    · cases h
  · simp only [continuation, hkind] at h
    rw [if_neg hline'] at h
    split at h
    · split at h
      · have hgrows := (continuation_grows h).depth
        rw [Expr.depth] at hgrows
        omega
      · cases h
    · cases h

theorem operations_grows {operand : Parser Expr} {tier n : Nat} {e e' : Expr} {s s' : Stream}
    (h : operations tier operand n e s = .ok e' s') : Grows e e' := by
  induction n generalizing e s with
  | zero => cases h
  | succ n ih =>
      simp only [operations] at h
      split at h
      · next op _ =>
        split at h
        · split at h
          · next right _ _ => exact (Grows.binary op e right s.position).trans (ih h)
          · cases h
        · cases h
          exact .refl _
      · cases h
        exact .refl _

/-- What the reader of a tier gives has grown from what the reader of unary operators gives. -/
theorem tiered_grows {nested : Parser Expr} {tier : Nat} {e : Expr} {s s' : Stream}
    (h : tiered nested tier s = .ok e s') :
    ∃ e₀ s₀, unary nested s.bound s = .ok e₀ s₀ ∧ Grows e₀ e := by
  induction tier generalizing e s' with
  | zero => exact ⟨e, s', h, .refl e⟩
  | succ tier ih =>
      simp only [tiered] at h
      split at h
      · next left s₁ heq =>
        obtain ⟨e₀, s₀, hrun, hgrows⟩ := ih heq
        exact ⟨e₀, s₀, hrun, hgrows.trans (operations_grows h)⟩
      · cases h

theorem assignments_grows {nested : Parser Expr} {n : Nat} {e : Expr} {s s' : Stream}
    (h : assignments nested n s = .ok e s') :
    ∃ e₀ s₀, unary nested s.bound s = .ok e₀ s₀ ∧ Grows e₀ e := by
  cases n with
  | zero => cases h
  | succ n =>
      simp only [assignments] at h
      split at h
      · next target s₁ heq =>
        obtain ⟨e₀, s₀, hrun, hgrows⟩ := tiered_grows heq
        split at h
        · split at h
          · next value _ _ =>
            cases h
            exact ⟨e₀, s₀, hrun, hgrows.trans (.assign target value _)⟩
          · cases h
        · cases h
          exact ⟨e₀, s₀, hrun, hgrows⟩
      · cases h

/-! ## Expressions are well-formed -/

/-- What is known of an expression that has been read from `s` up to `s'`: it binds as tightly as
the level says, and no operator of a tighter one follows. -/
structure Read (loosest : Nat) (s : Stream) (e : Expr) (s' : Stream) : Prop where
  well : e.WellFormed
  level : e.level ≤ loosest
  minus : e.opening = some .minus → s.kind = .sign .minus
  stops : ∀ op, BinaryOp.ofToken? s'.kind = some op → loosest ≤ op.tier

section Well

variable {nested : Parser Expr} (hsteady : Steady nested)
  (hnested : ∀ {s e s'}, s.Lexed → nested s = .ok e s' → e.WellFormed)

include hsteady hnested

theorem arguments_well {closing : Sign} {context : String} {s s' : Stream} {es : List Expr}
    (hs : s.Lexed) (h : commaSeparated nested closing context s = .ok es s') : AllWellFormed es := by
  rw [Expr.allWellFormed_iff]
  refine forall_of_commaSeparated hsteady ?_ rfl h
  intro s₁ e s₂ htokens hrun
  exact hnested (hs.of_tokens htokens) hrun

omit hsteady hnested in
theorem literal_well {s : Stream} (hs : s.Lexed) {value : Literal} (h : literal? s.kind = some value) :
    value.WellFormed := by
  unfold literal? at h
  split at h
  · next x hkind =>
    cases h
    exact hs.number hkind
  · cases h
    trivial
  · cases h
    trivial
  · cases h
    trivial
  · cases h
    trivial
  · cases h

/-- A primary expression binds most tightly and starts with no minus sign. -/
theorem primary_well {s s' : Stream} {e : Expr} (hs : s.Lexed) (h : primary nested s = .ok e s') :
    e.WellFormed ∧ e.level = 0 ∧ e.opening ≠ some .minus := by
  unfold primary at h
  split at h
  · next value hvalue =>
    cases h
    exact ⟨literal_well hs hvalue, rfl, nofun⟩
  · split at h
    · next name hkind =>
      cases h
      exact ⟨(hs.identifier hkind).1, rfl, nofun⟩
    · cases h
      exact ⟨trivial, rfl, nofun⟩
    · cases h
      exact ⟨trivial, rfl, nofun⟩
    · obtain ⟨start, s₁, hstart, h⟩ := bind_ok h
      have hs₁ := hs.keeps (steady_advance.ok hstart)
      obtain ⟨name, s₂, hname, h⟩ := bind_ok h
      have hs₂ := hs₁.keeps ((steady_identifier _).ok hname)
      obtain ⟨more, s₃, haccept, h⟩ := bind_ok h
      have hs₃ := hs₂.keeps ((steady_accept _).ok haccept)
      have hclass := isName_of_identifier hs₁ hname
      cases more with
      | true =>
          obtain ⟨es, s₄, hes, h⟩ := bind_ok h
          obtain ⟨rfl, _⟩ := pure_ok h
          exact ⟨⟨hclass, arguments_well hsteady hnested hs₃ hes⟩, rfl, nofun⟩
      | false =>
          obtain ⟨rfl, _⟩ := pure_ok h
          exact ⟨⟨hclass, trivial⟩, rfl, nofun⟩
    · obtain ⟨start, s₁, hstart, h⟩ := bind_ok h
      have hs₁ := hs.keeps (steady_advance.ok hstart)
      obtain ⟨es, s₂, hes, h⟩ := bind_ok h
      obtain ⟨rfl, _⟩ := pure_ok h
      exact ⟨arguments_well hsteady hnested hs₁ hes, rfl, nofun⟩
    · obtain ⟨start, s₁, hstart, h⟩ := bind_ok h
      have hs₁ := hs.keeps (steady_advance.ok hstart)
      obtain ⟨inner, s₂, hinner, h⟩ := bind_ok h
      obtain ⟨_, s₃, _, h⟩ := bind_ok h
      have hwell := hnested hs₁ hinner
      obtain ⟨rfl, _⟩ := pure_ok h
      exact ⟨hwell, rfl, nofun⟩
    · cases h

theorem continuation_well {n : Nat} {e e' : Expr} {s s' : Stream} (hs : s.Lexed)
    (he : e.WellFormed) (hlevel : e.level = 0) (h : continuation nested n e s = .ok e' s') :
    e'.WellFormed ∧ e'.level = 0 := by
  induction n generalizing e s with
  | zero => cases h
  | succ n ih =>
      -- the invariant of the loop: what it holds is well-formed and binds most tightly
      have hs₁ := hs.keeps (.advance s)
      simp only [continuation] at h
      split at h
      · split at h
        · cases h
          exact ⟨he, hlevel⟩
        · split at h
          · next es s₂ heq =>
            have hs₂ := hs₁.keeps ((steady_commaSeparated hsteady _ _).ok heq)
            have hcall : (Expr.call e es s.position).WellFormed :=
              ⟨⟨hlevel, he⟩, arguments_well hsteady hnested hs₁ heq⟩
            exact ih hs₂ hcall rfl h
          · cases h
      · split at h
        · next name s₂ heq =>
          have hs₂ := hs₁.keeps ((steady_memberName _).ok heq)
          have hmember : (Expr.member e name s.position).WellFormed :=
            ⟨⟨hlevel, he⟩, (isWord_of_memberName hs₁ heq).1⟩
          exact ih hs₂ hmember rfl h
        · cases h
      · split at h
        · cases h
          exact ⟨he, hlevel⟩
        · split at h
          · next key s₂ heq =>
            have hs₂ := hs₁.keeps (hsteady.ok heq)
            split at h
            · next s₃ heq' =>
              have hs₃ := hs₂.keeps ((steady_consume _ _).ok heq')
              have hindex : (Expr.index e key s.position).WellFormed :=
                ⟨⟨hlevel, he⟩, hnested hs₁ heq⟩
              exact ih hs₃ hindex rfl h
            · cases h
          · cases h
      · cases h
        exact ⟨he, hlevel⟩

theorem unary_read {n : Nat} {s s' : Stream} {e : Expr} (hs : s.Lexed)
    (h : unary nested n s = .ok e s') : Read 1 s e s' := by
  have hstops : ∀ op, BinaryOp.ofToken? s'.kind = some op → 1 ≤ op.tier :=
    fun op _ => (Expr.tier_pos op).1
  induction n generalizing s e with
  | zero => cases h
  | succ n ih =>
      simp only [unary] at h
      split at h
      · next op hop =>
        split at h
        · next operand s₁ heq =>
          cases h
          have hoperand := ih (hs.keeps (.advance s)) heq
          refine ⟨⟨hoperand.level, hoperand.well⟩, Nat.le_refl 1, ?_, hstops⟩
          -- of the prefix operators, only the minus sign starts with a minus
          intro hminus
          unfold UnaryOp.ofToken? at hop
          split at hop
          · next hkind => exact hkind
          · cases hop
            cases hminus
          · cases hop
            cases hminus
          · cases hop
        · cases h
      · split at h
        · next e₀ s₁ heq =>
          obtain ⟨hwell, hlevel, hopening⟩ := primary_well hsteady hnested hs heq
          have hs₁ := hs.keeps ((steady_primary hsteady).ok heq)
          obtain ⟨hwell', hlevel'⟩ := continuation_well hsteady hnested hs₁ hwell hlevel h
          have hgrows := continuation_grows h
          refine ⟨hwell', by omega, ?_, hstops⟩
          -- calls and members leave the start of the expression as it is
          intro hminus
          exact absurd (hgrows.opening.symm.trans hminus) hopening
        · cases h

omit hsteady hnested in
/-- The loop of the operators of a tier, where the operands are of the tier below. -/
theorem operations_read {tier n : Nat} {operand : Parser Expr} (hkeeps : Steady operand)
    (hoperand : ∀ {s e s'}, s.Lexed → operand s = .ok e s' → Read (tier + 1) s e s')
    {left e : Expr} {s s' : Stream} (hs : s.Lexed) (hleft : left.WellFormed)
    (hlevel : left.level ≤ tier + 2)
    (hstops : ∀ op, BinaryOp.ofToken? s.kind = some op → tier + 1 ≤ op.tier)
    (h : operations (tier + 1) operand n left s = .ok e s') :
    e.WellFormed ∧ e.level ≤ tier + 2 ∧
      ∀ op, BinaryOp.ofToken? s'.kind = some op → tier + 2 ≤ op.tier := by
  induction n generalizing left s with
  | zero => cases h
  | succ n ih =>
      simp only [operations] at h
      split at h
      · next op hop =>
        split at h
        · next htier =>
          have hs₁ := hs.keeps (.advance s)
          split at h
          · next right s₂ heq =>
            -- the right operand is of the tier below, so the new operator is well-formed, and what
            -- follows is of this tier or looser
            have hright := hoperand hs₁ heq
            have hs₂ := hs₁.keeps (hkeeps.ok heq)
            have hrightLevel := hright.level
            have hbinary : (Expr.binary op left right s.position).WellFormed :=
              ⟨⟨by omega, hleft⟩, by omega, hright.well⟩
            refine ih hs₂ hbinary ?_ hright.stops h
            rw [Expr.level]
            omega
          · cases h
        · next htier =>
          cases h
          refine ⟨hleft, hlevel, ?_⟩
          intro op' hop'
          rw [hop] at hop'
          cases hop'
          have := hstops op hop
          omega
      · next hnone =>
        cases h
        refine ⟨hleft, hlevel, ?_⟩
        intro op hop
        rw [hnone] at hop
        cases hop

theorem tiered_read {tier : Nat} {s s' : Stream} {e : Expr} (hs : s.Lexed)
    (h : tiered nested tier s = .ok e s') : Read (tier + 1) s e s' := by
  induction tier generalizing s e s' with
  | zero => exact unary_read hsteady hnested hs h
  | succ tier ih =>
      have hkeeps := steady_tiered hsteady tier
      simp only [tiered] at h
      split at h
      · next left s₁ heq =>
        have hleft := ih hs heq
        have hs₁ := hs.keeps (hkeeps.ok heq)
        have hlevel : left.level ≤ tier + 2 := Nat.le_succ_of_le hleft.level
        obtain ⟨hwell, hlevel', hstops⟩ :=
          operations_read hkeeps ih hs₁ hleft.well hlevel hleft.stops h
        refine ⟨hwell, hlevel', ?_, hstops⟩
        intro hminus
        exact hleft.minus ((operations_grows h).opening.symm.trans hminus)
      · cases h

theorem assignments_read {n : Nat} {s s' : Stream} {e : Expr} (hs : s.Lexed)
    (h : assignments nested n s = .ok e s') : Read 8 s e s' := by
  induction n generalizing s e with
  | zero => cases h
  | succ n ih =>
      simp only [assignments] at h
      split at h
      · next target s₁ heq =>
        have htarget := tiered_read hsteady hnested hs heq
        have hs₁ := hs.keeps ((steady_tiered hsteady 6).ok heq)
        split at h
        · split at h
          · next value s₂ heq' =>
            cases h
            have hvalue := ih (hs₁.keeps (.advance s₁)) heq'
            exact ⟨⟨⟨htarget.level, htarget.well⟩, hvalue.well⟩, Nat.le_refl 8, htarget.minus,
              hvalue.stops⟩
          · cases h
        · cases h
          -- no operator is looser than tier six, so none follows
          refine ⟨htarget.well, Nat.le_succ_of_le htarget.level, htarget.minus, ?_⟩
          intro op hop
          have hlow := htarget.stops op hop
          have hhigh := (Expr.tier_pos op).2
          omega
      · cases h

end Well

theorem expressionWithin_read (n : Nat) {s s' : Stream} {e : Expr} (hs : s.Lexed)
    (h : expressionWithin n s = .ok e s') : Read 8 s e s' := by
  induction n generalizing s e s' with
  | zero => cases h
  | succ n ih =>
      exact assignments_read (steady_expressionWithin n) (fun hs h => (ih hs h).well) hs h

/-- **Every expression that is read is well-formed**, starts with a minus sign only if the text
does, and is followed by no minus sign. -/
theorem expression_read {s s' : Stream} {e : Expr} (hs : s.Lexed) (h : expression s = .ok e s') :
    e.WellFormed ∧ (e.opening = some .minus → s.kind = .sign .minus) ∧
      s'.kind ≠ .sign .minus := by
  have hread := expressionWithin_read s.bound hs h
  refine ⟨hread.well, hread.minus, ?_⟩
  -- a minus sign would be read as a subtraction, which the loops have not stopped at
  intro hminus
  have htier := hread.stops .sub (by rw [hminus]; rfl)
  have hhigh := (Expr.tier_pos .sub).2
  omega

theorem condition_read {s s' : Stream} {e : Expr} (hs : s.Lexed) (h : condition s = .ok e s') :
    e.WellFormed ∧ s'.kind ≠ .sign .minus := by
  obtain ⟨e₀, s₁, hrun, h⟩ := bind_ok h
  obtain ⟨hwell, _, hnext⟩ := expression_read hs hrun
  cases e₀ <;> (obtain ⟨rfl, rfl⟩ := pure_ok h; exact ⟨hwell, hnext⟩)

end Parser

end Lipi
