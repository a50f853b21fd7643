import Lipi.Proofs.Expr.Reading
import Lipi.Proofs.Expr.Rounds
import Lipi.Proofs.Parser.Tandem

set_option autoImplicit false

/-! # Expressions read in step

**The readers of expressions give expressions that are the same up to positions and the names of
members** wherever two streams are read in step. Each reader looks at the kind of the current token,
and at whether it stands on a new line only behind an expression; so it goes the same way in both
streams.
-/

namespace Lipi

namespace Parser

/-! ## Rounds as sequences

The rounds of the loops, with their branches where the definitions have them and each branch as a
sequence of readers. -/

section Rounds

variable (nested : Parser Expr)

theorem continuation_succ (n : Nat) (e : Expr) (s : Stream) :
    continuation nested (n + 1) e s =
      match s.kind with
      | .sign .leftParen =>
        if s.atLineBreak then .ok e s
        else (advance >>= fun start => commaSeparated nested .rightParen "arguments" >>=
          fun arguments => continuation nested n (.call e arguments start.position)) s
      | .sign .dot =>
        (advance >>= fun start => memberName "Expected property name after '.'" >>= fun name =>
          continuation nested n (.member e name start.position)) s
      | .sign .leftBracket =>
        if s.atLineBreak then .ok e s
        else (advance >>= fun start => nested >>= fun key =>
          consume (.sign .rightBracket) "Expected ']' after index" >>= fun _ =>
            continuation nested n (.index e key start.position)) s
      | _ => .ok e s := by
  rcases continuation_round n e s with
    ⟨⟨hkind, hline⟩, hrun⟩ | ⟨hkind, hrun⟩ | ⟨⟨hkind, hline⟩, hrun⟩ | ⟨⟨hparen, hdot, hbracket⟩, hrun⟩
  · rw [hrun, hkind]
    simp only [hline, Bool.false_eq_true, if_false]
  · rw [hrun, hkind]
  · rw [hrun, hkind]
    simp only [hline, Bool.false_eq_true, if_false]
  · rw [hrun]
    split
    · next hkind =>
      split
      · rfl
      · next hline => exact absurd ⟨hkind, Bool.eq_false_iff.mpr hline⟩ hparen
    · next hkind => exact absurd hkind hdot
    · next hkind =>
      split
      · rfl
      · next hline => exact absurd ⟨hkind, Bool.eq_false_iff.mpr hline⟩ hbracket
    · rfl

theorem unary_succ (n : Nat) (s : Stream) :
    unary nested (n + 1) s =
      match UnaryOp.ofToken? s.kind with
      | some op =>
        (advance >>= fun start => unary nested n >>= fun operand =>
          pure (.unary op operand start.position)) s
      | none => (primary nested >>= fun e => bounded fun n => continuation nested n e) s := by
  rcases unary_round n s with ⟨op, hop, hrun⟩ | ⟨hop, hrun⟩
  · rw [hrun, hop]
  · rw [hrun, hop]

theorem operations_succ (tier n : Nat) (operand : Parser Expr) (left : Expr) (s : Stream) :
    operations tier operand (n + 1) left s =
      match BinaryOp.ofToken? s.kind with
      | some op =>
        if op.tier = tier then
          (advance >>= fun start => operand >>= fun right =>
            operations tier operand n (.binary op left right start.position)) s
        else .ok left s
      | none => .ok left s := by
  rcases operations_round tier n left s with ⟨op, hop, htier, hrun⟩ | ⟨hnone, hrun⟩
  · rw [hrun, hop]
    simp only [htier, if_true]
  · rw [hrun]
    split
    · next op hop => rw [if_neg (hnone op hop)]
    · rfl

end Rounds

end Parser

namespace Tandem

open Lipi.Parser

variable {T : Tandem}

/-! ## The readers -/

section Nested

variable {nested nested' : Parser Expr}
  (hnested : T.Runs T.entry T.midway (Expr.Renamed T.name) nested nested')

include hnested

theorem runs_primary :
    T.Runs T.entry T.midway (Expr.Renamed T.name) (primary nested) (primary nested') := by
  have hlist := fun {closing : Sign} (hclosing : closing ≠ .semicolon) context =>
    runs_commaSeparated hnested.midway hclosing context
  refine ⟨fun h => steady_primary (hnested.steady h), fun s s' hs => ?_⟩
  unfold primary
  rw [T.kind hs]
  split
  · next value hvalue =>
    -- a literal is neither the end nor a semicolon, and both streams pass over it
    refine .ok .literal (midway_advance hs rfl (fun heof => ?_) fun hsemicolon => ?_)
    · rw [heof] at hvalue
      cases hvalue
    · rw [hsemicolon] at hvalue
      cases hvalue
  · split
    · next hkind => exact .ok .identifier (midway_advance hs hkind (by simp) (by simp))
    · next hkind => exact .ok .receiver (midway_advance hs hkind (by simp) (by simp))
    · next hkind => exact .ok .super (midway_advance hs hkind (by simp) (by simp))
    · next hkind =>
      refine meets_advance_bind hs hkind (by simp) (by simp) fun t t' s s' hs => ?_
      refine Meets.bind ((runs_identifier _).midway.meets s s' hs) ?_
      rintro className _ rfl
      refine (runs_accept (plain_sign (by decide))).bind ?_
      rintro more _ rfl
      cases more with
      | true => exact (hlist (by decide) _).bind fun _ _ h => runs_pure (.new h)
      | false => exact runs_pure (.new .nil)
    · next hkind =>
      refine meets_advance_bind hs hkind (by simp) (by simp) fun t t' s s' hs => ?_
      exact ((hlist (by decide) _).meets s s' hs).bind fun _ _ h => runs_pure (.array h)
    · next hkind =>
      refine meets_advance_bind hs hkind (by simp) (by simp) fun t t' s s' hs => ?_
      refine (hnested.midway.meets s s' hs).bind fun _ _ h => ?_
      exact (runs_consume (plain_sign (by decide)) _).midway.bind fun _ _ _ =>
        runs_pure (.grouping h)
    · exact .error ⟨hs, rfl, rfl, rfl⟩

theorem runs_continuation {n m : Nat} (hfuel : T.Fuel n m) {e e' : Expr}
    (he : e.Renamed T.name e') :
    T.Runs T.midway T.midway (Expr.Renamed T.name) (continuation nested n e)
      (continuation nested' m e') := by
  induction n generalizing m e e' with
  | zero =>
      exact runs_exhausted (fun m => continuation nested' m e') hfuel rfl enters_midway
  | succ n ih =>
      obtain ⟨m, rfl, hrest⟩ := hfuel.succ
      refine ⟨fun h => steady_continuation (hnested.steady h) _ e, fun s s' hs => ?_⟩
      have hentry := T.entry_of_midway hs
      rw [continuation_succ, continuation_succ, T.kind hentry]
      split
      · next hkind =>
        rw [T.lineBreak hs (isAtEnd_of_kind hkind (by simp))]
        split
        · exact .ok he hs
        · refine meets_advance_bind hentry hkind (by simp) (by simp) fun t t' s s' hs => ?_
          have hclosing : Sign.rightParen ≠ .semicolon := by decide
          have hlist := runs_commaSeparated hnested.midway hclosing "arguments"
          exact (hlist.meets s s' hs).bind fun _ _ h => ih hrest (.call he h)
      · next hkind =>
        refine meets_advance_bind hentry hkind (by simp) (by simp) fun t t' s s' hs => ?_
        exact ((runs_memberName _).midway.meets s s' hs).bind fun _ _ h => ih hrest (.member he h)
      · next hkind =>
        rw [T.lineBreak hs (isAtEnd_of_kind hkind (by simp))]
        split
        · exact .ok he hs
        · refine meets_advance_bind hentry hkind (by simp) (by simp) fun t t' s s' hs => ?_
          refine (hnested.midway.meets s s' hs).bind fun _ _ h => ?_
          exact (runs_consume (plain_sign (by decide)) _).midway.bind fun _ _ _ =>
            ih hrest (.index he h)
      · exact .ok he hs

theorem runs_unary {n m : Nat} (hfuel : T.Fuel n m) :
    T.Runs T.entry T.midway (Expr.Renamed T.name) (unary nested n) (unary nested' m) := by
  induction n generalizing m with
  | zero => exact runs_exhausted (unary nested') hfuel rfl enters_entry
  | succ n ih =>
      obtain ⟨m, rfl, hrest⟩ := hfuel.succ
      refine ⟨fun h => steady_unary (hnested.steady h) _, fun s s' hs => ?_⟩
      rw [unary_succ, unary_succ, T.kind hs]
      split
      · next op hop =>
        refine meets_advance_bind hs rfl (fun heof => ?_) (fun hsemicolon => ?_)
          fun t t' s s' hs => ?_
        · rw [heof] at hop
          cases hop
        · rw [hsemicolon] at hop
          cases hop
        · exact ((ih hrest).midway.meets s s' hs).bind fun _ _ h => runs_pure (.unary h)
      · refine ((runs_primary hnested).meets s s' hs).bind fun _ _ h => ?_
        exact runs_bounded enters_midway fun n m hfuel => runs_continuation hnested hfuel h

omit hnested in
theorem runs_operations {operand operand' : Parser Expr}
    (hoperand : T.Runs T.entry T.midway (Expr.Renamed T.name) operand operand') (tier : Nat)
    {n m : Nat} (hfuel : T.Fuel n m) {left left' : Expr} (hleft : left.Renamed T.name left') :
    T.Runs T.midway T.midway (Expr.Renamed T.name) (operations tier operand n left)
      (operations tier operand' m left') := by
  induction n generalizing m left left' with
  | zero =>
      exact runs_exhausted (fun m => operations tier operand' m left') hfuel rfl
        enters_midway
  | succ n ih =>
      obtain ⟨m, rfl, hrest⟩ := hfuel.succ
      refine ⟨fun h => steady_operations (hoperand.steady h) tier _ left, fun s s' hs => ?_⟩
      have hentry := T.entry_of_midway hs
      rw [operations_succ, operations_succ, T.kind hentry]
      split
      · next op hop =>
        split
        · refine meets_advance_bind hentry rfl (fun heof => ?_) (fun hsemicolon => ?_)
            fun t t' s s' hs => ?_
          · rw [heof] at hop
            cases hop
          · rw [hsemicolon] at hop
            cases hop
          · exact (hoperand.midway.meets s s' hs).bind fun _ _ h => ih hrest (.binary hleft h)
        · exact .ok hleft hs
      · exact .ok hleft hs

theorem runs_tiered (tier : Nat) :
    T.Runs T.entry T.midway (Expr.Renamed T.name) (tiered nested tier) (tiered nested' tier) := by
  induction tier with
  | zero => exact runs_bounded enters_entry fun n m hfuel => runs_unary hnested hfuel
  | succ tier ih =>
      rw [tiered_succ, tiered_succ]
      refine ih.bind fun _ _ h => runs_bounded enters_midway fun n m hfuel => ?_
      exact runs_operations ih _ hfuel h

theorem runs_assignments {n m : Nat} (hfuel : T.Fuel n m) :
    T.Runs T.entry T.midway (Expr.Renamed T.name) (assignments nested n)
      (assignments nested' m) := by
  induction n generalizing m with
  | zero => exact runs_exhausted (assignments nested') hfuel rfl enters_entry
  | succ n ih =>
      obtain ⟨m, rfl, hrest⟩ := hfuel.succ
      rw [assignments_succ, assignments_succ]
      refine (runs_tiered hnested 6).bind fun target target' htarget =>
        ⟨fun h s => ?_, fun s s' hs => ?_⟩
      · unfold assignedTo
        split
        · exact steady_bind steady_advance (fun _ => steady_bind ((ih hrest).steady h) fun _ =>
            steady_pure _) s
        · exact .refl s
      · have hentry := T.entry_of_midway hs
        unfold assignedTo
        rw [T.kind hentry]
        split
        · next hkind =>
          refine meets_advance_bind hentry hkind (by simp) (by simp) fun t t' s s' hs => ?_
          exact ((ih hrest).midway.meets s s' hs).bind fun _ _ h => runs_pure (.assign htarget h)
        · exact .ok htarget hs

end Nested

/-- Whole expressions, whatever bound on the nesting is left. -/
theorem runs_expressionWithin {n m : Nat} (hfuel : T.Fuel n m) :
    T.Runs T.entry T.midway (Expr.Renamed T.name) (expressionWithin n) (expressionWithin m) := by
  induction n generalizing m with
  | zero => exact runs_exhausted (expressionWithin) hfuel rfl enters_entry
  | succ n ih =>
      obtain ⟨m, rfl, hrest⟩ := hfuel.succ
      exact runs_bounded enters_entry fun _ _ hfuel => runs_assignments (ih hrest) hfuel

theorem runs_expression :
    T.Runs T.entry T.midway (Expr.Renamed T.name) expression expression :=
  runs_bounded enters_entry fun _ _ hfuel => runs_expressionWithin hfuel

theorem runs_condition :
    T.Runs T.entry T.midway (Expr.Renamed T.name) condition condition := by
  refine runs_expression.bind fun e e' he => ?_
  cases he with
  | grouping h => exact runs_pure h
  | literal => exact runs_pure .literal
  | identifier => exact runs_pure .identifier
  | unary h => exact runs_pure (.unary h)
  | binary hl hr => exact runs_pure (.binary hl hr)
  | assign ht hv => exact runs_pure (.assign ht hv)
  | call hc hes => exact runs_pure (.call hc hes)
  | member ho hname => exact runs_pure (.member ho hname)
  | index ho hk => exact runs_pure (.index ho hk)
  | array hes => exact runs_pure (.array hes)
  | receiver => exact runs_pure .receiver
  | super => exact runs_pure .super
  | new hes => exact runs_pure (.new hes)

end Tandem

end Lipi
