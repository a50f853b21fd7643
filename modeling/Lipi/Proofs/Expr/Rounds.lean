import Lipi.Expr.Parser
import Lipi.Proofs.Parser.Steady

set_option autoImplicit false

/-! # One round of each reader of expressions

The readers of expressions look at the current token and then go one of a few ways. Each statement
of this module says which ways there are for one reader, **when it goes which, and what is read
after what**, whatever reader is used for nested expressions. What is to be proved about the readers
follows these cases, not the definitions.
-/

namespace Lipi

/-- The expression that a token makes up alone. -/
def Token.expr? (t : Token) : Option Expr :=
  match Parser.literal? t.kind with
  | some value => some (.literal value t.position)
  | none =>
    match t.kind with
    | .identifier name => some (.identifier name t.position)
    | .keyword .yeh => some (.receiver t.position)
    | .keyword .upar => some (.super t.position)
    | _ => none

theorem Token.expr?_some {t : Token} {e : Expr} (h : t.expr? = some e) :
    (∃ value, Parser.literal? t.kind = some value ∧ e = .literal value t.position) ∨
    (∃ name, t.kind = .identifier name ∧ e = .identifier name t.position) ∨
    (t.kind = .keyword .yeh ∧ e = .receiver t.position) ∨
    (t.kind = .keyword .upar ∧ e = .super t.position) := by
  unfold Token.expr? at h
  split at h
  · next value hvalue =>
    cases h
    exact .inl ⟨value, hvalue, rfl⟩
  · split at h
    · next name hkind =>
      cases h
      exact .inr (.inl ⟨name, hkind, rfl⟩)
    · next hkind =>
      cases h
      exact .inr (.inr (.inl ⟨hkind, rfl⟩))
    · next hkind =>
      cases h
      exact .inr (.inr (.inr ⟨hkind, rfl⟩))
    · cases h

theorem Token.expr?_none {t : Token} (h : t.expr? = none) :
    Parser.literal? t.kind = none ∧ (∀ name, t.kind ≠ .identifier name) ∧
      t.kind ≠ .keyword .yeh ∧ t.kind ≠ .keyword .upar := by
  unfold Token.expr? at h
  cases hvalue : Parser.literal? t.kind with
  | some value => simp only [hvalue, reduceCtorEq] at h
  | none =>
      simp only [hvalue] at h
      refine ⟨rfl, fun name hkind => ?_, fun hkind => ?_, fun hkind => ?_⟩
      · simp only [hkind, reduceCtorEq] at h
      · simp only [hkind, reduceCtorEq] at h
      · simp only [hkind, reduceCtorEq] at h

/-- An opening bracket on the line of the token in front of it, with which an expression goes on. -/
def Stream.atBracket (s : Stream) (bracket : Sign) : Prop :=
  s.kind = .sign bracket ∧ s.atLineBreak = false

namespace Parser

/-- What goes on with the result of a reader and hands its errors on is a bind. -/
theorem eq_bind {α β : Type} {x : Parser α} {f : α → Parser β} {s : Stream}
    {r : EStateM.Result CompileError Stream β} (hok : ∀ a s', x s = .ok a s' → r = f a s')
    (herror : ∀ e s', x s = .error e s' → r = .error e s') : r = (x >>= f) s := by
  cases hrun : x s with
  | ok a s' => rw [bind_of_ok hrun, hok a s' hrun]
  | error e s' => rw [bind_of_error hrun, herror e s' hrun]

/-- A token that makes up an expression alone is taken as that expression. -/
theorem primary_of_expr? {s : Stream} {e : Expr} (h : s.peek.expr? = some e)
    (nested : Parser Expr) : primary nested s = .ok e s.advance := by
  rcases Token.expr?_some h with ⟨value, hvalue, rfl⟩ | ⟨name, hkind, rfl⟩ | ⟨hkind, rfl⟩ |
    ⟨hkind, rfl⟩
  · have hvalue' : literal? s.kind = some value := hvalue
    simp only [primary, hvalue']
    rfl
  · have hkind' : s.kind = .identifier name := hkind
    simp only [primary, hkind', literal?]
    rfl
  · have hkind' : s.kind = .keyword .yeh := hkind
    simp only [primary, hkind', literal?]
    rfl
  · have hkind' : s.kind = .keyword .upar := hkind
    simp only [primary, hkind', literal?]
    rfl

/-- A primary expression is a single token, or starts with `naya` or a bracket. -/
theorem primary_round (s : Stream) :
    (∃ e, s.peek.expr? = some e ∧ ∀ nested, primary nested s = .ok e s.advance) ∨
    (s.kind = .keyword .naya ∧ ∀ nested, primary nested s = newInstance nested s) ∨
    (s.kind = .sign .leftBracket ∧ ∀ nested, primary nested s = arrayLiteral nested s) ∨
    (s.kind = .sign .leftParen ∧ ∀ nested, primary nested s = groupedExpr nested s) ∨
    (∀ nested, primary nested s = .error s.unexpected s) := by
  by_cases hnaya : s.kind = .keyword .naya
  · exact .inr (.inl ⟨hnaya, fun nested => by simp only [primary, hnaya, literal?]⟩)
  by_cases hbracket : s.kind = .sign .leftBracket
  · exact .inr (.inr (.inl ⟨hbracket, fun nested => by simp only [primary, hbracket, literal?]⟩))
  by_cases hparen : s.kind = .sign .leftParen
  · exact .inr (.inr (.inr (.inl ⟨hparen, fun nested => by simp only [primary, hparen, literal?]⟩)))
  cases hexpr : s.peek.expr? with
  | some e => exact .inl ⟨e, rfl, primary_of_expr? hexpr⟩
  | none =>
      refine .inr (.inr (.inr (.inr fun nested => ?_)))
      obtain ⟨hvalue, hname, hyeh, hupar⟩ := Token.expr?_none hexpr
      have hvalue' : literal? s.kind = none := hvalue
      simp only [primary, hvalue']
      split
      · next name hkind => exact absurd hkind (hname name)
      · next hkind => exact absurd hkind hyeh
      · next hkind => exact absurd hkind hupar
      · next hkind => exact absurd hkind hnaya
      · next hkind => exact absurd hkind hbracket
      · next hkind => exact absurd hkind hparen
      · rfl

/-- What an expression goes on with: arguments, a member, an index, or nothing more. -/
theorem continuation_round (n : Nat) (e : Expr) (s : Stream) :
    (s.atBracket .leftParen ∧ ∀ nested, continuation nested (n + 1) e s =
      (advance >>= fun start => commaSeparated nested .rightParen "arguments" >>= fun arguments =>
        continuation nested n (.call e arguments start.position)) s) ∨
    (s.kind = .sign .dot ∧ ∀ nested, continuation nested (n + 1) e s =
      (advance >>= fun start => memberName "Expected property name after '.'" >>= fun name =>
        continuation nested n (.member e name start.position)) s) ∨
    (s.atBracket .leftBracket ∧ ∀ nested, continuation nested (n + 1) e s =
      (advance >>= fun start => nested >>= fun key =>
        consume (.sign .rightBracket) "Expected ']' after index" >>= fun _ =>
          continuation nested n (.index e key start.position)) s) ∨
    ((¬s.atBracket .leftParen ∧ s.kind ≠ .sign .dot ∧ ¬s.atBracket .leftBracket) ∧
      ∀ nested, continuation nested (n + 1) e s = .ok e s) := by
  -- the four cases exclude each other by the kind of the token and the line on which it stands
  by_cases hparen : s.atBracket .leftParen
  · refine .inl ⟨hparen, fun nested => ?_⟩
    simp only [continuation, hparen.1, hparen.2, Bool.false_eq_true, if_false]
    exact eq_bind (s := s.advance) (fun _ _ hrun => by rw [hrun]; rfl)
      (fun _ _ hrun => by rw [hrun])
  by_cases hdot : s.kind = .sign .dot
  · refine .inr (.inl ⟨hdot, fun nested => ?_⟩)
    simp only [continuation, hdot]
    exact eq_bind (s := s.advance) (fun _ _ hrun => by rw [hrun]; rfl)
      (fun _ _ hrun => by rw [hrun])
  by_cases hbracket : s.atBracket .leftBracket
  · refine .inr (.inr (.inl ⟨hbracket, fun nested => ?_⟩))
    simp only [continuation, hbracket.1, hbracket.2, Bool.false_eq_true, if_false]
    refine eq_bind (s := s.advance) (fun key s' hrun => ?_) (fun _ _ hrun => by rw [hrun])
    simp only [hrun]
    exact eq_bind (fun _ _ hrun => by rw [hrun]; rfl) (fun _ _ hrun => by rw [hrun])
  refine .inr (.inr (.inr ⟨⟨hparen, hdot, hbracket⟩, fun nested => ?_⟩))
  simp only [continuation]
  split
  · next hkind => simp_all [Stream.atBracket]
  · next hkind => exact absurd hkind hdot
  · next hkind => simp_all [Stream.atBracket]
  · rfl

/-- A unary operator with its operand, or a primary expression and what it goes on with. -/
theorem unary_round (n : Nat) (s : Stream) :
    (∃ op, UnaryOp.ofToken? s.kind = some op ∧ ∀ nested, unary nested (n + 1) s =
      (advance >>= fun start => unary nested n >>= fun operand =>
        pure (.unary op operand start.position)) s) ∨
    (UnaryOp.ofToken? s.kind = none ∧ ∀ nested, unary nested (n + 1) s =
      (primary nested >>= fun e => bounded fun n => continuation nested n e) s) := by
  cases hop : UnaryOp.ofToken? s.kind with
  | some op =>
      refine .inl ⟨op, rfl, fun nested => ?_⟩
      simp only [unary, hop]
      exact eq_bind (s := s.advance) (fun _ _ hrun => by rw [hrun]; rfl)
        (fun _ _ hrun => by rw [hrun])
  | none =>
      refine .inr ⟨rfl, fun nested => ?_⟩
      simp only [unary, hop]
      exact eq_bind (fun _ _ hrun => by rw [hrun]) (fun _ _ hrun => by rw [hrun])

/-- An operator of the tier with its right operand, or nothing more. -/
theorem operations_round (tier n : Nat) (left : Expr) (s : Stream) :
    (∃ op, BinaryOp.ofToken? s.kind = some op ∧ op.tier = tier ∧
      ∀ operand, operations tier operand (n + 1) left s =
        (advance >>= fun start => operand >>= fun right =>
          operations tier operand n (.binary op left right start.position)) s) ∨
    ((∀ op, BinaryOp.ofToken? s.kind = some op → op.tier ≠ tier) ∧
      ∀ operand, operations tier operand (n + 1) left s = .ok left s) := by
  by_cases hop : ∃ op, BinaryOp.ofToken? s.kind = some op ∧ op.tier = tier
  · obtain ⟨op, hop, htier⟩ := hop
    refine .inl ⟨op, hop, htier, fun operand => ?_⟩
    simp only [operations, hop, htier, if_true]
    exact eq_bind (s := s.advance) (fun _ _ hrun => by rw [hrun]; rfl)
      (fun _ _ hrun => by rw [hrun])
  · refine .inr ⟨fun op hkind htier => hop ⟨op, hkind, htier⟩, fun operand => ?_⟩
    simp only [operations]
    split
    · next op hkind => rw [if_neg fun htier => hop ⟨op, hkind, htier⟩]
    · rfl

theorem tiered_succ (nested : Parser Expr) (tier : Nat) :
    tiered nested (tier + 1) = (tiered nested tier >>= fun left =>
      bounded fun n => operations (tier + 1) (tiered nested tier) n left) := by
  funext s
  simp only [tiered]
  exact eq_bind (fun _ _ hrun => by rw [hrun]) (fun _ _ hrun => by rw [hrun])

/-- An equals sign with a value behind it, or nothing more. -/
def assignedTo (nested : Parser Expr) (n : Nat) (target : Expr) : Parser Expr := fun s =>
  match s.kind with
  | .sign .equal =>
    (advance >>= fun start => assignments nested n >>= fun value =>
      pure (.assign target value start.position)) s
  | _ => .ok target s

theorem assignedTo_round (n : Nat) (target : Expr) (s : Stream) :
    (s.kind = .sign .equal ∧ ∀ nested, assignedTo nested n target s =
      (advance >>= fun start => assignments nested n >>= fun value =>
        pure (.assign target value start.position)) s) ∨
    (s.kind ≠ .sign .equal ∧ ∀ nested, assignedTo nested n target s = .ok target s) := by
  by_cases hkind : s.kind = .sign .equal
  · exact .inl ⟨hkind, fun nested => by simp only [assignedTo, hkind]⟩
  · refine .inr ⟨hkind, fun nested => ?_⟩
    unfold assignedTo
    split
    · next hequal => exact absurd hequal hkind
    · rfl

theorem assignments_succ (nested : Parser Expr) (n : Nat) :
    assignments nested (n + 1) = (tiered nested 6 >>= assignedTo nested n) := by
  funext s
  simp only [assignments]
  refine eq_bind (fun target s' hrun => ?_) (fun _ _ hrun => by rw [hrun])
  simp only [hrun]
  split
  · next hkind =>
    simp only [assignedTo, hkind]
    exact eq_bind (s := s'.advance) (fun _ _ hrun => by rw [hrun]; rfl)
      (fun _ _ hrun => by rw [hrun])
  · simp only [assignedTo]

end Parser

end Lipi
