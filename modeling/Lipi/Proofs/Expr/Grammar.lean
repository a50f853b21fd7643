import Lipi.Proofs.Expr.Rounds
import Lipi.Proofs.Expr.WellFormed
import Lipi.Proofs.Token.Shows

set_option autoImplicit false

/-! # The grammar of expressions

Which tokens spell which expression, said without a reader. `Expr.Spells tokens e i j` says that
**the tokens from the `i`-th up to the `j`-th, in order and each of them once, are a spelling of
`e`**; an expression in `Expr.Normal` form has no operand that binds more loosely than its place
allows, and at a token that `Expr.CannotExtend` an expression ends. Spelling alone does not fix the
tree, since it puts no parentheses; together the three do.

A call or an index goes on with the line in front of it, so its bracket does not stand at a line
break. An instance that is made without an argument list has no parenthesis behind it, which would
open one.
-/

namespace Lipi

/-! ## Tokens by their number -/

namespace Token

/-- The `i`-th token, or the end of the text behind the last one. -/
def nth (tokens : Array Token) (i : Nat) : Token :=
  tokens[i]?.getD Token.eof

/-- Whether the `i`-th token starts on a later line than the one on which the token in front of it
ends. -/
def breaksLine (tokens : Array Token) : Nat → Bool
  | 0 => false
  | i + 1 => decide ((nth tokens i).endLine < (nth tokens (i + 1)).position.line)

/-- The `i`-th token is an opening bracket that goes on with the line in front of it. -/
def Opens (tokens : Array Token) (bracket : Sign) (i : Nat) : Prop :=
  (nth tokens i).kind = .sign bracket ∧ breaksLine tokens i = false

end Token

open Token (nth Opens breaksLine)

namespace Expr

/-! ## Spelling -/

mutual

/-- The tokens from the `i`-th up to the `j`-th spell the expression. -/
def Spells (tokens : Array Token) : Expr → Nat → Nat → Prop
  | literal value _, i, j => Parser.literal? (nth tokens i).kind = some value ∧ j = i + 1
  | identifier name _, i, j => (nth tokens i).kind = .identifier name ∧ j = i + 1
  | unary op operand _, i, j =>
    UnaryOp.ofToken? (nth tokens i).kind = some op ∧ Spells tokens operand (i + 1) j
  | binary op left right _, i, j =>
    ∃ m, Spells tokens left i m ∧ BinaryOp.ofToken? (nth tokens m).kind = some op ∧
      Spells tokens right (m + 1) j
  | assign target value _, i, j =>
    ∃ m, Spells tokens target i m ∧ (nth tokens m).kind = .sign .equal ∧
      Spells tokens value (m + 1) j
  | call callee arguments _, i, j =>
    ∃ m, Spells tokens callee i m ∧ Opens tokens .leftParen m ∧
      SpellsList tokens .rightParen arguments (m + 1) j
  | member object name _, i, j =>
    ∃ m, Spells tokens object i m ∧ (nth tokens m).kind = .sign .dot ∧
      (nth tokens (m + 1)).isWord = true ∧ (nth tokens (m + 1)).lexeme = name ∧ j = m + 2
  | index object key _, i, j =>
    ∃ m m', Spells tokens object i m ∧ Opens tokens .leftBracket m ∧
      Spells tokens key (m + 1) m' ∧ (nth tokens m').kind = .sign .rightBracket ∧ j = m' + 1
  | array elements _, i, j =>
    (nth tokens i).kind = .sign .leftBracket ∧
      SpellsList tokens .rightBracket elements (i + 1) j
  | receiver _, i, j => (nth tokens i).kind = .keyword .yeh ∧ j = i + 1
  | super _, i, j => (nth tokens i).kind = .keyword .upar ∧ j = i + 1
  | new className arguments _, i, j =>
    (nth tokens i).kind = .keyword .naya ∧ (nth tokens (i + 1)).kind = .identifier className ∧
      (((nth tokens (i + 2)).kind = .sign .leftParen ∧
          SpellsList tokens .rightParen arguments (i + 3) j) ∨
        ((nth tokens (i + 2)).kind ≠ .sign .leftParen ∧ arguments = [] ∧ j = i + 2))
  | grouping inner _, i, j =>
    (nth tokens i).kind = .sign .leftParen ∧ ∃ m, Spells tokens inner (i + 1) m ∧
      (nth tokens m).kind = .sign .rightParen ∧ j = m + 1

/-- The tokens spell expressions with commas between them, and the closing sign behind them. -/
def SpellsList (tokens : Array Token) (closing : Sign) : List Expr → Nat → Nat → Prop
  | [], i, j => (nth tokens i).kind = .sign closing ∧ j = i + 1
  | e :: es, i, j => ∃ m, Spells tokens e i m ∧ SpellsMore tokens closing es m j

/-- The tokens spell the rest of such a list, behind one of its elements. -/
def SpellsMore (tokens : Array Token) (closing : Sign) : List Expr → Nat → Nat → Prop
  | [], i, j => (nth tokens i).kind = .sign closing ∧ j = i + 1
  | e :: es, i, j =>
    (nth tokens i).kind = .sign .comma ∧ ∃ m, Spells tokens e (i + 1) m ∧
      SpellsMore tokens closing es m j

end

/-! ## Normal form -/

mutual

/-- Every operand binds as tightly as its place asks for: the left operand of a binary operator at
least as tightly as the operator and the right one more tightly, the target of an assignment at least
as tightly as a disjunction, the operand of a unary operator as a unary operator, and what is called
or has a member taken as a call or a primary expression. -/
def Normal : Expr → Prop
  | literal _ _ | identifier _ _ | receiver _ | super _ => True
  | unary _ operand _ => operand.level ≤ 1 ∧ operand.Normal
  | binary op left right _ =>
    (left.level ≤ op.tier + 1 ∧ left.Normal) ∧ right.level ≤ op.tier ∧ right.Normal
  | assign target value _ => (target.level ≤ 7 ∧ target.Normal) ∧ value.Normal
  | call callee arguments _ => (callee.level = 0 ∧ callee.Normal) ∧ AllNormal arguments
  | member object _ _ => object.level = 0 ∧ object.Normal
  | index object key _ => (object.level = 0 ∧ object.Normal) ∧ key.Normal
  | array elements _ => AllNormal elements
  | new _ arguments _ => AllNormal arguments
  | grouping inner _ => inner.Normal

def AllNormal : List Expr → Prop
  | [] => True
  | e :: es => e.Normal ∧ AllNormal es

end

/-! ## Where an expression ends -/

/-- The `i`-th token does not go on with an expression whose binary operators are of the given tier
or tighter. -/
structure StopsAt (tokens : Array Token) (tier i : Nat) : Prop where
  operator : ∀ op, BinaryOp.ofToken? (nth tokens i).kind = some op → tier < op.tier
  call : ¬Opens tokens .leftParen i
  member : (nth tokens i).kind ≠ .sign .dot
  index : ¬Opens tokens .leftBracket i

theorem StopsAt.mono {tokens : Array Token} {tier tier' i : Nat} (h : StopsAt tokens tier i)
    (hle : tier' ≤ tier) : StopsAt tokens tier' i :=
  ⟨fun op hop => Nat.lt_of_le_of_lt hle (h.operator op hop), h.call, h.member, h.index⟩

/-- The `i`-th token does not go on with any expression: it is no binary operator, no equals sign and
no point, and a bracket only at a line break. -/
structure CannotExtend (tokens : Array Token) (i : Nat) : Prop where
  operator : BinaryOp.ofToken? (nth tokens i).kind = none
  assignment : (nth tokens i).kind ≠ .sign .equal
  member : (nth tokens i).kind ≠ .sign .dot
  bracket : (nth tokens i).kind = .sign .leftParen ∨ (nth tokens i).kind = .sign .leftBracket →
    breaksLine tokens i = true

theorem cannotExtend_iff {tokens : Array Token} {i : Nat} :
    CannotExtend tokens i ↔ StopsAt tokens 6 i ∧ (nth tokens i).kind ≠ .sign .equal := by
  constructor
  · intro h
    have hbracket : ∀ bracket, bracket = .leftParen ∨ bracket = .leftBracket →
        ¬Opens tokens bracket i := by
      rintro bracket hbracket ⟨hkind, hline⟩
      have hbreak : breaksLine tokens i = true := by
        apply h.bracket
        rcases hbracket with rfl | rfl
        · exact Or.inl hkind
        · exact Or.inr hkind
      rw [hline] at hbreak
      cases hbreak
    refine ⟨⟨fun op hop => ?_, hbracket _ (.inl rfl), h.member, hbracket _ (.inr rfl)⟩,
      h.assignment⟩
    rw [h.operator] at hop
    cases hop
  · rintro ⟨hstops, hassign⟩
    refine ⟨?_, hassign, hstops.member, fun hkind => ?_⟩
    · cases hop : BinaryOp.ofToken? (nth tokens i).kind with
      | none => rfl
      | some op =>
          have htier := hstops.operator op hop
          have hmax := (tier_pos op).2
          omega
    · by_contra hline
      rw [Bool.not_eq_true] at hline
      rcases hkind with hkind | hkind
      · exact hstops.call ⟨hkind, hline⟩
      · exact hstops.index ⟨hkind, hline⟩

end Expr

/-! ## Tokens of a stream -/

namespace Stream

/-- The stream with its cursor on the `i`-th token. -/
def goto (s : Stream) (i : Nat) : Stream :=
  { s with cursor := i }

/-- The last token of the stream is an end token. -/
def Ended (s : Stream) : Prop :=
  ∃ last, s.tokens.back? = some last ∧ last.kind = .eof

variable {s : Stream}

theorem goto_cursor (s : Stream) : s.goto s.cursor = s := rfl

theorem Ended.peek (hs : s.Ended) (i : Nat) :
    (s.goto i).peek = nth s.tokens i ∨ ((s.goto i).kind = .eof ∧ (nth s.tokens i).kind = .eof) := by
  obtain ⟨last, hback, hlast⟩ := hs
  unfold Stream.kind Stream.peek nth
  show s.tokens[i]?.getD (s.tokens.back?.getD Token.eof) = s.tokens[i]?.getD Token.eof ∨
    ((s.tokens[i]?.getD (s.tokens.back?.getD Token.eof)).kind = .eof ∧ _)
  cases htoken : s.tokens[i]? with
  | some t => exact .inl rfl
  | none =>
      refine .inr ⟨?_, rfl⟩
      rw [hback]
      exact hlast

theorem Ended.kind (hs : s.Ended) (i : Nat) : (s.goto i).kind = (nth s.tokens i).kind := by
  rcases hs.peek i with hpeek | ⟨hkind, hnth⟩
  · exact congrArg Token.kind hpeek
  · rw [hkind, hnth]

/-- At a token that is not the end, the cursor is inside the list and moves on by one. -/
theorem Ended.advance (hs : s.Ended) {i : Nat} (hkind : (nth s.tokens i).kind ≠ .eof) :
    (s.goto i).peek = nth s.tokens i ∧ (s.goto i).advance = s.goto (i + 1) := by
  have hend : (s.goto i).isAtEnd = false := by
    rw [← Bool.not_eq_true, isAtEnd_iff, hs.kind]
    exact hkind
  refine ⟨?_, by rw [Stream.advance, hend]; rfl⟩
  rcases hs.peek i with hpeek | ⟨-, hnth⟩
  · exact hpeek
  · exact absurd hnth hkind

theorem lt_of_kind {tokens : Array Token} {i : Nat} (h : (nth tokens i).kind ≠ .eof) :
    i < tokens.size := by
  by_contra hge
  apply h
  rw [nth, Array.getElem?_eq_none (by omega)]
  rfl

/-- At a token that is not the end, a line break is seen where the tokens have one. -/
theorem Ended.atLineBreak (hs : s.Ended) {i : Nat} (hkind : (nth s.tokens i).kind ≠ .eof) :
    (s.goto i).atLineBreak = breaksLine s.tokens i := by
  have hposition : (s.goto i).position = (nth s.tokens i).position :=
    congrArg Token.position (hs.advance hkind).1
  -- the token in front of one that is there is there, too
  cases i with
  | zero => rfl
  | succ i =>
      have hlt := lt_of_kind hkind
      have hprevious : s.tokens[i]? = some (nth s.tokens i) := by
        rw [nth, Array.getElem?_eq_getElem (by omega)]
        rfl
      have hbefore : (s.goto (i + 1)).previous? = some (nth s.tokens i) := hprevious
      unfold Stream.atLineBreak
      rw [hposition, hbefore]
      rfl

theorem Ended.atBracket (hs : s.Ended) (bracket : Sign) (i : Nat) :
    (s.goto i).atBracket bracket ↔ Opens s.tokens bracket i := by
  unfold Stream.atBracket Opens
  rw [hs.kind]
  apply and_congr_right
  intro hkind
  rw [hs.atLineBreak (by simp [hkind])]

end Stream

end Lipi
