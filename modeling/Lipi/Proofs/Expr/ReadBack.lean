import Lipi.Proofs.Expr.Completeness
import Lipi.Proofs.Expr.Items
import Lipi.Proofs.Parser.Reads

set_option autoImplicit false

/-! # Expressions are read back

**The reader of expressions gives back every well-formed expression from its items**, up to
positions (`reads_expression`): the items of an expression are one of its spellings
(`spells_of_shows`), and the reader knows all of them.
-/

namespace Lipi

open Token (nth Opens breaksLine)

namespace Expr

/-! ## What may follow an expression -/

/-- What stands here does not go on with an expression whose binary operators are of the given tier
or tighter. -/
structure Stops (tier : Nat) (is : List Item) : Prop where
  operator : ∀ op, BinaryOp.ofToken? (Item.kindOf is) = some op → tier < op.tier
  member : Item.kindOf is ≠ .sign .dot
  bracket : ∀ i js, is = i :: js → i.kind = .sign .leftParen ∨ i.kind = .sign .leftBracket →
    i.startsLine = true

/-- What stands here does not go on with any expression. -/
structure Closes (is : List Item) : Prop where
  stops : Stops 6 is
  assignment : Item.kindOf is ≠ .sign .equal

/-- A token stops an expression if it is no operator of these tiers, no point and no bracket. -/
theorem stops_token {tier : Nat} {i : Item} (is : List Item)
    (hoperator : ∀ op, BinaryOp.ofToken? i.kind = some op → tier < op.tier)
    (hsigns : ∀ sign, sign = .dot ∨ sign = .leftParen ∨ sign = .leftBracket →
      i.kind ≠ .sign sign) : Stops tier (i :: is) := by
  refine ⟨hoperator, hsigns .dot (Or.inl rfl), ?_⟩
  intro i' js hcons hkind
  injection hcons with hhead
  subst hhead
  rcases hkind with hkind | hkind
  · exact absurd hkind (hsigns .leftParen (Or.inr (Or.inl rfl)))
  · exact absurd hkind (hsigns .leftBracket (Or.inr (Or.inr rfl)))

/-- The signs behind an expression that are not part of it. -/
theorem closes_sign {sign : Sign}
    (h : sign = .comma ∨ sign = .rightParen ∨ sign = .rightBracket ∨ sign = .semicolon)
    (before : List Char) (is : List Item) : Closes (.sign before sign :: is) := by
  refine ⟨stops_token is ?_ ?_, ?_⟩
  · intro op hop
    rcases h with rfl | rfl | rfl | rfl <;> cases hop
  · rintro sign' hsign hkind
    cases hkind
    rcases h with rfl | rfl | rfl | rfl <;> rcases hsign with h | h | h <;> cases h
  · intro hkind
    cases hkind
    rcases h with h | h | h | h <;> cases h

/-! ## Normal form -/

mutual

/-- A well-formed expression is in normal form. -/
theorem WellFormed.normal : {e : Expr} → e.WellFormed → e.Normal
  | literal _ _, _ | identifier _ _, _ | receiver _, _ | super _, _ => trivial
  | unary _ _ _, h => ⟨h.1, h.2.normal⟩
  | binary _ _ _ _, h => ⟨⟨h.1.1, h.1.2.normal⟩, h.2.1, h.2.2.normal⟩
  | assign _ _ _, h => ⟨⟨h.1.1, h.1.2.normal⟩, h.2.normal⟩
  | call _ _ _, h => ⟨⟨h.1.1, h.1.2.normal⟩, allNormal_of_wellFormed h.2⟩
  | member _ _ _, h => ⟨h.1.1, h.1.2.normal⟩
  | index _ _ _, h => ⟨⟨h.1.1, h.1.2.normal⟩, h.2.normal⟩
  | array _ _, h => allNormal_of_wellFormed h
  | new _ _ _, h => allNormal_of_wellFormed h.2
  | grouping inner _, h => WellFormed.normal (e := inner) h

theorem allNormal_of_wellFormed : {es : List Expr} → AllWellFormed es → AllNormal es
  | [], _ => trivial
  | _ :: _, h => ⟨h.1.normal, allNormal_of_wellFormed h.2⟩

end

end Expr

/-! ## Items of a numbered token -/

namespace Stream

variable {s : Stream} {is : List Item} {i : Nat}

/-- The items that a stream shows end with its end token. -/
theorem Shows.ended (h : Shows is (s.goto i)) : s.Ended := by
  induction is generalizing i with
  | nil =>
      obtain ⟨last, hlast, hkind, hsize⟩ := h
      have hlast' : s.tokens.size - 1 = i := by
        have hsize' : i + 1 = s.tokens.size := hsize
        omega
      refine ⟨last, ?_, hkind⟩
      rw [Array.back?_eq_getElem?, hlast']
      exact hlast
  | cons it is ih => exact ih h.2.2.2

/-- The first item is the current token, and the others are behind it. -/
theorem Shows.token {it : Item} (h : Shows (it :: is) (s.goto i)) :
    ((nth s.tokens i).kind = it.kind ∧ (nth s.tokens i).lexeme = it.lexeme) ∧
      Shows is (s.goto (i + 1)) := by
  obtain ⟨⟨t, ht, hkind, hlexeme⟩, -, -, hrest⟩ := h
  have hnth : nth s.tokens i = t := by
    rw [nth, show s.tokens[i]? = some t from ht]
    rfl
  exact ⟨hnth ▸ ⟨hkind, hlexeme⟩, hrest⟩

theorem Shows.kindAt (h : Shows is (s.goto i)) : (nth s.tokens i).kind = Item.kindOf is := by
  rw [← h.ended.kind]
  exact h.kindOf

/-- A bracket that is not at the start of a line goes on with the line. -/
theorem Shows.opens {it : Item} (h : Shows (it :: is) (s.goto i)) {bracket : Sign}
    (hkind : it.kind = .sign bracket) (hline : it.startsLine = false) :
    Opens s.tokens bracket i :=
  (h.ended.atBracket bracket i).mp ⟨h.kind.trans hkind, h.lineBreak.trans hline⟩

end Stream

namespace Expr

open Lipi.Stream (Shows)

variable {s : Stream}

/-- What closes an expression as an item closes it as a token. -/
theorem Closes.cannotExtend {rest : List Item} (h : Closes rest) {i : Nat}
    (hs : Shows rest (s.goto i)) : CannotExtend s.tokens i := by
  have hkind := hs.kindAt
  have hbracket : ∀ bracket, bracket = .leftParen ∨ bracket = .leftBracket →
      ¬Opens s.tokens bracket i := by
    intro bracket hsign hopens
    have hat := (hs.ended.atBracket bracket i).mpr hopens
    cases rest with
    | nil =>
        have heof := hs.kind_nil.symm.trans hat.1
        cases heof
    | cons it is =>
        have hstarts : it.startsLine = true := by
          refine h.stops.bracket it is rfl ?_
          rw [← hs.kind, hat.1]
          rcases hsign with rfl | rfl
          · exact Or.inl rfl
          · exact Or.inr rfl
        rw [← hs.lineBreak, hat.2] at hstarts
        cases hstarts
  refine cannotExtend_iff.mpr ⟨⟨?_, hbracket _ (.inl rfl), ?_, hbracket _ (.inr rfl)⟩, ?_⟩
  · rw [hkind]
    exact h.stops.operator
  · rw [hkind]
    exact h.stops.member
  · rw [hkind]
    exact h.assignment

/-! ## The items are a spelling -/

theorem literal?_item (before : List Char) (value : Literal) :
    Parser.literal? (value.item before).kind = some value := by
  cases value with
  | bool b => cases b <;> rfl
  | _ => rfl

mutual

/-- **The items of a well-formed expression spell it.** -/
theorem spells_of_shows (before : List Char) : (e : Expr) → e.WellFormed → (i : Nat) →
    (rest : List Item) → Shows (e.items before ++ rest) (s.goto i) →
      ∃ j, Spells s.tokens e i j ∧ Shows rest (s.goto j)
  | literal value _, _, i, rest, hs => by
      obtain ⟨⟨hkind, -⟩, hs⟩ := hs.token
      exact ⟨i + 1, ⟨hkind ▸ literal?_item before value, rfl⟩, hs⟩
  | identifier name _, h, i, rest, hs => by
      obtain ⟨⟨hkind, -⟩, hs⟩ := hs.token
      exact ⟨i + 1, ⟨hkind.trans h.wordKind, rfl⟩, hs⟩
  | unary op operand _, h, i, rest, hs => by
      obtain ⟨⟨hkind, -⟩, hs⟩ := hs.token
      obtain ⟨j, hoperand, hs⟩ := spells_of_shows [] operand h.2 (i + 1) rest hs
      exact ⟨j, ⟨hkind ▸ UnaryOp.ofToken?_sign op, hoperand⟩, hs⟩
  -- the left operand is spelled first, so the place of the operator is where it ends
  | binary op left right _, h, i, rest, hs => by
      rw [items, List.append_assoc] at hs
      obtain ⟨m, hleft, hs⟩ := spells_of_shows before left h.1.2 i _ hs
      obtain ⟨⟨hkind, -⟩, hs⟩ := hs.token
      obtain ⟨j, hright, hs⟩ := spells_of_shows [' '] right h.2.2 (m + 1) rest hs
      exact ⟨j, ⟨m, hleft, hkind ▸ BinaryOp.ofToken?_item [' '] op, hright⟩, hs⟩
  | assign target value _, h, i, rest, hs => by
      rw [items, List.append_assoc] at hs
      obtain ⟨m, htarget, hs⟩ := spells_of_shows before target h.1.2 i _ hs
      obtain ⟨⟨hkind, -⟩, hs⟩ := hs.token
      obtain ⟨j, hvalue, hs⟩ := spells_of_shows [' '] value h.2 (m + 1) rest hs
      exact ⟨j, ⟨m, htarget, hkind, hvalue⟩, hs⟩
  -- that the bracket opens arguments needs that it stands on the line of the callee
  | call callee es _, h, i, rest, hs => by
      rw [items, List.append_assoc, List.cons_append, List.append_assoc] at hs
      obtain ⟨m, hcallee, hs⟩ := spells_of_shows before callee h.1.2 i _ hs
      have hopens := hs.opens rfl rfl
      obtain ⟨j, hes, hs⟩ := spellsList_of_shows [] .rightParen es h.2 (m + 1) rest hs.token.2
      exact ⟨j, ⟨m, hcallee, hopens, hes⟩, hs⟩
  | member object name _, h, i, rest, hs => by
      rw [items, List.append_assoc] at hs
      obtain ⟨m, hobject, hs⟩ := spells_of_shows before object h.1.2 i _ hs
      obtain ⟨⟨hdot, -⟩, hs⟩ := hs.token
      obtain ⟨⟨hkind, hname⟩, hs⟩ := hs.token
      have hword : (nth s.tokens (m + 1)).isWord = true := by
        apply Token.isWord_of_wordKind
        rw [hname]
        exact hkind
      exact ⟨m + 2, ⟨m, hobject, hdot, hword, hname, rfl⟩, hs⟩
  | index object key _, h, i, rest, hs => by
      rw [items, List.append_assoc, List.cons_append, List.append_assoc] at hs
      obtain ⟨m, hobject, hs⟩ := spells_of_shows before object h.1.2 i _ hs
      have hopens := hs.opens rfl rfl
      obtain ⟨m', hkey, hs⟩ := spells_of_shows [] key h.2 (m + 1) _ hs.token.2
      obtain ⟨⟨hclose, -⟩, hs⟩ := hs.token
      exact ⟨m' + 1, ⟨m, m', hobject, hopens, hkey, hclose, rfl⟩, hs⟩
  | array es _, h, i, rest, hs => by
      rw [items, List.cons_append, List.append_assoc] at hs
      obtain ⟨⟨hkind, -⟩, hs⟩ := hs.token
      obtain ⟨j, hes, hs⟩ := spellsList_of_shows [] .rightBracket es h (i + 1) rest hs
      exact ⟨j, ⟨hkind, hes⟩, hs⟩
  | receiver _, _, i, rest, hs => by
      obtain ⟨⟨hkind, -⟩, hs⟩ := hs.token
      exact ⟨i + 1, ⟨hkind, rfl⟩, hs⟩
  | super _, _, i, rest, hs => by
      obtain ⟨⟨hkind, -⟩, hs⟩ := hs.token
      exact ⟨i + 1, ⟨hkind, rfl⟩, hs⟩
  | new className es _, h, i, rest, hs => by
      rw [items, List.cons_append, List.cons_append, List.cons_append, List.append_assoc] at hs
      obtain ⟨⟨hkind, -⟩, hs⟩ := hs.token
      obtain ⟨⟨hname, -⟩, hs⟩ := hs.token
      obtain ⟨⟨hparen, -⟩, hs⟩ := hs.token
      obtain ⟨j, hes, hs⟩ := spellsList_of_shows [] .rightParen es h.2 (i + 3) rest hs
      exact ⟨j, ⟨hkind, hname.trans h.1.wordKind, .inl ⟨hparen, hes⟩⟩, hs⟩
  | grouping inner _, h, i, rest, hs => by
      rw [items, List.cons_append, List.append_assoc] at hs
      obtain ⟨⟨hkind, -⟩, hs⟩ := hs.token
      obtain ⟨m, hinner, hs⟩ := spells_of_shows [] inner h (i + 1) _ hs
      obtain ⟨⟨hclose, -⟩, hs⟩ := hs.token
      exact ⟨m + 1, ⟨hkind, m, hinner, hclose, rfl⟩, hs⟩

theorem spellsList_of_shows (before : List Char) (closing : Sign) : (es : List Expr) →
    AllWellFormed es → (i : Nat) → (rest : List Item) →
      Shows (itemsList before es ++ ([.sign [] closing] ++ rest)) (s.goto i) →
      ∃ j, SpellsList s.tokens closing es i j ∧ Shows rest (s.goto j)
  | [], _, i, rest, hs => by
      obtain ⟨⟨hclose, -⟩, hs⟩ := hs.token
      exact ⟨i + 1, ⟨hclose, rfl⟩, hs⟩
  | [e], h, i, rest, hs => by
      obtain ⟨m, he, hs⟩ := spells_of_shows before e h.1 i _ hs
      obtain ⟨⟨hclose, -⟩, hs⟩ := hs.token
      exact ⟨m + 1, ⟨m, he, hclose, rfl⟩, hs⟩
  | e :: e' :: es, h, i, rest, hs => by
      rw [itemsList_cons_cons, List.append_assoc] at hs
      obtain ⟨m, he, hs⟩ := spells_of_shows before e h.1 i _ hs
      obtain ⟨⟨hcomma, -⟩, hs⟩ := hs.token
      obtain ⟨j, hes, hs⟩ := spellsList_of_shows [' '] closing (e' :: es) h.2 (m + 1) rest hs
      exact ⟨j, ⟨m, he, hcomma, hes⟩, hs⟩

end

end Expr

namespace Parser

/-- **An expression is read back from its items**, up to positions. -/
theorem reads_expression {e : Expr} (hwell : e.WellFormed) (before : List Char) {rest : List Item}
    (hrest : Expr.Closes rest) :
    Reads expression (e.items before ++ rest) rest (Expr.Same e) := by
  intro s hs
  obtain ⟨j, hspells, hs'⟩ := Expr.spells_of_shows before e hwell s.cursor rest hs
  obtain ⟨e', hrun, he'⟩ :=
    expression_of_spells hs'.ended hspells hwell.normal (hrest.cannotExtend hs')
  exact ⟨e', s.goto j, hrun, he', hs', rfl⟩

end Parser

end Lipi
