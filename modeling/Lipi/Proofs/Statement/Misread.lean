import Lipi.Proofs.Statement.Items
import Lipi.Proofs.Statement.Reading

set_option autoImplicit false

/-! # Bodies are read back, or misread

Two constructs lose something when they are printed. A branch that is an expression in brackets is
printed on the line of its condition, and **the brackets then go on with the condition**
(`condition_grows`); and a method whose name is the end marker of programs ends its class. This module
says what is misread (`Statement.misread`) and reads back conditions, blocks, functions, conditionals
and loops; a part that is misread spoils the whole.
-/

namespace Lipi

/-! ## What is misread -/

/-- Whether the name of the method, which stands behind no modifier, is read as the end of the
program. -/
def Method.readsAsEnd (m : Method) : Bool :=
  m.name == "khatam" && m.access == .sabka && !m.isStatic

namespace Statement

/-- Whether the statement is an expression whose text starts with a bracket. -/
def startsWithBracket : Statement → Bool
  | expression expr _ => expr.text.toList.head? == some '(' || expr.text.toList.head? == some '['
  | _ => false

/-- Whether the statement is a conditional or a loop with such an expression behind its condition. -/
def hasBracketBranch : Statement → Bool
  | conditional _ thenBranch _ _ => thenBranch.startsWithBracket
  | loop _ body _ => body.startsWithBracket
  | _ => false

section Any

variable (f : Statement → Bool) (g : Method → Bool)

mutual

/-- Whether `f` holds of the statement or of one inside it, or `g` of a method inside it. -/
def any (t : Statement) : Bool :=
  f t || match t with
    | function _ _ body _ => anyAll body
    | classDecl _ _ methods _ => anyMethods methods
    | conditional _ thenBranch none _ => any thenBranch
    | conditional _ thenBranch (some elseBranch) _ => any thenBranch || any elseBranch
    | loop _ body _ => any body
    | block statements _ => anyAll statements
    | exportDecl declaration _ => any declaration
    | _ => false

def anyAll : List Statement → Bool
  | [] => false
  | s :: ss => any s || anyAll ss

def anyMethods : List Method → Bool
  | [] => false
  | .mk access isStatic isConstructor name parameters body pos :: ms =>
    g (.mk access isStatic isConstructor name parameters body pos) || anyAll body || anyMethods ms

end

end Any

/-- Whether something in the statement is misread. -/
def misread : Statement → Bool :=
  any hasBracketBranch Method.readsAsEnd

def misreadAll : List Statement → Bool :=
  anyAll hasBracketBranch Method.readsAsEnd

def misreadMethods : List Method → Bool :=
  anyMethods hasBracketBranch Method.readsAsEnd

theorem misreadMethods_cons (m : Method) (ms : List Method) :
    misreadMethods (m :: ms) = (m.readsAsEnd || misreadAll m.body || misreadMethods ms) := by
  cases m
  rfl

/-- The first character tells whether an expression starts with a bracket. -/
theorem startsWithBracket_iff {topLevel : Bool} {t : Statement} (h : t.WellFormed topLevel) :
    t.startsWithBracket = true ↔ t.opening = some .leftParen ∨ t.opening = some .leftBracket := by
  cases t using shapes with
  | expression e pos =>
      -- the text of an expression has a first character, and it shows the brackets
      obtain ⟨c, cs, hcons, hbegins⟩ := Expr.text_begins [] e h
      rw [List.append_nil] at hcons
      show (e.text.toList.head? == some '(' || e.text.toList.head? == some '[') = true ↔ _
      rw [hcons, List.head?_cons, Bool.or_eq_true, beq_iff_eq, beq_iff_eq, Option.some.injEq,
        Option.some.injEq, hbegins.paren, hbegins.bracket]
      rfl
  | _ => simp [startsWithBracket, opening]

/-- The two statements are the same up to positions. -/
def Same (t t' : Statement) : Prop :=
  t'.erase = t.erase

/-- The two statements do not agree. -/
def Differs (t t' : Statement) : Prop :=
  t.agrees t' = false

/-- Conditionals differ if their conditions or their first branches do. -/
theorem differs_conditional {c c' : Expr} {t t' : Statement}
    (h : c.agrees c' = false ∨ Differs t t') (e e' : Option Statement) (pos pos' : Position) :
    Differs (conditional c t e pos) (conditional c' t' e' pos') := by
  unfold Differs at h ⊢
  cases e <;> cases e' <;> rcases h with h | h <;> simp [agrees, h]

theorem differs_loop {c c' : Expr} {t t' : Statement} (h : c.agrees c' = false ∨ Differs t t')
    (pos pos' : Position) : Differs (loop c t pos) (loop c' t' pos') := by
  unfold Differs at h ⊢
  rcases h with h | h <;> simp [agrees, h]

theorem agreesMethods_cons (m m' : Method) (ms ms' : List Method) :
    agreesMethods (m :: ms) (m' :: ms') = (agreesMethods [m] [m'] && agreesMethods ms ms') := by
  cases m
  cases m'
  simp [agreesMethods]

theorem eraseMethods_cons (m : Method) (ms : List Method) :
    eraseMethods (m :: ms) = eraseMethods [m] ++ eraseMethods ms := by
  cases m
  rfl

end Statement

/-! ## Conditions -/

namespace Parser

open Lipi.Expr (Closes)
open Lipi.Stream (Shows)
open Statement (braced nameItems lineItems methodItems)

theorem reads_condition {c : Expr} (hwell : c.WellFormed) {rest : List Item}
    (hrest : Closes rest) :
    Reads condition ((Expr.grouping c .start).items [' '] ++ rest) rest (Expr.Same c) := by
  refine reads_bind (reads_expression (e := .grouping c .start) hwell [' '] hrest) ?_
  intro e he
  cases e with
  | grouping inner pos =>
      refine reads_pure ?_
      injection he
  | _ => cases he

/-- A bracket behind a condition, on the same line, goes on with the condition: what is read is
deeper than the condition. -/
theorem condition_grows {c : Expr} (hwell : c.WellFormed) {i : Item} {is : List Item}
    (hkind : i.kind = .sign .leftParen ∨ i.kind = .sign .leftBracket) (hline : i.startsLine = false)
    {s s' : Stream} (hs : Shows ((Expr.grouping c .start).items [' '] ++ i :: is) s) {c' : Expr}
    (h : condition s = .ok c' s') : c.depth < c'.depth := by
  obtain ⟨e, s₁, hexpr, hrest⟩ := bind_ok h
  have hdeep : (Expr.grouping c .start).depth < e.depth := by
    -- the parentheses around the condition are read first, and the loop goes on with the bracket
    obtain ⟨j, hspells, hs₂⟩ := 
      Expr.spells_of_shows [' '] (.grouping c .start) hwell s.cursor (i :: is) hs
    have hended := hs₂.ended
    obtain ⟨n, hn⟩ : ∃ n, s.bound = n + 1 := ⟨_, hs.bound⟩
    have hnested : ReadsBehind s (expressionWithin n) s.cursor := by
      intro e' i' j' hlt hspells' hnormal' hstops'
      have hbound : s.tokens.size - s.cursor + 4 = n + 1 := hn
      exact runsAt_expressionWithin hended n hspells' hnormal' hstops' (by omega)
    have hrun : expressionWithin s.bound s = .ok e s₁ := hexpr
    rw [hn] at hrun
    obtain ⟨e₀, s₀, hunary, hgrows⟩ := assignments_grows hrun
    rw [hn] at hunary
    have hnormal : (Expr.grouping c .start).Normal := Expr.WellFormed.normal (e := c) hwell
    obtain ⟨g, k, hloop, hsame, hk⟩ :=
      unary_arrivesAt hended hnested n (Nat.le_refl _) _ j hspells hnormal rfl
    have hbounds := hspells.bounds hended
    obtain ⟨k, rfl⟩ : ∃ m, k = m + 1 := ⟨k - 1, by omega⟩
    rw [Stream.goto_cursor, hunary] at hloop
    have hdepth : (Expr.grouping c .start).depth = g.depth :=
      Expr.depth_eq_of_agrees _ _ (Expr.agrees_of_erase _ _ hwell hsame)
    have hdeepens : g.depth < e₀.depth := by
      refine continuation_deepens ?_ (hs₂.lineBreak.trans hline) hloop.symm
      rw [hs₂.kind]
      exact hkind
    have hgrown := hgrows.depth
    omega
  rw [Expr.depth] at hdeep
  cases e with
  | grouping inner pos =>
      obtain ⟨rfl, _⟩ := pure_ok hrest
      rw [Expr.depth] at hdeep
      omega
  | _ =>
      obtain ⟨rfl, _⟩ := pure_ok hrest
      omega

/-- The condition in front of a statement. -/
theorem tells_condition {c : Expr} (hc : c.WellFormed) {t : Statement} (ht : t.WellFormed false)
    (hminus : t.opening ≠ some .minus) (depth : Nat) (rest : List Item) :
    Tells condition ((Expr.grouping c .start).items [' '] ++ (t.items depth [' '] ++ rest))
      (t.items depth [' '] ++ rest) t.startsWithBracket (Expr.Same c)
      fun c' => c.agrees c' = false := by
  obtain ⟨i, is, hcons, hleads⟩ := Statement.items_lead depth [' '] t ht
  rw [hcons, List.cons_append]
  constructor
  · intro hfalse
    have hnone : ¬(t.opening = some .leftParen ∨ t.opening = some .leftBracket) := by
      rw [← Statement.startsWithBracket_iff ht, hfalse]
      exact Bool.false_ne_true
    rw [not_or] at hnone
    exact reads_condition hc (hleads.closes hminus hnone.1 hnone.2 _)
  · intro htrue s hs c' s' hrun
    have hkind : i.kind = .sign .leftParen ∨ i.kind = .sign .leftBracket := by
      rcases (Statement.startsWithBracket_iff ht).mp htrue with h | h
      · exact Or.inl (hleads.opens _ h)
      · exact Or.inr (hleads.opens _ h)
    have hline : i.startsLine = false := by
      unfold Item.startsLine
      rw [hleads.before]
      decide
    -- expressions that agree are equally deep
    have hdeep := condition_grows hc hkind hline hs hrun
    have hdiffers : c.agrees c' = false := by
      rw [Bool.eq_false_iff]
      intro hagrees
      have hsame := Expr.depth_eq_of_agrees c c' hagrees
      omega
    exact Or.inl hdiffers

/-! ## Blocks -/

/-- The reader for nested statements reads back, or misreads, all that are not deeper than `d`. -/
def TellsNested (nested : Bool → Parser Statement) (d : Nat) : Prop :=
  ∀ (topLevel : Bool) (t : Statement), t.WellFormed topLevel → t.depth ≤ d →
    ∀ depth before rest, (t.isOpen = true → Item.kindOf rest ≠ .keyword .warna) →
      Tells (nested topLevel) (t.items depth before ++ rest) rest t.misread (Statement.Same t)
        (Statement.Differs t)

theorem blockBody_extends {nested : Parser Statement} {n : Nat} {previous ts : List Statement}
    {s s' : Stream} (h : blockBody nested n previous s = .ok ts s') :
    ∃ us, ts = previous.reverse ++ us := by
  induction n generalizing previous s with
  | zero => cases h
  | succ n ih =>
      simp only [blockBody] at h
      split at h
      · cases h
        exact ⟨[], (List.append_nil _).symm⟩
      · split at h
        · next t s₁ heq =>
          obtain ⟨us, rfl⟩ := ih h
          exact ⟨t :: us, by simp⟩
        · split at h
          · cases h
          · exact ih h

/-- A statement in front of others does not end the block. -/
theorem endsBlock_eq_false {topLevel : Bool} {t : Statement} (ht : t.WellFormed topLevel)
    {depth : Nat} {before : List Char} {rest : List Item} {s : Stream}
    (hs : Shows (t.items depth before ++ rest) s) : endsBlock s = false := by
  obtain ⟨i, is, hcons, hleads⟩ := Statement.items_lead depth before t ht
  rw [hcons, List.cons_append] at hs
  unfold endsBlock
  rw [hs.kind]
  split
  · next hkind => exact absurd hkind (hleads.kind_ne (by simp))
  · next hkind => exact absurd hkind (hleads.kind_ne (by simp))
  · next hkind => exact absurd hkind (hleads.kind_ne (by simp))
  · rfl

/-- No line starts with an `else`. -/
theorem kindOf_lineItems {topLevel : Bool} {ts : List Statement}
    (hwell : Statement.AllWellFormed topLevel ts) (depth : Nat) {rest : List Item}
    (hrest : Item.kindOf rest ≠ .keyword .warna) :
    Item.kindOf (lineItems depth ts ++ rest) ≠ .keyword .warna := by
  cases ts with
  | nil => exact hrest
  | cons t ts =>
      obtain ⟨i, is, hcons, hleads⟩ :=
        Statement.items_lead depth (Statement.newline depth) t hwell.1
      rw [lineItems, hcons]
      exact hleads.kind_ne (by simp)

section Nested

variable {nested : Bool → Parser Statement} {d : Nat} (hsteady : ∀ top, Steady (nested top))
  (hnested : TellsNested nested d)

include hsteady hnested

omit hnested in
/-- A statement in front of others is read in a round of its own, unless it is not read at all; then
the error is recorded. -/
theorem blockBody_recovers {t : Statement} (ht : t.WellFormed false) {depth : Nat}
    {before : List Char} {is rest : List Item} {n : Nat} {previous : List Statement}
    {misread : Bool} {P Q : List Statement → Prop}
    (h : Tells (nested false >>= fun t => blockBody (nested false) n (t :: previous))
      (t.items depth before ++ is) rest misread P Q) :
    Tells (blockBody (nested false) (n + 1) previous) (t.items depth before ++ is) rest misread
      P Q := by
  refine h.recovers (fun s us s' hs hrun => ?_) fun s us s' hs hrun => ?_
  · have hends := endsBlock_eq_false ht hs
    obtain ⟨t', s₁, hhead, hrest⟩ := bind_ok hrun
    simp only [blockBody, hends, hhead]
    exact hrest
  · have hends := endsBlock_eq_false ht hs
    simp only [blockBody, hends, Bool.false_eq_true, if_false] at hrun
    cases hhead : nested false s with
    | ok t' s₁ =>
        rw [hhead] at hrun
        exact Or.inl ((bind_of_ok hhead).trans hrun)
    -- the loop recovers from an error by recording it, and no reader takes errors back
    | error error s₁ =>
        simp only [hhead] at hrun
        cases hfatal : error.isFatal with
        | true =>
            rw [hfatal] at hrun
            cases hrun
        | false =>
            rw [hfatal, if_neg Bool.false_ne_true] at hrun
            have hkept := ((hsteady false).error hhead).errors
            have hrecorded := s₁.errors_lt_recover error true
            have hrest := ((steady_blockBody (hsteady false) _ _).ok hrun).errors
            exact Or.inr (by omega)

/-- The lines of a body. -/
theorem tells_blockBody {ts : List Statement} (hwell : Statement.AllWellFormed false ts)
    (hdepth : Statement.depthAll ts ≤ d) (depth : Nat) (b : List Char) (rest : List Item) {n : Nat}
    (hn : ts.length < n) (previous : List Statement) :
    Tells (blockBody (nested false) n previous)
      (lineItems depth ts ++ .sign b .rightBrace :: rest) (.sign b .rightBrace :: rest)
      (Statement.misreadAll ts)
      (fun us => ∃ vs, us = previous.reverse ++ vs ∧ Statement.eraseAll vs = Statement.eraseAll ts)
      (fun us => ∃ vs, us = previous.reverse ++ vs ∧ Statement.agreesAll ts vs = false) := by
  induction ts generalizing n previous with
  | nil =>
      obtain ⟨n, rfl⟩ : ∃ m, n = m + 1 := ⟨n - 1, by omega⟩
      refine tells_of_reads fun s hs => ?_
      refine ⟨previous.reverse, s, ?_, ⟨[], (List.append_nil _).symm, rfl⟩, hs, rfl⟩
      have hends : endsBlock s = true := by
        unfold endsBlock
        rw [hs.kindOf]
        rfl
      simp only [blockBody, hends, if_true]
  | cons t ts ih =>
      obtain ⟨n, rfl⟩ : ∃ m, n = m + 1 := ⟨n - 1, by omega⟩
      rw [Statement.depthAll] at hdepth
      rw [List.length_cons] at hn
      rw [lineItems, List.append_assoc]
      -- no line starts with the word for an alternative, so a conditional in front takes none
      have hnext : Item.kindOf (lineItems depth ts ++ .sign b .rightBrace :: rest)
          ≠ .keyword .warna := kindOf_lineItems hwell.2 depth TokenKind.noConfusion
      have hhead := hnested false t hwell.1 (by omega) depth (Statement.newline depth) _
        (fun _ => hnext)
      have hmisread : Statement.misreadAll (t :: ts) = (t.misread || Statement.misreadAll ts) := rfl
      rw [hmisread]
      -- if the first statement is misread, the lists differ whatever the others are
      refine blockBody_recovers hsteady hwell.1 (tells_bind hhead (fun t' ht' => ?_) ?_ ?_)
      · refine (ih hwell.2 (by omega) (by omega) (t' :: previous)).cons (fun us hus => ?_)
          fun us hus => ?_
        · rw [Statement.eraseAll, Statement.eraseAll, ht', hus]
        · rw [Statement.agreesAll, hus, Bool.and_false]
      · exact fun t' => steady_blockBody (hsteady false) n (t' :: previous)
      · intro t' s us s' ht' hrun
        obtain ⟨vs, rfl⟩ := blockBody_extends hrun
        refine ⟨t' :: vs, by simp, ?_⟩
        rw [Statement.agreesAll, show t.agrees t' = false from ht', Bool.false_and]

theorem tells_blockOf {ts : List Statement} (hwell : Statement.AllWellFormed false ts)
    (hdepth : Statement.depthAll ts ≤ d) (context : String) (before : List Char) (depth : Nat)
    (rest : List Item) :
    Tells (blockOf (nested false) context)
      (braced before depth (lineItems (depth + 1) ts) ++ rest) rest (Statement.misreadAll ts)
      (fun r => Statement.eraseAll r.2 = Statement.eraseAll ts)
      (fun r => Statement.agreesAll ts r.2 = false) := by
  rw [braced, List.cons_append, List.append_assoc]
  refine tells_after reads_consume_sign fun start _ => ?_
  have hbody := tells_blockBody hsteady hnested hwell hdepth (depth + 1)
    (if (lineItems (depth + 1) ts).isEmpty then [] else Statement.newline depth) rest
    (n := (lineItems (depth + 1) ts ++ .sign (if (lineItems (depth + 1) ts).isEmpty then []
      else Statement.newline depth) .rightBrace :: rest).length + 5) ?_ []
  · refine tells_then (tells_bounded hbody) ?_ ?_ ?_
    · rintro us ⟨vs, rfl, hvs⟩
      exact reads_bind reads_consume_sign fun _ _ => reads_pure hvs
    · exact fun _ => steady_bind (steady_consume _ _) fun _ => steady_pure _
    · rintro us s r s' ⟨vs, rfl, hvs⟩ hrun
      obtain ⟨_, s₁, _, hrun⟩ := bind_ok hrun
      obtain ⟨rfl, _⟩ := pure_ok hrun
      exact hvs
  · have hlines := Statement.length_le_lineItems (depth + 1) ts
    rw [List.length_append]
    omega

/-! ## Functions -/

omit hsteady hnested in
theorem reads_names {names : List String} (hnames : ∀ x ∈ names, IsName x) {closing : Sign}
    (hclosing : closing = .rightParen ∨ closing = .rightBrace) (expectation context : String)
    (before last : List Char) (rest : List Item) :
    Reads (commaSeparated (identifier expectation) closing context)
      (nameItems before names ++ .sign last closing :: rest) rest (· = names) := by
  have hcomma : closing ≠ .comma := by
    rcases hclosing with rfl | rfl <;> decide
  refine (reads_commaSeparated (Q := (· = ·)) hcomma ?_ ?_).mono ?_
  · intro x hx rest hkind
    have hword : (Item.word before x).kind = .identifier x := (hnames x hx).wordKind
    have hsign : (Item.word before x).kind = .sign closing := hkind
    rw [hword] at hsign
    cases hsign
  · intro x hx b b' sign rest _
    exact (reads_identifier (hnames x hx)).mono fun y hy => hy.symm
  · intro ys hys
    rw [List.forall₂_eq_eq_eq] at hys
    exact hys.symm

/-- The parameters and the body of a function or method. -/
theorem tells_routine {names : List String} (hnames : ∀ x ∈ names, IsName x) {ts : List Statement}
    (hwell : Statement.AllWellFormed false ts) (hdepth : Statement.depthAll ts ≤ d) (what : String)
    (depth : Nat) (rest : List Item) :
    Tells (routine (nested false) what)
      (.sign [] .leftParen :: (nameItems [] names ++ .sign [] .rightParen ::
        (braced [' '] depth (lineItems (depth + 1) ts) ++ rest))) rest (Statement.misreadAll ts)
      (fun r => r.1 = names ∧ Statement.eraseAll r.2 = Statement.eraseAll ts)
      (fun r => Statement.agreesAll ts r.2 = false) := by
  refine tells_after reads_consume_sign fun _ _ => ?_
  refine tells_after (reads_names hnames (Or.inl rfl) _ _ [] [] _) ?_
  rintro _ rfl
  refine tells_then (tells_blockOf hsteady hnested hwell hdepth _ [' '] depth rest) ?_ ?_ ?_
  · rintro ⟨pos, ts'⟩ hts'
    exact reads_pure ⟨rfl, hts'⟩
  · exact fun _ => steady_pure _
  · rintro ⟨pos, ts'⟩ s r s' hts' hrun
    obtain ⟨rfl, _⟩ := pure_ok hrun
    exact hts'

theorem tells_functionDecl {name : String} {parameters : List String} {body : List Statement}
    {pos : Position} (hwell : (Statement.function name parameters body pos).WellFormed false)
    (hdepth : (Statement.function name parameters body pos).depth ≤ d + 1) (depth : Nat)
    (before : List Char) (rest : List Item) :
    Tells (functionDecl (nested false))
      ((Statement.function name parameters body pos).items depth before ++ rest) rest
      (Statement.function name parameters body pos).misread
      (Statement.Same (.function name parameters body pos))
      (Statement.Differs (.function name parameters body pos)) := by
  obtain ⟨hname, hparameters, hbody⟩ := hwell
  rw [Statement.depth] at hdepth
  simp only [Statement.items, List.cons_append, List.append_assoc]
  refine tells_after reads_advance fun _ _ => tells_after reads_get fun _ _ => ?_
  refine tells_after (reads_identifier hname) ?_
  rintro _ rfl
  refine tells_then (tells_routine hsteady hnested hparameters hbody (by omega) _ depth rest) ?_ ?_ ?_
  · rintro ⟨parameters', body'⟩ ⟨hsame, hbody'⟩
    refine reads_pure ?_
    show Statement.function _ parameters' (Statement.eraseAll body') _ = Statement.function _ _ _ _
    rw [show parameters' = parameters from hsame, show Statement.eraseAll body' = _ from hbody']
  · exact fun _ => steady_pure _
  · rintro ⟨parameters', body'⟩ s t s' hbody' hrun
    obtain ⟨rfl, _⟩ := pure_ok hrun
    unfold Statement.Differs
    rw [Statement.agrees, show Statement.agreesAll body body' = false from hbody', Bool.and_false]

/-! ## Conditionals and loops -/

/-- The reader of the `else` behind a first branch, if there is one. -/
def elsePart (nested : Parser Statement) (c : Expr) (t : Statement) (pos : Position) :
    Parser Statement := do
  if ← accept (.keyword .warna) then
    let elseBranch ← nested
    return .conditional c t (some elseBranch) pos
  else
    return .conditional c t none pos

omit hnested in
theorem steady_elsePart (c : Expr) (t : Statement) (pos : Position) :
    Steady (elsePart (nested false) c t pos) := by
  refine steady_bind (steady_accept _) fun hasElse => ?_
  cases hasElse with
  | true => exact steady_bind (hsteady false) fun _ => steady_pure _
  | false => exact steady_pure _

omit hsteady hnested in
theorem elsePart_shape {c : Expr} {t u : Statement} {pos : Position} {s s' : Stream}
    (h : elsePart (nested false) c t pos s = .ok u s') : ∃ e, u = .conditional c t e pos := by
  obtain ⟨hasElse, s₁, _, h⟩ := bind_ok h
  cases hasElse with
  | true =>
      obtain ⟨e, s₂, _, h⟩ := bind_ok h
      obtain ⟨rfl, _⟩ := pure_ok h
      exact ⟨some e, rfl⟩
  | false =>
      obtain ⟨rfl, _⟩ := pure_ok h
      exact ⟨none, rfl⟩

omit hnested in
/-- A conditional, once its first branch and what follows are read back or misread. -/
theorem tells_branches {c : Expr} {t : Statement} (hc : c.WellFormed) (ht : t.WellFormed false)
    (hminus : t.opening ≠ some .minus) {e : Option Statement} {pos : Position} {depth : Nat}
    {is rest : List Item} {misread : Bool}
    (hbranch : Tells (nested false) (t.items depth [' '] ++ is) is t.misread (Statement.Same t)
      (Statement.Differs t))
    (helse : ∀ c' t' pos', Expr.Same c c' → Statement.Same t t' →
      Tells (elsePart (nested false) c' t' pos') is rest misread
        (Statement.Same (.conditional c t e pos)) (Statement.Differs (.conditional c t e pos)))
    (before : List Char) :
    Tells (conditionalStatement (nested false))
      (.keyword before .agar :: ((Expr.grouping c .start).items [' '] ++
        (t.items depth [' '] ++ is))) rest
      (t.startsWithBracket || (t.misread || misread)) (Statement.Same (.conditional c t e pos))
      (Statement.Differs (.conditional c t e pos)) := by
  refine tells_after reads_advance fun start _ => ?_
  refine tells_bind (tells_condition hc ht hminus depth is) ?_ ?_ ?_
  · intro c' hc'
    refine tells_bind hbranch (fun t' ht' => helse c' t' start.position hc' ht') ?_ ?_
    · exact fun t' => steady_elsePart hsteady c' t' start.position
    · intro t' s u s' ht' hrun
      obtain ⟨e', rfl⟩ := elsePart_shape hrun
      exact Statement.differs_conditional (Or.inr ht') e e' pos start.position
  · exact fun c' => steady_bind (hsteady false) fun t' => steady_elsePart hsteady c' t' start.position
  · intro c' s u s' hc' hrun
    obtain ⟨t', s₁, _, hrun⟩ := bind_ok hrun
    obtain ⟨e', rfl⟩ := elsePart_shape hrun
    exact Statement.differs_conditional (Or.inl hc') e e' pos start.position

theorem tells_conditional {c : Expr} {t : Statement} {pos : Position}
    (hwell : (Statement.conditional c t none pos).WellFormed false)
    (hdepth : (Statement.conditional c t none pos).depth ≤ d + 1) (depth : Nat)
    (before : List Char) {rest : List Item} (hrest : Item.kindOf rest ≠ .keyword .warna) :
    Tells (conditionalStatement (nested false))
      ((Statement.conditional c t none pos).items depth before ++ rest) rest
      (Statement.conditional c t none pos).misread (Statement.Same (.conditional c t none pos))
      (Statement.Differs (.conditional c t none pos)) := by
  obtain ⟨hc, ht, hminus⟩ := hwell
  rw [Statement.depth] at hdepth
  have hbranch := hnested false t ht (by omega) depth [' '] rest (fun _ => hrest)
  -- no `else` follows, so the rest of the reader takes nothing
  have helse : ∀ c' t' pos', Expr.Same c c' → Statement.Same t t' →
      Tells (elsePart (nested false) c' t' pos') rest rest false
        (Statement.Same (.conditional c t none pos))
        (Statement.Differs (.conditional c t none pos)) := by
    intro c' t' pos' hc' ht'
    refine tells_of_reads (reads_bind (reads_accept_keyword_not hrest) ?_)
    rintro _ rfl
    refine reads_pure ?_
    show Statement.conditional c'.erase t'.erase none _ = Statement.conditional c.erase t.erase none _
    rw [hc', ht']
  have htells := tells_branches hsteady hc ht hminus hbranch helse before
  rw [Bool.or_false] at htells
  simp only [Statement.items, List.cons_append, List.append_assoc]
  exact htells

theorem tells_alternative {c : Expr} {t e : Statement} {pos : Position}
    (hwell : (Statement.conditional c t (some e) pos).WellFormed false)
    (hdepth : (Statement.conditional c t (some e) pos).depth ≤ d + 1) (depth : Nat)
    (before : List Char) {rest : List Item}
    (hrest : e.isOpen = true → Item.kindOf rest ≠ .keyword .warna) :
    Tells (conditionalStatement (nested false))
      ((Statement.conditional c t (some e) pos).items depth before ++ rest) rest
      (Statement.conditional c t (some e) pos).misread
      (Statement.Same (.conditional c t (some e) pos))
      (Statement.Differs (.conditional c t (some e) pos)) := by
  obtain ⟨⟨hc, ht, hminus⟩, hclosed, he⟩ := hwell
  rw [Statement.depth] at hdepth
  -- the first branch is closed, so the `else` is not its own
  have hbranch := hnested false t ht (by omega) depth [' ']
    (.keyword [' '] .warna :: (e.items depth [' '] ++ rest))
    (fun hopen => absurd (hclosed.symm.trans hopen) Bool.false_ne_true)
  simp only [Statement.items, List.cons_append, List.append_assoc]
  refine tells_branches hsteady hc ht hminus hbranch ?_ before
  intro c' t' pos' hc' ht'
  refine tells_after reads_accept_keyword ?_
  rintro _ rfl
  refine tells_then (hnested false e he (by omega) depth [' '] rest hrest) ?_ ?_ ?_
  · intro e' he'
    refine reads_pure ?_
    show Statement.conditional c'.erase t'.erase (some e'.erase) _
      = Statement.conditional c.erase t.erase (some e.erase) _
    rw [hc', ht', he']
  · exact fun _ => steady_pure _
  · intro e' s u s' he' hrun
    obtain ⟨rfl, _⟩ := pure_ok hrun
    unfold Statement.Differs
    rw [Statement.agrees, show e.agrees e' = false from he', Bool.and_false]

theorem tells_loop {c : Expr} {t : Statement} {pos : Position}
    (hwell : (Statement.loop c t pos).WellFormed false)
    (hdepth : (Statement.loop c t pos).depth ≤ d + 1) (depth : Nat) (before : List Char)
    {rest : List Item} (hrest : t.isOpen = true → Item.kindOf rest ≠ .keyword .warna) :
    Tells (loopStatement (nested false))
      ((Statement.loop c t pos).items depth before ++ rest) rest (Statement.loop c t pos).misread
      (Statement.Same (.loop c t pos)) (Statement.Differs (.loop c t pos)) := by
  obtain ⟨hc, ht, hminus⟩ := hwell
  rw [Statement.depth] at hdepth
  simp only [Statement.items, List.cons_append, List.append_assoc]
  refine tells_after reads_advance fun start _ => ?_
  refine tells_bind (tells_condition hc ht hminus depth rest) ?_ ?_ ?_
  · intro c' hc'
    refine tells_then (hnested false t ht (by omega) depth [' '] rest hrest) ?_ ?_ ?_
    · intro t' ht'
      refine reads_pure ?_
      show Statement.loop c'.erase t'.erase _ = Statement.loop c.erase t.erase _
      rw [hc', ht']
    · exact fun _ => steady_pure _
    · intro t' s u s' ht' hrun
      obtain ⟨rfl, _⟩ := pure_ok hrun
      exact Statement.differs_loop (Or.inr ht') pos start.position
  · exact fun _ => steady_bind (hsteady false) fun _ => steady_pure _
  · intro c' s u s' hc' hrun
    obtain ⟨t', s₁, _, hrun⟩ := bind_ok hrun
    obtain ⟨rfl, _⟩ := pure_ok hrun
    exact Statement.differs_loop (Or.inl hc') pos start.position

end Nested

end Parser

end Lipi
