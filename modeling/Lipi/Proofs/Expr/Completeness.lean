import Lipi.Proofs.Expr.Soundness

set_option autoImplicit false

/-! # Expressions in the grammar are read

**The reader of expressions gives every tree in normal form from every spelling of it**, up to
positions, in front of a token that cannot extend it (`expression_of_spells`). The tree on the left
edge of an expression is the one that is read first. So the statement about a loop follows the left
edge: reading a spelling of `e` arrives at the loop with `e` in its hands and all that follows still
to be read (`unary_arrivesAt`, `tiered_arrivesAt`).
-/

namespace Lipi

open Token (nth Opens)

namespace Stream

variable {s : Stream}

/-- Behind a token that is not the end there is another one. -/
theorem Ended.succ_lt (hs : s.Ended) {i : Nat} (hkind : (nth s.tokens i).kind ≠ .eof) :
    i + 1 < s.tokens.size := by
  obtain ⟨last, hback, hlast⟩ := hs
  have hlt := lt_of_kind hkind
  have hne : i ≠ s.tokens.size - 1 := by
    rintro rfl
    rw [Array.back?_eq_getElem?] at hback
    apply hkind
    rw [nth, hback]
    exact hlast
  omega

end Stream

/-! ## Spellings -/

/-- The kinds of tokens with which an expression starts. -/
def TokenKind.opensExpr (kind : TokenKind) : Bool :=
  (UnaryOp.ofToken? kind).isSome || (Parser.literal? kind).isSome ||
    match kind with
    | .identifier _ | .keyword .yeh | .keyword .upar | .keyword .naya | .sign .leftBracket
    | .sign .leftParen => true
    | _ => false

namespace Expr

variable {tokens : Array Token}

/-- An expression starts with the first token of what is on its left edge. -/
theorem Spells.first {i : Nat} : {e : Expr} → {j : Nat} → Spells tokens e i j →
    (nth tokens i).kind.opensExpr = true
  | literal _ _, _, ⟨h, _⟩ => by simp [TokenKind.opensExpr, h]
  | identifier _ _, _, ⟨h, _⟩ => by simp [TokenKind.opensExpr, h]
  | unary _ _ _, _, ⟨h, _⟩ => by simp [TokenKind.opensExpr, h]
  | binary _ _ _ _, _, ⟨_, h, _⟩ => h.first
  | assign _ _ _, _, ⟨_, h, _⟩ => h.first
  | call _ _ _, _, ⟨_, h, _⟩ => h.first
  | member _ _ _, _, ⟨_, h, _⟩ => h.first
  | index _ _ _, _, ⟨_, _, h, _⟩ => h.first
  | array _ _, _, ⟨h, _⟩ => by simp [TokenKind.opensExpr, h]
  | receiver _, _, ⟨h, _⟩ => by simp [TokenKind.opensExpr, h]
  | super _, _, ⟨h, _⟩ => by simp [TokenKind.opensExpr, h]
  | new _ _ _, _, ⟨h, _⟩ => by simp [TokenKind.opensExpr, h]
  | grouping _ _, _, ⟨h, _⟩ => by simp [TokenKind.opensExpr, h]

theorem Spells.kind_ne_eof {e : Expr} {i j : Nat} (h : Spells tokens e i j) :
    (nth tokens i).kind ≠ .eof := by
  intro heof
  have hfirst := h.first
  rw [heof] at hfirst
  cases hfirst

section
variable {s : Stream} (hs : s.Ended)

include hs

/-- A single token. -/
theorem single_bounds {i j : Nat} {kind : TokenKind} (hkind : (nth s.tokens i).kind = kind)
    (hne : kind ≠ .eof) (hj : j = i + 1) : i < j ∧ j < s.tokens.size := by
  have hlt := hs.succ_lt (hkind ▸ hne)
  omega

mutual

/-- A spelling takes a token, and ends in front of the end of the list. -/
theorem Spells.bounds : {e : Expr} → {i j : Nat} → Spells s.tokens e i j →
    i < j ∧ j < s.tokens.size
  | literal _ _, i, j, h => by
      have hlt := hs.succ_lt h.kind_ne_eof
      have hj := h.2
      omega
  | identifier _ _, i, j, h => single_bounds hs h.1 (by simp) h.2
  | unary _ _ _, i, j, h => by
      have hoperand := h.2.bounds
      omega
  | binary _ _ _ _, i, j, ⟨m, hleft, _, hright⟩ => by
      have hleft' := hleft.bounds
      have hright' := hright.bounds
      omega
  | assign _ _ _, i, j, ⟨m, htarget, _, hvalue⟩ => by
      have htarget' := htarget.bounds
      have hvalue' := hvalue.bounds
      omega
  | call _ _ _, i, j, ⟨m, hcallee, _, hes⟩ => by
      have hcallee' := hcallee.bounds
      have hes' := hes.bounds
      omega
  | member _ _ _, i, j, ⟨m, hobject, _, hword, _, hj⟩ => by
      have hobject' := hobject.bounds
      have hlt : m + 1 + 1 < s.tokens.size := by
        apply hs.succ_lt
        intro heof
        simp [Token.isWord, heof] at hword
      omega
  | index _ _ _, i, j, ⟨m, m', hobject, _, hkey, hclose, hj⟩ => by
      have hobject' := hobject.bounds
      have hkey' := hkey.bounds
      have hclose' := single_bounds hs hclose (by simp) hj
      omega
  | array _ _, i, j, h => by
      have hes := h.2.bounds
      omega
  | receiver _, i, j, h => single_bounds hs h.1 (by simp) h.2
  | super _, i, j, h => single_bounds hs h.1 (by simp) h.2
  | new _ _ _, i, j, ⟨_, hname, .inl ⟨_, hes⟩⟩ => by
      have hes' := hes.bounds
      omega
  | new _ _ _, i, j, ⟨_, hname, .inr ⟨_, _, hj⟩⟩ => by
      have hname' := single_bounds hs hname (by simp) rfl
      omega
  | grouping _ _, i, j, ⟨_, m, hinner, hclose, hj⟩ => by
      have hinner' := hinner.bounds
      have hclose' := single_bounds hs hclose (by simp) hj
      omega

theorem SpellsList.bounds {closing : Sign} : {es : List Expr} → {i j : Nat} →
    SpellsList s.tokens closing es i j → i < j ∧ j < s.tokens.size
  | [], _, _, h => single_bounds hs h.1 (by simp) h.2
  | _ :: _, _, _, ⟨_, he, hes⟩ => by
      have he' := he.bounds
      have hes' := hes.bounds
      omega

theorem SpellsMore.bounds {closing : Sign} : {es : List Expr} → {i j : Nat} →
    SpellsMore s.tokens closing es i j → i < j ∧ j < s.tokens.size
  | [], _, _, h => single_bounds hs h.1 (by simp) h.2
  | _ :: _, _, _, ⟨_, _, he, hes⟩ => by
      have he' := he.bounds
      have hes' := hes.bounds
      omega

end

end

/-! ## Tokens at which an expression stops -/

/-- A token that is no point and no opening bracket goes on with no call and no member. -/
theorem stopsAt_of_kind {tier i : Nat}
    (hoperator : ∀ op, BinaryOp.ofToken? (nth tokens i).kind = some op → tier < op.tier)
    (hsigns : ∀ sign, sign = .dot ∨ sign = .leftParen ∨ sign = .leftBracket →
      (nth tokens i).kind ≠ .sign sign) : StopsAt tokens tier i :=
  ⟨hoperator, fun h => hsigns _ (.inr (.inl rfl)) h.1, hsigns _ (.inl rfl),
    fun h => hsigns _ (.inr (.inr rfl)) h.1⟩

theorem stopsAt_operator {op : BinaryOp} {tier i : Nat}
    (hop : BinaryOp.ofToken? (nth tokens i).kind = some op) (h : tier < op.tier) :
    StopsAt tokens tier i := by
  refine stopsAt_of_kind (fun op' hop' => ?_) (fun sign hsign hkind => ?_)
  · rw [hop] at hop'
    cases hop'
    exact h
  · rw [hkind] at hop
    rcases hsign with rfl | rfl | rfl <;> cases hop

theorem stopsAt_equal {tier i : Nat} (h : (nth tokens i).kind = .sign .equal) :
    StopsAt tokens tier i := by
  refine stopsAt_of_kind (fun op hop => ?_) (fun sign hsign hkind => ?_)
  · rw [h] at hop
    cases hop
  · rw [h] at hkind
    cases hkind
    rcases hsign with hsign | hsign | hsign <;> cases hsign

/-- The signs behind an expression that are not part of it. -/
theorem cannotExtend_sign {sign : Sign} {i : Nat} (hkind : (nth tokens i).kind = .sign sign)
    (h : sign = .comma ∨ sign = .rightParen ∨ sign = .rightBracket) : CannotExtend tokens i := by
  constructor
  · rw [hkind]
    rcases h with rfl | rfl | rfl <;> rfl
  · rw [hkind]
    rcases h with rfl | rfl | rfl <;> simp
  · rw [hkind]
    rcases h with rfl | rfl | rfl <;> simp
  · rw [hkind]
    rcases h with rfl | rfl | rfl <;> rintro (hbracket | hbracket) <;> cases hbracket

end Expr

namespace Parser

open Lipi.Expr (Same Spells SpellsList SpellsMore AllNormal StopsAt CannotExtend eraseAll)

variable {α β : Type} {s : Stream}

/-! ## Readings from one numbered token to another -/

/-- The reader succeeds at the `i`-th token with a result that satisfies `P`, and only moves the
cursor, to the `j`-th token. -/
def RunsAt (s : Stream) (i : Nat) (x : Parser α) (j : Nat) (P : α → Prop) : Prop :=
  ∃ a, x (s.goto i) = .ok a (s.goto j) ∧ P a

section
variable {i j : Nat} {x y : Parser α} {P Q : α → Prop}

theorem RunsAt.mono (h : RunsAt s i x j P) (hPQ : ∀ a, P a → Q a) : RunsAt s i x j Q := by
  obtain ⟨a, hrun, ha⟩ := h
  exact ⟨a, hrun, hPQ a ha⟩

theorem RunsAt.congr (h : RunsAt s i y j P) (heq : x (s.goto i) = y (s.goto i)) :
    RunsAt s i x j P := by
  obtain ⟨a, hrun, ha⟩ := h
  exact ⟨a, heq.trans hrun, ha⟩

theorem RunsAt.bind {f : α → Parser β} {m : Nat} {R : β → Prop} (h : RunsAt s i x m P)
    (hf : ∀ a, P a → RunsAt s m (f a) j R) : RunsAt s i (x >>= f) j R := by
  obtain ⟨a, hrun, ha⟩ := h
  obtain ⟨b, hrest, hb⟩ := hf a ha
  refine ⟨b, ?_, hb⟩
  rw [bind_of_ok hrun, hrest]

theorem runsAt_pure {a : α} (h : P a) : RunsAt s i (pure a) i P :=
  ⟨a, rfl, h⟩

/-- A stream gives as many steps as it has tokens left, and a few more. -/
theorem runsAt_bounded {reader : Nat → Parser α}
    (h : ∀ n, s.tokens.size ≤ i + n → RunsAt s i (reader n) j P) :
    RunsAt s i (bounded reader) j P := by
  refine (h (s.goto i).bound ?_).congr rfl
  show s.tokens.size ≤ i + (s.tokens.size - i + 4)
  omega

end

section
variable {i : Nat} (hs : s.Ended)

include hs

theorem runsAt_advance (hkind : (nth s.tokens i).kind ≠ .eof) :
    RunsAt s i advance (i + 1) fun _ => True :=
  ⟨_, congrArg (EStateM.Result.ok _) (hs.advance hkind).2, trivial⟩

theorem runsAt_consume_sign {sign : Sign} (hkind : (nth s.tokens i).kind = .sign sign)
    (expectation : String) :
    RunsAt s i (consume (.sign sign) expectation) (i + 1) fun _ => True := by
  have hcheck : (s.goto i).check (.sign sign) = true :=
    (Stream.check_sign _ _).mpr ((hs.kind i).trans hkind)
  refine ⟨(s.goto i).peek, ?_, trivial⟩
  rw [consume, if_pos hcheck, (hs.advance (hkind.trans_ne (by simp))).2]

theorem runsAt_accept_sign {sign : Sign} (hkind : (nth s.tokens i).kind = .sign sign) :
    RunsAt s i (accept (.sign sign)) (i + 1) (· = true) := by
  have hcheck : (s.goto i).check (.sign sign) = true :=
    (Stream.check_sign _ _).mpr ((hs.kind i).trans hkind)
  refine ⟨true, ?_, rfl⟩
  rw [accept, if_pos hcheck, (hs.advance (hkind.trans_ne (by simp))).2]

theorem runsAt_accept_sign_not {sign : Sign} (hkind : (nth s.tokens i).kind ≠ .sign sign) :
    RunsAt s i (accept (.sign sign)) i (· = false) := by
  refine ⟨false, ?_, rfl⟩
  rw [accept, if_neg]
  intro hcheck
  exact hkind ((hs.kind i).symm.trans ((Stream.check_sign _ _).mp hcheck))

theorem runsAt_identifier {name : String} (hkind : (nth s.tokens i).kind = .identifier name)
    (expectation : String) :
    RunsAt s i (identifier expectation) (i + 1) (· = name) := by
  refine ⟨name, ?_, rfl⟩
  have hkind' : (s.goto i).kind = .identifier name := (hs.kind i).trans hkind
  rw [identifier, hkind', (hs.advance (hkind.trans_ne (by simp))).2]

theorem runsAt_memberName (hword : (nth s.tokens i).isWord = true) (expectation : String) :
    RunsAt s i (memberName expectation) (i + 1) (· = (nth s.tokens i).lexeme) := by
  have hkind : (nth s.tokens i).kind ≠ .eof := by
    intro heof
    simp [Token.isWord, heof] at hword
  obtain ⟨hpeek, hadvance⟩ := hs.advance hkind
  refine ⟨_, ?_, rfl⟩
  rw [memberName, hpeek, if_pos hword, hadvance]

/-! ## Lists -/

/-- The reader for nested expressions reads all spellings that start behind the `b`-th token. -/
def ReadsBehind (s : Stream) (nested : Parser Expr) (b : Nat) : Prop :=
  ∀ e i j, b < i → Spells s.tokens e i j → e.Normal → CannotExtend s.tokens j →
    RunsAt s i nested j (Same e)

omit hs in
/-- What stands behind an element of a list does not extend it. -/
theorem cannotExtend_more {closing : Sign} (hclosing : closing = .rightParen ∨ closing = .rightBracket)
    {es : List Expr} {j : Nat} (h : SpellsMore s.tokens closing es i j) :
    CannotExtend s.tokens i := by
  cases es with
  | nil => exact Expr.cannotExtend_sign h.1 (.inr hclosing)
  | cons e es => exact Expr.cannotExtend_sign h.1 (.inl rfl)

variable {nested : Parser Expr} {b : Nat} (hnested : ReadsBehind s nested b)

include hnested

theorem runsAt_items {closing : Sign} (hclosing : closing = .rightParen ∨ closing = .rightBracket)
    (context : String) {n j : Nat} {e : Expr} {es : List Expr} (hb : b < i)
    (hspells : SpellsList s.tokens closing (e :: es) i j) (hnormal : AllNormal (e :: es))
    (hn : s.tokens.size ≤ i + n) (previous : List Expr) :
    RunsAt s i (items nested closing context n previous) j fun es' =>
      ∃ zs, es' = previous.reverse ++ zs ∧ eraseAll zs = eraseAll (e :: es) := by
  induction es generalizing i e n previous with
  | nil =>
      obtain ⟨m, he, hclose, rfl⟩ := hspells
      have hbounds := he.bounds hs
      obtain ⟨n, rfl⟩ : ∃ n', n = n' + 1 := ⟨n - 1, by omega⟩
      have hmore : SpellsMore s.tokens closing [] m (m + 1) := ⟨hclose, rfl⟩
      refine (hnested e i m hb he hnormal.1 (cannotExtend_more hclosing hmore)).bind
        fun e' he' => ?_
      refine (runsAt_accept_sign_not hs
        (by rw [hclose]; rcases hclosing with rfl | rfl <;> simp)).bind ?_
      rintro _ rfl
      refine (runsAt_consume_sign hs hclose _).bind fun _ _ => runsAt_pure ⟨[e'], by simp, ?_⟩
      show [e'.erase] = [e.erase]
      rw [he']
  | cons e₂ es ih =>
      obtain ⟨m, he, hmore⟩ := hspells
      have hbounds := he.bounds hs
      obtain ⟨n, rfl⟩ : ∃ n', n = n' + 1 := ⟨n - 1, by omega⟩
      -- a comma cannot extend the expression in front of it
      refine (hnested e i m hb he hnormal.1 (cannotExtend_more hclosing hmore)).bind fun e' he' => ?_
      obtain ⟨hcomma, hrest⟩ := hmore
      refine (runsAt_accept_sign hs hcomma).bind ?_
      rintro _ rfl
      refine (ih (by omega) hrest hnormal.2 (by omega) (e' :: previous)).mono ?_
      rintro es' ⟨zs, rfl, hzs⟩
      refine ⟨e' :: zs, by simp, ?_⟩
      show e'.erase :: eraseAll zs = e.erase :: eraseAll (e₂ :: es)
      rw [he', hzs]

theorem runsAt_commaSeparated {closing : Sign}
    (hclosing : closing = .rightParen ∨ closing = .rightBracket) (context : String) {j : Nat}
    {es : List Expr} (hb : b < i) (hspells : SpellsList s.tokens closing es i j)
    (hnormal : AllNormal es) :
    RunsAt s i (commaSeparated nested closing context) j fun es' => eraseAll es' = eraseAll es := by
  cases es with
  | nil =>
      obtain ⟨hclose, rfl⟩ := hspells
      refine (runsAt_accept_sign hs hclose).bind ?_
      rintro _ rfl
      exact runsAt_pure rfl
  | cons e es =>
      -- no expression starts with a closing bracket, so the list is not taken for an empty one
      have hfirst : (nth s.tokens i).kind ≠ .sign closing := by
        obtain ⟨m, he, -⟩ := hspells
        intro hkind
        have hopens := he.first
        rw [hkind] at hopens
        rcases hclosing with rfl | rfl <;> cases hopens
      refine (runsAt_accept_sign_not hs hfirst).bind ?_
      rintro _ rfl
      rw [if_neg Bool.false_ne_true]
      refine runsAt_bounded fun n hn => ?_
      refine (runsAt_items hs hnested hclosing context hb hspells hnormal hn []).mono ?_
      rintro es' ⟨zs, rfl, hzs⟩
      exact hzs

/-! ## Loops -/

omit hs hnested in
/-- The reader arrives at the loop with `e` in its hands, at the `j`-th token and with enough rounds
left for the tokens behind it. -/
def ArrivesAt (s : Stream) (i : Nat) (x : Parser Expr) (loop : Nat → Expr → Parser Expr) (e : Expr)
    (j : Nat) : Prop :=
  ∃ e' k, x (s.goto i) = loop k e' (s.goto j) ∧ Same e e' ∧ s.tokens.size < j + k

section Loop

variable {x : Parser Expr} {loop : Nat → Expr → Parser Expr} {e f : Expr} {j m : Nat}

omit hs hnested in
/-- One more round. -/
theorem ArrivesAt.step (h : ArrivesAt s i x loop e m) (hm : m < s.tokens.size) (hlt : m < j)
    (hround : ∀ k e', Same e e' →
      ∃ f', loop (k + 1) e' (s.goto m) = loop k f' (s.goto j) ∧ Same f f') :
    ArrivesAt s i x loop f j := by
  obtain ⟨e', k, hrun, he', hk⟩ := h
  obtain ⟨k, rfl⟩ : ∃ k', k = k' + 1 := ⟨k - 1, by omega⟩
  obtain ⟨f', hrun', hf'⟩ := hround k e' he'
  exact ⟨f', k, hrun.trans hrun', hf', by omega⟩

omit hs hnested in
/-- The loop ends. -/
theorem ArrivesAt.runsAt (h : ArrivesAt s i x loop e j) (hj : j < s.tokens.size)
    (hend : ∀ k e', loop (k + 1) e' (s.goto j) = .ok e' (s.goto j)) :
    RunsAt s i x j (Same e) := by
  obtain ⟨e', k, hrun, he', hk⟩ := h
  obtain ⟨k, rfl⟩ : ∃ k', k = k' + 1 := ⟨k - 1, by omega⟩
  exact ⟨e', hrun.trans (hend k e'), he'⟩

omit hs hnested in
/-- The loop starts where another reader stops. -/
theorem RunsAt.arrivesAt {y : Parser Expr} (h : RunsAt s i y j (Same e))
    (hstart : x (s.goto i) = (y >>= fun e => bounded fun n => loop n e) (s.goto i)) :
    ArrivesAt s i x loop e j := by
  obtain ⟨e', hrun, he'⟩ := h
  refine ⟨e', (s.goto j).bound, ?_, he', ?_⟩
  · rw [hstart, bind_of_ok hrun]
    rfl
  · show s.tokens.size < j + (s.tokens.size - j + 4)
    omega

end Loop

/-! ## Primary expressions -/

omit hs hnested in
theorem ofToken?_of_expr? {t : Token} {e : Expr} (h : t.expr? = some e) :
    UnaryOp.ofToken? t.kind = none := by
  unfold UnaryOp.ofToken?
  split
  · next hkind => simp [Token.expr?, literal?, hkind] at h
  · next hkind => simp [Token.expr?, literal?, hkind] at h
  · next hkind => simp [Token.expr?, literal?, hkind] at h
  · rfl

omit hnested in
/-- A primary expression that has been read is in the hands of the loop of calls and members. -/
theorem arrivesAt_of_primary {e : Expr} {j n : Nat} (h : RunsAt s i (primary nested) j (Same e))
    (hop : UnaryOp.ofToken? (nth s.tokens i).kind = none) :
    ArrivesAt s i (unary nested (n + 1)) (continuation nested) e j := by
  rcases unary_round n (s.goto i) with ⟨op, hsome, -⟩ | ⟨-, hrun⟩
  · rw [hs.kind, hop] at hsome
    cases hsome
  · exact h.arrivesAt (hrun nested)

omit hnested in
theorem token_arrivesAt {e e' : Expr} {n : Nat} (h : (nth s.tokens i).expr? = some e')
    (he : Same e e') :
    ArrivesAt s i (unary nested (n + 1)) (continuation nested) e (i + 1) := by
  have hkind : (nth s.tokens i).kind ≠ .eof := by
    intro heof
    simp [Token.expr?, literal?, heof] at h
  obtain ⟨hpeek, hadvance⟩ := hs.advance hkind
  refine arrivesAt_of_primary hs ⟨e', ?_, he⟩ (ofToken?_of_expr? h)
  rw [primary_of_expr? (by rw [hpeek]; exact h), hadvance]

theorem runsAt_arrayLiteral {es : List Expr} {pos : Position} {j : Nat} (hb : b ≤ i)
    (hspells : Spells s.tokens (.array es pos) i j) (hnormal : AllNormal es) :
    RunsAt s i (arrayLiteral nested) j (Same (.array es pos)) := by
  obtain ⟨hkind, hes⟩ := hspells
  refine (runsAt_advance hs (by simp [hkind])).bind fun start _ => ?_
  refine (runsAt_commaSeparated hs hnested (.inr rfl) _ (by omega) hes hnormal).bind
    fun es' hes' => runsAt_pure ?_
  show Expr.array (eraseAll es') _ = Expr.array (eraseAll es) _
  rw [hes']

theorem runsAt_newInstance {className : String} {es : List Expr} {pos : Position} {j : Nat}
    (hb : b ≤ i) (hspells : Spells s.tokens (.new className es pos) i j) (hnormal : AllNormal es) :
    RunsAt s i (newInstance nested) j (Same (.new className es pos)) := by
  obtain ⟨hkind, hname, hrest⟩ := hspells
  refine (runsAt_advance hs (by simp [hkind])).bind fun start _ => ?_
  refine (runsAt_identifier hs hname _).bind ?_
  rintro _ rfl
  rcases hrest with ⟨hparen, hes⟩ | ⟨hparen, rfl, rfl⟩
  · refine (runsAt_accept_sign hs hparen).bind ?_
    rintro _ rfl
    refine (runsAt_commaSeparated hs hnested (.inl rfl) _ (by omega) hes hnormal).bind
      fun es' hes' => runsAt_pure ?_
    show Expr.new _ (eraseAll es') _ = Expr.new _ (eraseAll es) _
    rw [hes']
  · refine (runsAt_accept_sign_not hs hparen).bind ?_
    rintro _ rfl
    exact runsAt_pure rfl

theorem runsAt_groupedExpr {inner : Expr} {pos : Position} {j : Nat} (hb : b ≤ i)
    (hspells : Spells s.tokens (.grouping inner pos) i j) (hnormal : inner.Normal) :
    RunsAt s i (groupedExpr nested) j (Same (.grouping inner pos)) := by
  obtain ⟨hkind, m, hinner, hclose, rfl⟩ := hspells
  have hstops := Expr.cannotExtend_sign hclose (.inr (.inl rfl))
  refine (runsAt_advance hs (by simp [hkind])).bind fun start _ => ?_
  refine (hnested inner _ _ (by omega) hinner hnormal hstops).bind fun inner' hinner' => ?_
  refine (runsAt_consume_sign hs hclose _).bind fun _ _ => runsAt_pure ?_
  show Expr.grouping inner'.erase _ = Expr.grouping inner.erase _
  rw [hinner']

/-! ## Calls and members

One round of the loop of calls and members, behind an expression. -/

section Continuation

variable {e : Expr} {pos : Position} {j m k : Nat}

theorem continuation_call {callee : Expr} {es : List Expr} (hb : b ≤ m)
    (hopens : Opens s.tokens .leftParen m)
    (hes : SpellsList s.tokens .rightParen es (m + 1) j) (hnormal : AllNormal es)
    (he : Same callee e) :
    ∃ e', continuation nested (k + 1) e (s.goto m) = continuation nested k e' (s.goto j) ∧
      Same (.call callee es pos) e' := by
  obtain ⟨es', hrun, hes'⟩ :=
    runsAt_commaSeparated hs hnested (.inl rfl) "arguments" (by omega) hes hnormal
  have hkind : (s.goto m).kind = .sign .leftParen := (hs.kind m).trans hopens.1
  have hline : (s.goto m).atLineBreak = false := ((hs.atBracket _ m).mpr hopens).2
  have hadvance := (hs.advance (hopens.1.trans_ne (by simp))).2
  refine ⟨.call e es' (s.goto m).position, ?_, ?_⟩
  · simp only [continuation, hkind, hline, hadvance, hrun]
    rfl
  · show Expr.call e.erase (eraseAll es') _ = Expr.call callee.erase (eraseAll es) _
    rw [he, hes']

omit hnested in
theorem continuation_member {object : Expr} {name : String}
    (hdot : (nth s.tokens m).kind = .sign .dot) (hword : (nth s.tokens (m + 1)).isWord = true)
    (hname : (nth s.tokens (m + 1)).lexeme = name) (he : Same object e) :
    ∃ e', continuation nested (k + 1) e (s.goto m) = continuation nested k e' (s.goto (m + 2)) ∧
      Same (.member object name pos) e' := by
  obtain ⟨name', hrun, rfl⟩ := runsAt_memberName hs hword "Expected property name after '.'"
  have hkind : (s.goto m).kind = .sign .dot := (hs.kind m).trans hdot
  have hadvance := (hs.advance (hdot.trans_ne (by simp))).2
  refine ⟨.member e (nth s.tokens (m + 1)).lexeme (s.goto m).position, ?_, ?_⟩
  · simp only [continuation, hkind, hadvance, hrun]
  · show Expr.member e.erase _ _ = Expr.member object.erase name _
    rw [he, hname]

theorem continuation_index {object key : Expr} (hb : b ≤ m)
    (hopens : Opens s.tokens .leftBracket m) (hkey : Spells s.tokens key (m + 1) j)
    (hclose : (nth s.tokens j).kind = .sign .rightBracket) (hnormal : key.Normal)
    (he : Same object e) :
    ∃ e', continuation nested (k + 1) e (s.goto m) = continuation nested k e' (s.goto (j + 1)) ∧
      Same (.index object key pos) e' := by
  have hstops := Expr.cannotExtend_sign hclose (.inr (.inr rfl))
  obtain ⟨key', hrun, hkey'⟩ := hnested key _ _ (by omega) hkey hnormal hstops
  obtain ⟨_, hrun', -⟩ := runsAt_consume_sign hs hclose "Expected ']' after index"
  have hkind : (s.goto m).kind = .sign .leftBracket := (hs.kind m).trans hopens.1
  have hline : (s.goto m).atLineBreak = false := ((hs.atBracket _ m).mpr hopens).2
  have hadvance := (hs.advance (hopens.1.trans_ne (by simp))).2
  refine ⟨.index e key' (s.goto m).position, ?_, ?_⟩
  · simp only [continuation, hkind, hline, hadvance, hrun, hrun']
    rfl
  · show Expr.index e.erase key'.erase _ = Expr.index object.erase key.erase _
    rw [he, hkey']

end Continuation

/-- **Reading an expression without operators arrives at the loop of calls and members.** What is
called or has a member taken stands on the left edge and is read first; one round of the loop takes
the rest. -/
theorem unary_arrivesAt (n : Nat) (hb : b ≤ i) :
    (e : Expr) → (j : Nat) → Spells s.tokens e i j → e.Normal → e.level = 0 →
      ArrivesAt s i (unary nested (n + 1)) (continuation nested) e j
  | .literal value pos, _, ⟨hvalue, rfl⟩, _, _ => by
      have hexpr : (nth s.tokens i).expr? = some (.literal value (nth s.tokens i).position) := by
        simp only [Token.expr?, hvalue]
      exact token_arrivesAt hs hexpr rfl
  | .identifier name pos, _, ⟨hkind, rfl⟩, _, _ => by
      have hexpr : (nth s.tokens i).expr? = some (.identifier name (nth s.tokens i).position) := by
        simp only [Token.expr?, hkind, literal?]
      exact token_arrivesAt hs hexpr rfl
  | .receiver pos, _, ⟨hkind, rfl⟩, _, _ => by
      have hexpr : (nth s.tokens i).expr? = some (.receiver (nth s.tokens i).position) := by
        simp only [Token.expr?, hkind, literal?]
      exact token_arrivesAt hs hexpr rfl
  | .super pos, _, ⟨hkind, rfl⟩, _, _ => by
      have hexpr : (nth s.tokens i).expr? = some (.super (nth s.tokens i).position) := by
        simp only [Token.expr?, hkind, literal?]
      exact token_arrivesAt hs hexpr rfl
  -- what starts with a bracket or a word of its own has a reader of its own
  | .array es pos, j, hspells, hnormal, _ => by
      have hkind := hspells.1
      have hchoice : primary nested (s.goto i) = arrayLiteral nested (s.goto i) := by
        simp only [primary, hs.kind, hkind, literal?]
      have hrun := runsAt_arrayLiteral hs hnested hb hspells hnormal
      exact arrivesAt_of_primary hs (hrun.congr hchoice) (by rw [hkind]; rfl)
  | .new className es pos, j, hspells, hnormal, _ => by
      have hkind := hspells.1
      have hchoice : primary nested (s.goto i) = newInstance nested (s.goto i) := by
        simp only [primary, hs.kind, hkind, literal?]
      have hrun := runsAt_newInstance hs hnested hb hspells hnormal
      exact arrivesAt_of_primary hs (hrun.congr hchoice) (by rw [hkind]; rfl)
  | .grouping inner pos, _, hspells, hnormal, _ => by
      have hkind := hspells.1
      have hchoice : primary nested (s.goto i) = groupedExpr nested (s.goto i) := by
        simp only [primary, hs.kind, hkind, literal?]
      have hrun := runsAt_groupedExpr hs hnested hb hspells hnormal
      exact arrivesAt_of_primary hs (hrun.congr hchoice) (by rw [hkind]; rfl)
  -- the loop arrives behind the callee first; arguments, members and keys are one more round
  | .call callee es pos, j, ⟨m, hcallee, hopens, hes⟩, ⟨⟨hlevel, hnormal⟩, hall⟩, _ => by
      have hbounds := hcallee.bounds hs
      have hlt := hes.bounds hs
      refine (unary_arrivesAt n hb callee m hcallee hnormal hlevel).step hbounds.2 (by omega) ?_
      exact fun k e' he' => continuation_call hs hnested (by omega) hopens hes hall he'
  | .member object name pos, _, ⟨m, hobject, hdot, hword, hname, rfl⟩, ⟨hlevel, hnormal⟩, _ => by
      have hbounds := hobject.bounds hs
      refine (unary_arrivesAt n hb object m hobject hnormal hlevel).step hbounds.2 (by omega) ?_
      exact fun k e' he' => continuation_member hs hdot hword hname he'
  | .index object key pos, _, ⟨m, m', hobject, hopens, hkey, hclose, rfl⟩,
      ⟨⟨hlevel, hnormal⟩, hnormal'⟩, _ => by
      have hbounds := hobject.bounds hs
      have hlt := hkey.bounds hs
      refine (unary_arrivesAt n hb object m hobject hnormal hlevel).step hbounds.2 (by omega) ?_
      exact fun k e' he' => continuation_index hs hnested (by omega) hopens hkey hclose hnormal' he'

/-! ## Operators -/

omit hnested in
/-- The loop of calls and members ends where nothing goes on with the expression. -/
theorem continuation_stopsAt {tier j : Nat} (h : StopsAt s.tokens tier j) (k : Nat) (e : Expr) :
    continuation nested (k + 1) e (s.goto j) = .ok e (s.goto j) := by
  rcases continuation_round k e (s.goto j) with
    ⟨hopens, -⟩ | ⟨hdot, -⟩ | ⟨hopens, -⟩ | ⟨-, hrun⟩
  · exact absurd ((hs.atBracket _ j).mp hopens) h.call
  · exact absurd ((hs.kind j).symm.trans hdot) h.member
  · exact absurd ((hs.atBracket _ j).mp hopens) h.index
  · exact hrun nested

/-- An expression without binary operators is read. -/
theorem runsAt_unary {n j : Nat} {e : Expr} (hb : b ≤ i) (hspells : Spells s.tokens e i j)
    (hnormal : e.Normal) (hlevel : e.level ≤ 1) (hstops : StopsAt s.tokens 0 j)
    (hn : s.tokens.size ≤ i + n) : RunsAt s i (unary nested n) j (Same e) := by
  induction n generalizing i e with
  | zero =>
      have hbounds := hspells.bounds hs
      omega
  | succ n ih =>
      by_cases hzero : e.level = 0
      · refine (unary_arrivesAt hs hnested n hb e j hspells hnormal hzero).runsAt
          (hspells.bounds hs).2 ?_
        exact fun k e' => continuation_stopsAt hs hstops k e'
      -- the only other expressions of this level are unary operators with their operands
      · obtain ⟨op, operand, pos, rfl⟩ : ∃ op operand pos, e = .unary op operand pos := by
          cases e with
          | unary op operand pos => exact ⟨op, operand, pos, rfl⟩
          | binary op left right pos =>
              have htier := Expr.tier_pos op
              rw [Expr.level] at hlevel
              omega
          | assign target value pos => simp [Expr.level] at hlevel
          | _ => simp [Expr.level] at hzero
        obtain ⟨hop, hoperand⟩ := hspells
        rcases unary_round n (s.goto i) with ⟨op', hop', hrun⟩ | ⟨hnone, -⟩
        · rw [hs.kind, hop] at hop'
          cases hop'
          refine .congr ((runsAt_advance hs fun heof => ?_).bind fun start _ => ?_) (hrun nested)
          · rw [heof] at hop
            cases hop
          · refine (ih (by omega) hoperand hnormal.2 hnormal.1 (by omega)).bind
              fun operand' h => runsAt_pure ?_
            show Expr.unary _ operand'.erase _ = Expr.unary _ operand.erase _
            rw [h]
        · rw [hs.kind, hop] at hnone
          cases hnone

omit hnested in
/-- The loop of operators ends where no operator of its tier follows. -/
theorem operations_stopsAt {tier j : Nat} {operand : Parser Expr} (h : StopsAt s.tokens tier j)
    (k : Nat) (e : Expr) : operations tier operand (k + 1) e (s.goto j) = .ok e (s.goto j) := by
  rcases operations_round tier k e (s.goto j) with ⟨op, hop, htier, -⟩ | ⟨-, hrun⟩
  · rw [hs.kind] at hop
    have hlt := h.operator op hop
    omega
  · exact hrun operand

omit hnested in
/-- **Reading an expression arrives at the loop of the operators of a tier**, if the operators of the
tiers below are read. -/
theorem tiered_arrivesAt {tier : Nat} (htier : tier + 1 ≤ 6)
    (hlower : ∀ (e : Expr) i j, b ≤ i → Spells s.tokens e i j → e.Normal → e.level ≤ tier + 1 →
      StopsAt s.tokens tier j → RunsAt s i (tiered nested tier) j (Same e))
    (hb : b ≤ i) :
    (e : Expr) → (j : Nat) → Spells s.tokens e i j → e.Normal → e.level ≤ tier + 2 →
      StopsAt s.tokens tier j →
      ArrivesAt s i (tiered nested (tier + 1)) (operations (tier + 1) (tiered nested tier)) e j
  | e, j, hspells, hnormal, hlevel, hstops => by
      -- operators of one tier nest to the left: either the whole is an operand of the loop, or it is
      -- an operator whose left operand the loop has taken before
      by_cases hlow : e.level ≤ tier + 1
      · refine (hlower e i j hb hspells hnormal hlow hstops).arrivesAt ?_
        rw [tiered_succ]
      · match e, hspells, hnormal with
        | .binary op left right pos, ⟨m, hleft, hop, hright⟩,
            ⟨⟨hleftLevel, hleftNormal⟩, hrightLevel, hrightNormal⟩ =>
            rw [Expr.level] at hlevel hlow
            have hopTier : op.tier = tier + 1 := by omega
            have hbounds := hleft.bounds hs
            have hlt := hright.bounds hs
            refine (tiered_arrivesAt htier hlower hb left m hleft hleftNormal (by omega)
              (Expr.stopsAt_operator hop (by omega))).step hbounds.2 (by omega) ?_
            intro k e' he'
            obtain ⟨right', hrun, hright'⟩ :=
              hlower right (m + 1) j (by omega) hright hrightNormal (by omega) hstops
            have hkind : BinaryOp.ofToken? (s.goto m).kind = some op := by
              rw [hs.kind]
              exact hop
            have hadvance : (s.goto m).advance = s.goto (m + 1) := by
              refine (hs.advance fun heof => ?_).2
              rw [heof] at hop
              cases hop
            refine ⟨.binary op e' right' (s.goto m).position, ?_, ?_⟩
            · simp only [operations, hkind, hopTier, hadvance, hrun]
              rfl
            · show Expr.binary _ e'.erase right'.erase _ = Expr.binary _ left.erase right.erase _
              rw [he', hright']
        | .unary .., _, _ =>
            rw [Expr.level] at hlow
            omega
        | .assign .., _, _ =>
            rw [Expr.level] at hlevel
            omega
        | .literal .., _, _ | .identifier .., _, _ | .call .., _, _ | .member .., _, _
        | .index .., _, _ | .array .., _, _ | .receiver .., _, _ | .super .., _, _
        | .new .., _, _ | .grouping .., _, _ =>
            simp [Expr.level] at hlow

/-- An expression without assignments is read by the reader of its tier. -/
theorem runsAt_tiered {tier : Nat} (htier : tier ≤ 6) (e : Expr) (i j : Nat) (hb : b ≤ i)
    (hspells : Spells s.tokens e i j) (hnormal : e.Normal) (hlevel : e.level ≤ tier + 1)
    (hstops : StopsAt s.tokens tier j) : RunsAt s i (tiered nested tier) j (Same e) := by
  induction tier generalizing e i j with
  | zero =>
      exact runsAt_bounded fun n hn =>
        runsAt_unary hs hnested hb hspells hnormal hlevel hstops hn
  | succ tier ih =>
      have hlower := hstops.mono (Nat.le_succ tier)
      refine (tiered_arrivesAt hs htier ?_ hb e j hspells hnormal hlevel hlower).runsAt
        (hspells.bounds hs).2 ?_
      · exact fun e i j => ih (by omega) e i j
      · exact fun k e' => operations_stopsAt hs hstops k e'

/-! ## Assignments and whole expressions -/

theorem runsAt_assignments {n j : Nat} {e : Expr} (hb : b ≤ i) (hspells : Spells s.tokens e i j)
    (hnormal : e.Normal) (hstops : CannotExtend s.tokens j) (hn : s.tokens.size ≤ i + n) :
    RunsAt s i (assignments nested n) j (Same e) := by
  obtain ⟨hstops₆, hequal⟩ := Expr.cannotExtend_iff.mp hstops
  induction n generalizing i e with
  | zero =>
      have hbounds := hspells.bounds hs
      omega
  | succ n ih =>
      rw [assignments_succ]
      by_cases hlevel : e.level ≤ 7
      · refine (runsAt_tiered hs hnested (Nat.le_refl 6) e i j hb hspells hnormal hlevel hstops₆).bind
          fun e' he' => ?_
        rcases assignedTo_round n e' (s.goto j) with ⟨hkind, -⟩ | ⟨-, hrun⟩
        · exact absurd ((hs.kind j).symm.trans hkind) hequal
        · exact ⟨e', hrun nested, he'⟩
      -- assignments nest to the right: there is none in the target, and the value is shorter
      · obtain ⟨target, value, pos, rfl⟩ : ∃ target value pos, e = .assign target value pos := by
          cases e with
          | assign target value pos => exact ⟨target, value, pos, rfl⟩
          | binary op left right pos =>
              have htier := Expr.tier_pos op
              rw [Expr.level] at hlevel
              omega
          | _ => simp [Expr.level] at hlevel
        obtain ⟨m, htarget, hkind, hvalue⟩ := hspells
        obtain ⟨⟨hlevel', hnormal'⟩, hnormal''⟩ := hnormal
        have hbounds := htarget.bounds hs
        refine (runsAt_tiered hs hnested (Nat.le_refl 6) target i m hb htarget hnormal' hlevel'
          (Expr.stopsAt_equal hkind)).bind fun target' htarget' => ?_
        rcases assignedTo_round n target' (s.goto m) with ⟨-, hrun⟩ | ⟨hne, -⟩
        · refine .congr ((runsAt_advance hs (by simp [hkind])).bind fun start _ => ?_)
            (hrun nested)
          refine (ih (by omega) hvalue hnormal'' (by omega)).bind fun value' hvalue' => runsAt_pure ?_
          show Expr.assign target'.erase value'.erase _ = Expr.assign target.erase value.erase _
          rw [htarget', hvalue']
        · exact absurd ((hs.kind m).trans hkind) hne

end

/-- The bound on the nesting is enough where it is no less than what is left: a nested expression has
a token in front of it. -/
theorem runsAt_expressionWithin (hs : s.Ended) (n : Nat) {e : Expr} {i j : Nat}
    (hspells : Spells s.tokens e i j) (hnormal : e.Normal) (hstops : CannotExtend s.tokens j)
    (hn : s.tokens.size ≤ i + n) : RunsAt s i (expressionWithin n) j (Same e) := by
  induction n generalizing e i j with
  | zero =>
      have hbounds := hspells.bounds hs
      omega
  | succ n ih =>
      have hnested : ReadsBehind s (expressionWithin n) i :=
        fun e' i' j' hlt hspells' hnormal' hstops' =>
          ih hspells' hnormal' hstops' (by omega)
      refine runsAt_bounded fun m hm => ?_
      exact runsAt_assignments hs hnested (Nat.le_refl i) hspells hnormal hstops hm

/-- **An expression in the grammar is read.** -/
theorem expression_of_spells (hs : s.Ended) {e : Expr} {i j : Nat} (hspells : Spells s.tokens e i j)
    (hnormal : e.Normal) (hstops : CannotExtend s.tokens j) :
    RunsAt s i expression j (Same e) :=
  runsAt_bounded fun n hn => runsAt_expressionWithin hs n hspells hnormal hstops hn

/-- **The reader of expressions accepts exactly the grammar.** If it gives a tree, the tokens that it
has taken spell the tree, the tree is in normal form, and the token behind it cannot extend it; and
where tokens spell a tree in normal form in front of a token that cannot extend it, the reader takes
these tokens and gives that tree, up to positions. -/
theorem expression_iff_grammar (s : Stream) (hs : s.Ended) :
    (∀ e s', expression s = .ok e s' →
      ∃ j, s' = s.goto j ∧ Spells s.tokens e s.cursor j ∧ e.Normal ∧ CannotExtend s.tokens j) ∧
    (∀ e j, Spells s.tokens e s.cursor j → e.Normal → CannotExtend s.tokens j →
      ∃ e', expression s = .ok e' (s.goto j) ∧ Same e e') := by
  constructor
  · intro e s' hrun
    obtain ⟨j, hs', hspells, hnormal, hstops⟩ := expression_parsed hs hrun
    exact ⟨j, hs', hspells, hnormal, hstops⟩
  · intro e j hspells hnormal hstops
    exact expression_of_spells hs hspells hnormal hstops

/-- Two operators of one tier, read from the left. -/
theorem expression_iff_grammar_differences :
    let s := Stream.ofTokens [⟨.identifier "a", "a", ⟨1, 1⟩⟩, ⟨.sign .minus, "-", ⟨1, 3⟩⟩,
      ⟨.identifier "b", "b", ⟨1, 5⟩⟩, ⟨.sign .minus, "-", ⟨1, 7⟩⟩, ⟨.identifier "c", "c", ⟨1, 9⟩⟩,
      ⟨.eof, "", ⟨1, 10⟩⟩]
    let e : Expr := .binary .sub (.binary .sub (.identifier "a" .start) (.identifier "b" .start) .start)
      (.identifier "c" .start) .start
    (s.Ended ∧ Spells s.tokens e 0 5 ∧ e.Normal ∧ CannotExtend s.tokens 5) ∧
      ∃ e', expression s = .ok e' (s.goto 5) ∧ Same e e' := by
  intro s e
  have hs : s.Ended := ⟨_, rfl, rfl⟩
  have hspells : Spells s.tokens e 0 5 :=
    ⟨3, ⟨1, ⟨rfl, rfl⟩, rfl, rfl, rfl⟩, rfl, rfl, rfl⟩
  have hnormal : e.Normal := by
    simp [e, Expr.Normal, Expr.level, BinaryOp.tier]
  have hstops : CannotExtend s.tokens 5 := ⟨rfl, nofun, nofun, by rintro (h | h) <;> cases h⟩
  exact ⟨⟨hs, hspells, hnormal, hstops⟩, (expression_iff_grammar s hs).2 e 5 hspells hnormal hstops⟩

end Parser

end Lipi
