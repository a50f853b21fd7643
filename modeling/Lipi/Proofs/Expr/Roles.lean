import Lipi.Proofs.Expr.Grammar

set_option autoImplicit false

/-! # What the tokens of an expression are there for

In the spelling of an expression most tokens can stand for one thing only. A bracket can open an
operand, the arguments of a call or of a new instance, or the key of an index, and a word can be the
name of a member, whatever it means elsewhere. `Expr.Plays` says **which token plays which role in
the spelling of an expression**; every token that is not plain plays one (`Expr.accounted`), and a
bracket that opens the arguments of a call or a key does not stand at a line break
(`Expr.Plays.fits`).
-/

namespace Lipi

open Token (nth Opens breaksLine)

/-- A sign with which a call or an index goes on, and with which an operand may begin. -/
def TokenKind.IsBracket (kind : TokenKind) : Prop :=
  kind = .sign .leftParen ∨ kind = .sign .leftBracket

theorem TokenKind.IsBracket.ne {kind : TokenKind} (h : kind.IsBracket) :
    (∀ word, kind ≠ .keyword word) ∧ (∀ name, kind ≠ .identifier name) ∧ kind ≠ .eof := by
  rcases h with rfl | rfl <;> simp

/-- What a token is there for, if its kind alone does not say so. -/
inductive Role where
  /-- A bracket with which a grouping, an array or a condition begins. -/
  | operand
  /-- The parenthesis in front of the arguments of a call. -/
  | arguments
  /-- The parenthesis in front of the arguments for a new instance. -/
  | instanceArguments
  /-- The bracket in front of the key of an index. -/
  | key
  /-- The parenthesis in front of the parameters of a function or method. -/
  | parameters
  /-- The name of a property or method. -/
  | name
deriving DecidableEq

/-- The `k`-th token can play the role: it is of the right kind, and a bracket that opens the
arguments of a call or a key goes on with the line in front of it. -/
def Role.Fits (tokens : Array Token) (k : Nat) : Role → Prop
  | operand => (nth tokens k).kind.IsBracket
  | arguments => Opens tokens .leftParen k
  | instanceArguments =>
    (nth tokens k).kind = .sign .leftParen ∧ ∃ i name, k = i + 2 ∧
      (nth tokens i).kind = .keyword .naya ∧ (nth tokens (i + 1)).kind = .identifier name
  | key => Opens tokens .leftBracket k
  | parameters => (nth tokens k).kind = .sign .leftParen
  | name => (nth tokens k).isWord = true ∨ (nth tokens k).kind = .keyword .nirmaan

/-- All roles but one are for brackets. -/
theorem Role.Fits.bracket {tokens : Array Token} {role : Role} {k : Nat}
    (h : role.Fits tokens k) : role = .name ∨ (nth tokens k).kind.IsBracket := by
  cases role with
  | operand => exact .inr h
  | arguments => exact .inr (.inl h.1)
  | instanceArguments => exact .inr (.inl h.1)
  | key => exact .inr (.inr h.1)
  | parameters => exact .inr (.inl h)
  | name => exact .inl rfl

/-- Whether a token of this kind is no opening bracket, no program marker and not the end of the
text. -/
def TokenKind.plain : TokenKind → Bool
  | .sign .leftParen | .sign .leftBracket | .keyword .shuru | .keyword .khatam | .eof => false
  | _ => true

/-! ## Accounts -/

/-- Each of the tokens from the `i`-th up to the `j`-th is plain or plays a role. -/
def Accounted (tokens : Array Token) (plays : Role → Nat → Prop) (i j : Nat) : Prop :=
  ∀ k, i ≤ k → k < j → (nth tokens k).kind.plain = true ∨ ∃ role, plays role k

namespace Accounted

variable {tokens : Array Token} {plays plays' : Role → Nat → Prop} {i m j : Nat}

theorem refl (i : Nat) : Accounted tokens plays i i :=
  fun k hle hlt => absurd hle (by omega)

theorem trans (h : Accounted tokens plays i m) (h' : Accounted tokens plays m j) :
    Accounted tokens plays i j := by
  intro k hle hlt
  by_cases hk : k < m
  · exact h k hle hk
  · exact h' k (by omega) hlt

theorem mono (h : Accounted tokens plays i j) (himp : ∀ role k, plays role k → plays' role k) :
    Accounted tokens plays' i j :=
  fun k hle hlt => (h k hle hlt).imp_right fun ⟨role, hplays⟩ => ⟨role, himp role k hplays⟩

theorem plain (h : (nth tokens i).kind.plain = true) : Accounted tokens plays i (i + 1) := by
  intro k hle hlt
  obtain rfl : k = i := by omega
  exact .inl h

theorem of_kind {kind : TokenKind} (h : (nth tokens i).kind = kind) (hplain : kind.plain = true) :
    Accounted tokens plays i (i + 1) :=
  .plain (by rw [h]; exact hplain)

theorem of_role (role : Role) (h : plays role i) : Accounted tokens plays i (i + 1) := by
  intro k hle hlt
  obtain rfl : k = i := by omega
  exact .inr ⟨role, h⟩

end Accounted

namespace TokenKind

theorem plain_of_binary {kind : TokenKind} {op : BinaryOp} (h : BinaryOp.ofToken? kind = some op) :
    kind.plain = true := by
  unfold BinaryOp.ofToken? at h
  split at h <;> first | rfl | cases h

theorem plain_of_unary {kind : TokenKind} {op : UnaryOp} (h : UnaryOp.ofToken? kind = some op) :
    kind.plain = true := by
  unfold UnaryOp.ofToken? at h
  split at h <;> first | rfl | cases h

theorem plain_of_literal {kind : TokenKind} {value : Literal}
    (h : Parser.literal? kind = some value) : kind.plain = true := by
  unfold Parser.literal? at h
  split at h <;> first | rfl | cases h

end TokenKind

namespace Expr

/-! ## Where a spelling ends -/

mutual

/-- The tree and the first token determine the end of a spelling. -/
theorem Spells.unique {tokens : Array Token} : (e : Expr) → {i j j' : Nat} →
    Spells tokens e i j → Spells tokens e i j' → j = j'
  | literal _ _, _, _, _, ⟨_, h⟩, ⟨_, h'⟩ => h.trans h'.symm
  | identifier _ _, _, _, _, ⟨_, h⟩, ⟨_, h'⟩ => h.trans h'.symm
  | receiver _, _, _, _, ⟨_, h⟩, ⟨_, h'⟩ => h.trans h'.symm
  | super _, _, _, _, ⟨_, h⟩, ⟨_, h'⟩ => h.trans h'.symm
  | unary _ operand _, _, _, _, ⟨_, h⟩, ⟨_, h'⟩ => Spells.unique operand h h'
  | binary _ left right _, _, _, _, ⟨m, hleft, _, h⟩, ⟨m', hleft', _, h'⟩ => by
      obtain rfl := Spells.unique left hleft hleft'
      exact Spells.unique right h h'
  | assign target value _, _, _, _, ⟨m, htarget, _, h⟩, ⟨m', htarget', _, h'⟩ => by
      obtain rfl := Spells.unique target htarget htarget'
      exact Spells.unique value h h'
  | call callee arguments _, _, _, _, ⟨m, hcallee, _, h⟩, ⟨m', hcallee', _, h'⟩ => by
      obtain rfl := Spells.unique callee hcallee hcallee'
      exact SpellsList.unique arguments h h'
  | member object _ _, _, _, _, ⟨m, hobject, _, _, _, h⟩, ⟨m', hobject', _, _, _, h'⟩ => by
      obtain rfl := Spells.unique object hobject hobject'
      exact h.trans h'.symm
  | index object key _, _, _, _, ⟨m, n, hobject, _, hkey, _, h⟩,
      ⟨m', n', hobject', _, hkey', _, h'⟩ => by
      obtain rfl := Spells.unique object hobject hobject'
      obtain rfl := Spells.unique key hkey hkey'
      exact h.trans h'.symm
  | array elements _, _, _, _, ⟨_, h⟩, ⟨_, h'⟩ => SpellsList.unique elements h h'
  | new _ arguments _, _, _, _, ⟨_, _, h⟩, ⟨_, _, h'⟩ => by
      rcases h with ⟨hparen, h⟩ | ⟨hparen, _, h⟩
      · rcases h' with ⟨_, h'⟩ | ⟨hnone, _⟩
        · exact SpellsList.unique arguments h h'
        · exact absurd hparen hnone
      · rcases h' with ⟨hsome, _⟩ | ⟨_, _, h'⟩
        · exact absurd hsome hparen
        · exact h.trans h'.symm
  | grouping inner _, _, _, _, ⟨_, m, hinner, _, h⟩, ⟨_, m', hinner', _, h'⟩ => by
      obtain rfl := Spells.unique inner hinner hinner'
      exact h.trans h'.symm

theorem SpellsList.unique {tokens : Array Token} {closing : Sign} : (es : List Expr) →
    {i j j' : Nat} → SpellsList tokens closing es i j → SpellsList tokens closing es i j' → j = j'
  | [], _, _, _, ⟨_, h⟩, ⟨_, h'⟩ => h.trans h'.symm
  | e :: es, _, _, _, ⟨m, he, h⟩, ⟨m', he', h'⟩ => by
      obtain rfl := Spells.unique e he he'
      exact SpellsMore.unique es h h'

theorem SpellsMore.unique {tokens : Array Token} {closing : Sign} : (es : List Expr) →
    {i j j' : Nat} → SpellsMore tokens closing es i j → SpellsMore tokens closing es i j' → j = j'
  | [], _, _, _, ⟨_, h⟩, ⟨_, h'⟩ => h.trans h'.symm
  | e :: es, _, _, _, ⟨_, m, he, h⟩, ⟨_, m', he', h'⟩ => by
      obtain rfl := Spells.unique e he he'
      exact SpellsMore.unique es h h'

end

/-! ## Roles -/

mutual

/-- The `k`-th token plays the role in the spelling of the expression from the `i`-th token on. -/
def Plays (tokens : Array Token) (role : Role) (k : Nat) : Expr → Nat → Prop
  | literal _ _, _ | identifier _ _, _ | receiver _, _ | super _, _ => False
  | unary _ operand _, i => Plays tokens role k operand (i + 1)
  | binary _ left right _, i =>
    Plays tokens role k left i ∨
      ∃ m, left.Spells tokens i m ∧ Plays tokens role k right (m + 1)
  | assign target value _, i =>
    Plays tokens role k target i ∨
      ∃ m, target.Spells tokens i m ∧ Plays tokens role k value (m + 1)
  | call callee arguments _, i =>
    Plays tokens role k callee i ∨ ∃ m, callee.Spells tokens i m ∧
      ((role = .arguments ∧ k = m) ∨ PlaysIn tokens role k arguments (m + 1))
  | member object _ _, i =>
    Plays tokens role k object i ∨ ∃ m, object.Spells tokens i m ∧ role = .name ∧ k = m + 1
  | index object key _, i =>
    Plays tokens role k object i ∨ ∃ m, object.Spells tokens i m ∧
      ((role = .key ∧ k = m) ∨ Plays tokens role k key (m + 1))
  | array elements _, i => (role = .operand ∧ k = i) ∨ PlaysIn tokens role k elements (i + 1)
  | new _ arguments _, i =>
    (role = .instanceArguments ∧ (nth tokens (i + 2)).kind = .sign .leftParen ∧ k = i + 2) ∨
      PlaysIn tokens role k arguments (i + 3)
  | grouping inner _, i => (role = .operand ∧ k = i) ∨ Plays tokens role k inner (i + 1)

/-- The `k`-th token plays the role in the spelling of one of the expressions, which stand from the
`i`-th token on with a comma between them. -/
def PlaysIn (tokens : Array Token) (role : Role) (k : Nat) : List Expr → Nat → Prop
  | [], _ => False
  | e :: es, i =>
    Plays tokens role k e i ∨ ∃ m, e.Spells tokens i m ∧ PlaysIn tokens role k es (m + 1)

end

mutual

/-- **Every token of an expression is accounted for.** -/
theorem accounted {tokens : Array Token} : (e : Expr) → {i j : Nat} → Spells tokens e i j →
    Accounted tokens (fun role k => Plays tokens role k e i) i j
  | literal _ _, _, _, ⟨h, rfl⟩ => .plain (TokenKind.plain_of_literal h)
  | identifier _ _, _, _, ⟨h, rfl⟩ => .of_kind h rfl
  | receiver _, _, _, ⟨h, rfl⟩ => .of_kind h rfl
  | super _, _, _, ⟨h, rfl⟩ => .of_kind h rfl
  | unary _ operand _, _, _, ⟨hop, h⟩ =>
      .trans (.plain (TokenKind.plain_of_unary hop)) (accounted operand h)
  | binary _ left right _, _, _, ⟨m, hleft, hop, hright⟩ =>
      .trans ((accounted left hleft).mono fun _ _ => .inl)
        (.trans (.plain (TokenKind.plain_of_binary hop))
          ((accounted right hright).mono fun _ _ h => .inr ⟨m, hleft, h⟩))
  | assign target value _, _, _, ⟨m, htarget, hequal, hvalue⟩ =>
      .trans ((accounted target htarget).mono fun _ _ => .inl)
        (.trans (.of_kind hequal rfl)
          ((accounted value hvalue).mono fun _ _ h => .inr ⟨m, htarget, h⟩))
  | call callee arguments _, _, _, ⟨m, hcallee, _, harguments⟩ =>
      .trans ((accounted callee hcallee).mono fun _ _ => .inl)
        (.trans (.of_role .arguments (.inr ⟨m, hcallee, .inl ⟨rfl, rfl⟩⟩))
          ((accountedList rfl arguments harguments).mono fun _ _ h => .inr ⟨m, hcallee, .inr h⟩))
  | member object _ _, _, _, ⟨m, hobject, hdot, _, _, rfl⟩ =>
      .trans ((accounted object hobject).mono fun _ _ => .inl)
        (.trans (.of_kind hdot rfl) (.of_role .name (.inr ⟨m, hobject, rfl, rfl⟩)))
  | index object key _, _, _, ⟨m, _, hobject, _, hkey, hclose, rfl⟩ =>
      .trans ((accounted object hobject).mono fun _ _ => .inl)
        (.trans (.of_role .key (.inr ⟨m, hobject, .inl ⟨rfl, rfl⟩⟩))
          (.trans ((accounted key hkey).mono fun _ _ h => .inr ⟨m, hobject, .inr h⟩)
            (.of_kind hclose rfl)))
  | array elements _, _, _, ⟨_, h⟩ =>
      .trans (.of_role .operand (.inl ⟨rfl, rfl⟩))
        ((accountedList rfl elements h).mono fun _ _ => .inr)
  | new _ arguments _, _, _, ⟨hnaya, hname, .inl ⟨hparen, h⟩⟩ =>
      .trans (.of_kind hnaya rfl) (.trans (.of_kind hname rfl)
        (.trans (.of_role .instanceArguments (.inl ⟨rfl, hparen, rfl⟩))
          ((accountedList rfl arguments h).mono fun _ _ => .inr)))
  | new _ _ _, _, _, ⟨hnaya, hname, .inr ⟨_, _, rfl⟩⟩ =>
      .trans (.of_kind hnaya rfl) (.of_kind hname rfl)
  | grouping inner _, _, _, ⟨_, _, hinner, hclose, rfl⟩ =>
      .trans (.of_role .operand (.inl ⟨rfl, rfl⟩))
        (.trans ((accounted inner hinner).mono fun _ _ => .inr) (.of_kind hclose rfl))

theorem accountedList {tokens : Array Token} {closing : Sign}
    (hplain : (TokenKind.sign closing).plain = true) : (es : List Expr) → {i j : Nat} →
    SpellsList tokens closing es i j →
    Accounted tokens (fun role k => PlaysIn tokens role k es i) i j
  | [], _, _, ⟨hclose, rfl⟩ => .of_kind hclose hplain
  | e :: es, _, _, ⟨m, he, hmore⟩ =>
      .trans ((accounted e he).mono fun _ _ => .inl)
        ((accountedMore hplain es hmore).mono fun _ _ h => .inr ⟨m, he, h⟩)

theorem accountedMore {tokens : Array Token} {closing : Sign}
    (hplain : (TokenKind.sign closing).plain = true) : (es : List Expr) → {m j : Nat} →
    SpellsMore tokens closing es m j →
    Accounted tokens (fun role k => PlaysIn tokens role k es (m + 1)) m j
  | [], _, _, ⟨hclose, rfl⟩ => .of_kind hclose hplain
  | e :: es, _, _, ⟨hcomma, m', he, hmore⟩ =>
      .trans (.of_kind hcomma rfl) (.trans ((accounted e he).mono fun _ _ => .inl)
        ((accountedMore hplain es hmore).mono fun _ _ h => .inr ⟨m', he, h⟩))

end

mutual

/-- **A token plays only roles that it fits**: a bracket at a line break opens neither the arguments of
a call nor a key. -/
theorem Plays.fits {tokens : Array Token} {role : Role} {k : Nat} : (e : Expr) → {i j : Nat} →
    Spells tokens e i j → Plays tokens role k e i → role.Fits tokens k
  | unary _ operand _, _, _, ⟨_, h⟩, hplays => Plays.fits operand h hplays
  | binary _ left _ _, _, _, ⟨_, hleft, _⟩, .inl hplays => Plays.fits left hleft hplays
  -- the place where the left operand ends is the only one, so the role and the spelling speak of
  -- the same tokens
  | binary _ left right _, _, _, ⟨_, hleft, _, hright⟩, .inr ⟨_, hleft', hplays⟩ => by
      obtain rfl := Spells.unique left hleft hleft'
      exact Plays.fits right hright hplays
  | assign target _ _, _, _, ⟨_, htarget, _⟩, .inl hplays => Plays.fits target htarget hplays
  | assign target value _, _, _, ⟨_, htarget, _, hvalue⟩, .inr ⟨_, htarget', hplays⟩ => by
      obtain rfl := Spells.unique target htarget htarget'
      exact Plays.fits value hvalue hplays
  | call callee _ _, _, _, ⟨_, hcallee, _⟩, .inl hplays => Plays.fits callee hcallee hplays
  | call callee arguments _, _, _, ⟨_, hcallee, hopens, harguments⟩,
      .inr ⟨_, hcallee', hplays⟩ => by
      obtain rfl := Spells.unique callee hcallee hcallee'
      rcases hplays with ⟨rfl, rfl⟩ | hplays
      · exact hopens
      · exact PlaysIn.fits arguments harguments hplays
  | member object _ _, _, _, ⟨_, hobject, _⟩, .inl hplays => Plays.fits object hobject hplays
  | member object _ _, _, _, ⟨_, hobject, _, hword, _⟩, .inr ⟨_, hobject', hplays⟩ => by
      obtain rfl := Spells.unique object hobject hobject'
      obtain ⟨rfl, rfl⟩ := hplays
      exact .inl hword
  | index object _ _, _, _, ⟨_, _, hobject, _⟩, .inl hplays => Plays.fits object hobject hplays
  | index object key _, _, _, ⟨_, _, hobject, hopens, hkey, _⟩, .inr ⟨_, hobject', hplays⟩ => by
      obtain rfl := Spells.unique object hobject hobject'
      rcases hplays with ⟨rfl, rfl⟩ | hplays
      · exact hopens
      · exact Plays.fits key hkey hplays
  | array _ _, _, _, ⟨hopens, _⟩, .inl hplays => by
      obtain ⟨rfl, rfl⟩ := hplays
      exact .inr hopens
  | array elements _, _, _, ⟨_, h⟩, .inr hplays => PlaysIn.fits elements h hplays
  | new className _ _, i, _, ⟨hnaya, hname, _⟩, .inl hplays => by
      obtain ⟨rfl, hparen, rfl⟩ := hplays
      exact ⟨hparen, i, className, rfl, hnaya, hname⟩
  | new _ arguments _, _, _, ⟨_, _, .inl ⟨_, h⟩⟩, .inr hplays =>
      PlaysIn.fits arguments h hplays
  | grouping _ _, _, _, ⟨hopens, _⟩, .inl hplays => by
      obtain ⟨rfl, rfl⟩ := hplays
      exact .inl hopens
  | grouping inner _, _, _, ⟨_, _, hinner, _⟩, .inr hplays => Plays.fits inner hinner hplays

theorem PlaysIn.fits {tokens : Array Token} {role : Role} {k : Nat} {closing : Sign} :
    (es : List Expr) → {i j : Nat} → SpellsList tokens closing es i j →
    PlaysIn tokens role k es i → role.Fits tokens k
  | e :: _, _, _, ⟨_, he, _⟩, .inl hplays => Plays.fits e he hplays
  | e :: es, _, _, ⟨_, he, hmore⟩, .inr ⟨_, he', hplays⟩ => by
      obtain rfl := Spells.unique e he he'
      exact PlaysIn.fitsMore es hmore hplays

theorem PlaysIn.fitsMore {tokens : Array Token} {role : Role} {k : Nat} {closing : Sign} :
    (es : List Expr) → {m j : Nat} → SpellsMore tokens closing es m j →
    PlaysIn tokens role k es (m + 1) → role.Fits tokens k
  | e :: _, _, _, ⟨_, _, he, _⟩, .inl hplays => Plays.fits e he hplays
  | e :: es, _, _, ⟨_, _, he, hmore⟩, .inr ⟨_, he', hplays⟩ => by
      obtain rfl := Spells.unique e he he'
      exact PlaysIn.fitsMore es hmore hplays

end

end Expr

end Lipi
