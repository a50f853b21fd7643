import Lipi.Proofs.Expr.Roles
import Lipi.Proofs.Statement.Grammar

set_option autoImplicit false

/-! # What the tokens of a statement are there for

The roles of tokens (`Role`) in the spelling of a statement. Besides those inside its expressions,
these are the parenthesis around a condition, the one in front of parameters, and the name of a
method. Again **every token that is not plain plays a role** (`Statement.accounted`), **and only
one that it fits** (`Statement.Plays.fits`).
-/

namespace Lipi

open Token (nth)

namespace Expr

/-- An expression that starts at the token behind a parenthesis does not start at the parenthesis,
too. -/
theorem Spells.not_paren {tokens : Array Token} : (e : Expr) → {i j j' : Nat} →
    Spells tokens e i j → Spells tokens e (i + 1) j' → (nth tokens i).kind ≠ .sign .leftParen
  | literal _ _, _, _, _, ⟨h, _⟩, _ => by
      intro hkind
      rw [hkind] at h
      cases h
  | identifier _ _, _, _, _, ⟨h, _⟩, _ => h.trans_ne (by simp)
  | receiver _, _, _, _, ⟨h, _⟩, _ => h.trans_ne (by simp)
  | super _, _, _, _, ⟨h, _⟩, _ => h.trans_ne (by simp)
  | unary _ _ _, _, _, _, ⟨h, _⟩, _ => by
      intro hkind
      rw [hkind] at h
      cases h
  | binary _ left _ _, _, _, _, ⟨_, h, _⟩, ⟨_, h', _⟩ => Spells.not_paren left h h'
  | assign target _ _, _, _, _, ⟨_, h, _⟩, ⟨_, h', _⟩ => Spells.not_paren target h h'
  | call callee _ _, _, _, _, ⟨_, h, _⟩, ⟨_, h', _⟩ => Spells.not_paren callee h h'
  | member object _ _, _, _, _, ⟨_, h, _⟩, ⟨_, h', _⟩ => Spells.not_paren object h h'
  | index object _ _, _, _, _, ⟨_, _, h, _⟩, ⟨_, _, h', _⟩ => Spells.not_paren object h h'
  | array _ _, _, _, _, ⟨h, _⟩, _ => h.trans_ne (by simp)
  | new _ _ _, _, _, _, ⟨h, _⟩, _ => h.trans_ne (by simp)
  | grouping inner _, _, _, _, ⟨_, _, h, _⟩, ⟨hkind, _, h', _⟩ =>
      absurd hkind (Spells.not_paren inner h h')

end Expr

namespace Statement

variable {tokens : Array Token} {i j j' : Nat}

/-! ## Where a spelling ends -/

theorem SpellsMoreNames.unique {closing : Sign} {xs : List String}
    (h : SpellsMoreNames tokens closing xs i j) (h' : SpellsMoreNames tokens closing xs i j') :
    j = j' := by
  induction xs generalizing i with
  | nil => exact h.2.trans h'.2.symm
  | cons x xs ih => exact ih h.2.2 h'.2.2

theorem SpellsNames.unique {closing : Sign} {xs : List String}
    (h : SpellsNames tokens closing xs i j) (h' : SpellsNames tokens closing xs i j') : j = j' := by
  cases xs with
  | nil => exact h.2.trans h'.2.symm
  | cons x xs => exact h.2.unique h'.2

theorem Ends.unique (h : Ends tokens i j) (h' : Ends tokens i j') : j = j' := by
  rcases h with ⟨hkind, rfl⟩ | ⟨hkind, _, rfl⟩ <;> rcases h' with ⟨hkind', rfl⟩ | ⟨hkind', _, rfl⟩
  · rfl
  · exact absurd hkind hkind'
  · exact absurd hkind' hkind
  · rfl

theorem SpellsCondition.unique {c : Expr} (h : SpellsCondition tokens c i j)
    (h' : SpellsCondition tokens c i j') : j = j' := by
  rcases h with h | ⟨hparen, m, h, _, rfl⟩ <;> rcases h' with h' | ⟨hparen', m', h', _, rfl⟩
  · exact Expr.Spells.unique c h h'
  · exact absurd hparen' (Expr.Spells.not_paren c h h')
  · exact absurd hparen (Expr.Spells.not_paren c h' h)
  · rw [Expr.Spells.unique c h h']

theorem SpellsSuperclass.unique {name : Option String} (h : SpellsSuperclass tokens name i j)
    (h' : SpellsSuperclass tokens name i j') : j = j' := by
  cases name with
  | none => exact h.2.trans h'.2.symm
  | some name => exact h.2.2.trans h'.2.2.symm

theorem SpellsModifiers.unique {ks ks' : List Keyword} (h : SpellsModifiers tokens ks i j)
    (h' : SpellsModifiers tokens ks' i j') : j = j' := by
  induction ks generalizing i ks' with
  | nil =>
      cases ks' with
      | nil => exact h.2.trans h'.2.symm
      | cons k ks' => exact absurd h'.1 (h.1 k)
  | cons k ks ih =>
      cases ks' with
      | nil => exact absurd h.1 (h'.1 k)
      | cons k' ks' => exact ih h.2 h'.2

theorem SpellsFunctionWord.unique (h : SpellsFunctionWord tokens i j)
    (h' : SpellsFunctionWord tokens i j') : j = j' := by
  rcases h with ⟨hword, rfl⟩ | ⟨hword, rfl⟩ <;> rcases h' with ⟨hword', rfl⟩ | ⟨hword', rfl⟩
  · rfl
  · exact absurd hword hword'
  · exact absurd hword' hword
  · rfl

theorem Semicolons.unique (h : Semicolons tokens i j) (h' : Semicolons tokens i j') : j = j' := by
  obtain ⟨hle, hall, hend⟩ := h
  obtain ⟨hle', hall', hend'⟩ := h'
  rcases Nat.lt_trichotomy j j' with hlt | heq | hlt
  · exact absurd (hall' j hle hlt) hend
  · exact heq
  · exact absurd (hall j' hle' hlt) hend'

theorem SpellsMethodHead.unique {access : Access} {isStatic isConstructor : Bool} {name : String}
    (h : SpellsMethodHead tokens access isStatic isConstructor name i j)
    (h' : SpellsMethodHead tokens access isStatic isConstructor name i j') : j = j' := by
  obtain ⟨ks, m, n, hmodifiers, _, hword, _, rfl⟩ := h
  obtain ⟨ks', m', n', hmodifiers', _, hword', _, rfl⟩ := h'
  obtain rfl := hmodifiers.unique hmodifiers'
  rw [hword.unique hword']

theorem InBraces.unique {P : Nat → Nat → Prop} (h : InBraces tokens P i j)
    (h' : InBraces tokens P i j') (hP : ∀ i j j', P i j → P i j' → j = j') : j = j' := by
  obtain ⟨_, m, hm, _, rfl⟩ := h
  obtain ⟨_, m', hm', _, rfl⟩ := h'
  rw [hP _ _ _ hm hm']

theorem SpellsRoutine.unique {parameters : List String} {body : Nat → Nat → Prop}
    (h : SpellsRoutine tokens parameters body i j) (h' : SpellsRoutine tokens parameters body i j')
    (hbody : ∀ i j j', body i j → body i j' → j = j') : j = j' := by
  obtain ⟨_, m, hparameters, h⟩ := h
  obtain ⟨_, m', hparameters', h'⟩ := h'
  obtain rfl := hparameters.unique hparameters'
  exact h.unique h' hbody

mutual

/-- The tree and the first token determine the end of a spelling. -/
theorem Spells.unique {tokens : Array Token} : (t : Statement) → {i j j' : Nat} →
    Spells tokens t i j → Spells tokens t i j' → j = j'
  | binding _ _ initializer _, _, _, _, ⟨_, _, _, m, he, h⟩, ⟨_, _, _, m', he', h'⟩ => by
      obtain rfl := Expr.Spells.unique initializer he he'
      exact h.unique h'
  | function _ _ body _, _, _, _, ⟨_, _, h⟩, ⟨_, _, h'⟩ => h.unique h' fun _ _ _ => SpellsAll.unique body
  | classDecl _ _ methods _, _, _, _, ⟨_, _, m, hsuper, h⟩, ⟨_, _, m', hsuper', h'⟩ => by
      obtain rfl := hsuper.unique hsuper'
      exact h.unique h' fun _ _ _ => SpellsMethods.unique methods
  | conditional _ thenBranch none _, _, _, _, ⟨_, m, hc, h⟩, ⟨_, m', hc', h'⟩ => by
      obtain rfl := hc.unique hc'
      exact Spells.unique thenBranch h h'
  | conditional _ thenBranch (some elseBranch) _, _, _, _, ⟨_, m, n, hc, hthen, _, h⟩,
      ⟨_, m', n', hc', hthen', _, h'⟩ => by
      obtain rfl := hc.unique hc'
      obtain rfl := Spells.unique thenBranch hthen hthen'
      exact Spells.unique elseBranch h h'
  | loop _ body _, _, _, _, ⟨_, m, hc, h⟩, ⟨_, m', hc', h'⟩ => by
      obtain rfl := hc.unique hc'
      exact Spells.unique body h h'
  | giveBack none _, _, _, _, ⟨_, h⟩, ⟨_, h'⟩ => h.unique h'
  | giveBack (some value) _, _, _, _, ⟨_, m, he, h⟩, ⟨_, m', he', h'⟩ => by
      obtain rfl := Expr.Spells.unique value he he'
      exact h.unique h'
  | print value _, _, _, _, ⟨_, m, he, h⟩, ⟨_, m', he', h'⟩ => by
      obtain rfl := Expr.Spells.unique value he he'
      exact h.unique h'
  | block statements _, _, _, _, h, h' => InBraces.unique h h' fun _ _ _ => SpellsAll.unique statements
  | expression expr _, _, _, _, ⟨m, he, h⟩, ⟨m', he', h'⟩ => by
      obtain rfl := Expr.Spells.unique expr he he'
      exact h.unique h'
  | empty _, _, _, _, ⟨_, h⟩, ⟨_, h'⟩ => h.trans h'.symm
  | importNames _ _ _, _, _, _, ⟨_, _, m, hnames, _, _, h⟩, ⟨_, _, m', hnames', _, _, h'⟩ => by
      obtain rfl := hnames.unique hnames'
      exact h.unique h'
  | exportDecl declaration _, _, _, _, ⟨_, h⟩, ⟨_, h'⟩ => Spells.unique declaration h h'
  | exportNames _ _, _, _, _, ⟨_, _, m, hnames, h⟩, ⟨_, _, m', hnames', h'⟩ => by
      obtain rfl := hnames.unique hnames'
      exact h.unique h'

theorem SpellsAll.unique {tokens : Array Token} : (ts : List Statement) → {i j j' : Nat} →
    SpellsAll tokens ts i j → SpellsAll tokens ts i j' → j = j'
  | [], _, _, _, h, h' => h.trans h'.symm
  | t :: ts, _, _, _, ⟨m, ht, h⟩, ⟨m', ht', h'⟩ => by
      obtain rfl := Spells.unique t ht ht'
      exact SpellsAll.unique ts h h'

theorem SpellsMethods.unique {tokens : Array Token} : (ms : List Method) → {i j j' : Nat} →
    SpellsMethods tokens ms i j → SpellsMethods tokens ms i j' → j = j'
  | [], _, _, _, h, h' => Semicolons.unique h h'
  | .mk _ _ _ _ _ body _ :: ms, _, _, _, ⟨m₁, m₂, m₃, hskip, hhead, hroutine, h⟩,
      ⟨n₁, n₂, n₃, hskip', hhead', hroutine', h'⟩ => by
      obtain rfl := hskip.unique hskip'
      obtain rfl := hhead.unique hhead'
      obtain rfl := hroutine.unique hroutine' fun _ _ _ => SpellsAll.unique body
      exact SpellsMethods.unique ms h h'

end

/-! ## Roles -/

/-- The `k`-th token plays the role in the spelling of the condition from the `i`-th token on. -/
def PlaysInCondition (tokens : Array Token) (role : Role) (k : Nat) (c : Expr) (i : Nat) : Prop :=
  (∃ j, c.Spells tokens i j ∧ c.Plays tokens role k i) ∨
    (∃ j, c.Spells tokens (i + 1) j ∧ (nth tokens i).kind = .sign .leftParen ∧
      ((role = .operand ∧ k = i) ∨ c.Plays tokens role k (i + 1)))

/-- The `k`-th token plays the role in the spelling of the parameters and the body. -/
def PlaysInRoutine (tokens : Array Token) (role : Role) (k : Nat) (parameters : List String)
    (body : Nat → Prop) (i : Nat) : Prop :=
  (role = .parameters ∧ k = i) ∨
    ∃ m, SpellsNames tokens .rightParen parameters (i + 1) m ∧ body (m + 1)

mutual

/-- The `k`-th token plays the role in the spelling of the statement from the `i`-th token on. -/
def Plays (tokens : Array Token) (role : Role) (k : Nat) : Statement → Nat → Prop
  | binding _ _ initializer _, i => initializer.Plays tokens role k (i + 3)
  | function _ parameters body _, i =>
    PlaysInRoutine tokens role k parameters (PlaysInAll tokens role k body) (i + 2)
  | classDecl _ superclass methods _, i =>
    ∃ m, SpellsSuperclass tokens superclass (i + 2) m ∧ PlaysInMethods tokens role k methods (m + 1)
  | conditional condition thenBranch none _, i =>
    PlaysInCondition tokens role k condition (i + 1) ∨
      ∃ m, SpellsCondition tokens condition (i + 1) m ∧ Plays tokens role k thenBranch m
  | conditional condition thenBranch (some elseBranch) _, i =>
    PlaysInCondition tokens role k condition (i + 1) ∨
      ∃ m, SpellsCondition tokens condition (i + 1) m ∧
        (Plays tokens role k thenBranch m ∨
          ∃ m', Spells tokens thenBranch m m' ∧ Plays tokens role k elseBranch (m' + 1))
  | loop condition body _, i =>
    PlaysInCondition tokens role k condition (i + 1) ∨
      ∃ m, SpellsCondition tokens condition (i + 1) m ∧ Plays tokens role k body m
  | giveBack none _, _ | empty _, _ | importNames _ _ _, _ | exportNames _ _, _ => False
  | giveBack (some value) _, i => value.Plays tokens role k (i + 1)
  | print value _, i => value.Plays tokens role k (i + 1)
  | block statements _, i => PlaysInAll tokens role k statements (i + 1)
  | expression expr _, i => expr.Plays tokens role k i
  | exportDecl declaration _, i => Plays tokens role k declaration (i + 1)

/-- The `k`-th token plays the role in the spelling of one of the statements. -/
def PlaysInAll (tokens : Array Token) (role : Role) (k : Nat) : List Statement → Nat → Prop
  | [], _ => False
  | t :: ts, i =>
    Plays tokens role k t i ∨ ∃ m, Spells tokens t i m ∧ PlaysInAll tokens role k ts m

/-- The `k`-th token plays the role in the spelling of one of the methods. -/
def PlaysInMethods (tokens : Array Token) (role : Role) (k : Nat) : List Method → Nat → Prop
  | [], _ => False
  | .mk access isStatic isConstructor name parameters body _ :: ms, i =>
    ∃ m m', Semicolons tokens i m ∧
      SpellsMethodHead tokens access isStatic isConstructor name m m' ∧
      ((role = .name ∧ k + 1 = m') ∨
        PlaysInRoutine tokens role k parameters (PlaysInAll tokens role k body) m' ∨
        ∃ m'', SpellsRoutine tokens parameters (SpellsAll tokens body) m' m'' ∧
          PlaysInMethods tokens role k ms m'')

end

/-! ## Every token is accounted for -/

section
variable {plays : Role → Nat → Prop}

theorem accountedMoreNames {closing : Sign} (hplain : (TokenKind.sign closing).plain = true)
    {xs : List String} (h : SpellsMoreNames tokens closing xs i j) :
    Accounted tokens plays i j := by
  induction xs generalizing i with
  | nil =>
      obtain ⟨hclose, rfl⟩ := h
      exact .of_kind hclose hplain
  | cons x xs ih =>
      obtain ⟨hcomma, hname, h⟩ := h
      exact .trans (.of_kind hcomma rfl) (.trans (.of_kind hname rfl) (ih h))

theorem accountedNames {closing : Sign} (hplain : (TokenKind.sign closing).plain = true)
    {xs : List String} (h : SpellsNames tokens closing xs i j) : Accounted tokens plays i j := by
  cases xs with
  | nil =>
      obtain ⟨hclose, rfl⟩ := h
      exact .of_kind hclose hplain
  | cons x xs => exact .trans (.of_kind h.1 rfl) (accountedMoreNames hplain h.2)

theorem accountedEnds (h : Ends tokens i j) : Accounted tokens plays i j := by
  rcases h with ⟨hkind, rfl⟩ | ⟨_, _, rfl⟩
  · exact .of_kind hkind rfl
  · exact .refl _

theorem accountedSuperclass {name : Option String} (h : SpellsSuperclass tokens name i j) :
    Accounted tokens plays i j := by
  cases name with
  | none =>
      rw [h.2]
      exact .refl i
  | some name =>
      obtain ⟨hvirasat, hname, rfl⟩ := h
      exact .trans (.of_kind hvirasat rfl) (.of_kind hname rfl)

theorem accountedModifiers {ks : List Keyword} (h : SpellsModifiers tokens ks i j) :
    Accounted tokens plays i j := by
  induction ks generalizing i with
  | nil =>
      rw [h.2]
      exact .refl i
  | cons k ks ih =>
      obtain ⟨⟨hword, hkind, _⟩, h⟩ := h
      refine .trans (.of_kind hkind ?_) (ih h)
      rcases hword with rfl | rfl | rfl | rfl <;> rfl

theorem accountedFunctionWord (h : SpellsFunctionWord tokens i j) :
    Accounted tokens plays i j := by
  rcases h with ⟨hword, rfl⟩ | ⟨_, rfl⟩
  · exact .of_kind hword.1 rfl
  · exact .refl _

theorem accountedSemicolons (h : Semicolons tokens i j) : Accounted tokens plays i j := by
  intro k hle hlt
  have hkind := h.2.1 k hle hlt
  exact .inl (by rw [hkind]; rfl)

theorem accountedBraces {P : Nat → Nat → Prop} (h : InBraces tokens P i j)
    (hP : ∀ m, P (i + 1) m → Accounted tokens plays (i + 1) m) : Accounted tokens plays i j := by
  obtain ⟨hopen, m, hm, hclose, rfl⟩ := h
  exact .trans (.of_kind hopen rfl) (.trans (hP m hm) (.of_kind hclose rfl))

end

theorem accountedCondition {c : Expr} (h : SpellsCondition tokens c i j) :
    Accounted tokens (fun role k => PlaysInCondition tokens role k c i) i j := by
  rcases h with h | ⟨hparen, m, h, hclose, rfl⟩
  · exact (c.accounted h).mono fun _ _ hplays => .inl ⟨j, h, hplays⟩
  · refine .trans (.of_role .operand (.inr ⟨m, h, hparen, .inl ⟨rfl, rfl⟩⟩))
      (.trans ((c.accounted h).mono fun _ _ hplays => ?_) (.of_kind hclose rfl))
    exact .inr ⟨m, h, hparen, .inr hplays⟩

/-- The head of a method ends with its name; what stands in front of it is plain. -/
theorem accountedMethodHead {plays : Role → Nat → Prop} {access : Access}
    {isStatic isConstructor : Bool} {name : String}
    (h : SpellsMethodHead tokens access isStatic isConstructor name i j)
    (hname : ∀ k, k + 1 = j → plays .name k) : Accounted tokens plays i j := by
  obtain ⟨ks, m, m', hmodifiers, -, hword, -, rfl⟩ := h
  exact .trans (accountedModifiers hmodifiers)
    (.trans (accountedFunctionWord hword) (.of_role .name (hname m' rfl)))

theorem accountedRoutine {parameters : List String} {body : Nat → Nat → Prop}
    {plays : Role → Nat → Nat → Prop} (h : SpellsRoutine tokens parameters body i j)
    (hbody : ∀ m m', body m m' → Accounted tokens (fun role k => plays role k m) m m') :
    Accounted tokens (fun role k => PlaysInRoutine tokens role k parameters (plays role k) i)
      i j := by
  obtain ⟨-, m, hparameters, h⟩ := h
  refine .trans (.of_role .parameters (.inl ⟨rfl, rfl⟩))
    (.trans (accountedNames rfl hparameters) (accountedBraces h fun m' hm' => ?_))
  exact (hbody (m + 1) m' hm').mono fun _ _ hplays => .inr ⟨m, hparameters, hplays⟩

mutual

/-- **Every token of a statement is accounted for.** -/
theorem accounted {tokens : Array Token} : (t : Statement) → {i j : Nat} → Spells tokens t i j →
    Accounted tokens (fun role k => Plays tokens role k t i) i j
  | binding constant _ initializer _, _, _, ⟨hkind, hname, hequal, _, he, hend⟩ => by
      have hplain : (TokenKind.keyword (if constant then .pakka else .rakho)).plain = true := by
        cases constant <;> rfl
      exact .trans (.of_kind hkind hplain) (.trans (.of_kind hname rfl)
        (.trans (.of_kind hequal rfl) (.trans (initializer.accounted he) (accountedEnds hend))))
  | function _ _ body _, _, _, ⟨hkind, hname, hroutine⟩ =>
      .trans (.of_kind hkind rfl) (.trans (.of_kind hname rfl)
        (accountedRoutine hroutine fun _ _ => accountedAll body))
  | classDecl _ _ methods _, _, _, ⟨hkind, hname, m, hsuper, hmethods⟩ =>
      .trans (.of_kind hkind rfl) (.trans (.of_kind hname rfl)
        (.trans (accountedSuperclass hsuper) (accountedBraces hmethods fun _ h =>
          (accountedMethods methods h).mono fun _ _ hplays => ⟨m, hsuper, hplays⟩)))
  | conditional _ thenBranch none _, _, _, ⟨hkind, m, hc, hthen⟩ =>
      .trans (.of_kind hkind rfl) (.trans ((accountedCondition hc).mono fun _ _ => .inl)
        ((accounted thenBranch hthen).mono fun _ _ hplays => .inr ⟨m, hc, hplays⟩))
  | conditional _ thenBranch (some elseBranch) _, _, _,
      ⟨hkind, m, m', hc, hthen, hwarna, helse⟩ =>
      .trans (.of_kind hkind rfl) (.trans ((accountedCondition hc).mono fun _ _ => .inl)
        (.trans ((accounted thenBranch hthen).mono fun _ _ hplays => .inr ⟨m, hc, .inl hplays⟩)
          (.trans (.of_kind hwarna rfl) ((accounted elseBranch helse).mono
            fun _ _ hplays => .inr ⟨m, hc, .inr ⟨m', hthen, hplays⟩⟩))))
  | loop _ body _, _, _, ⟨hkind, m, hc, hbody⟩ =>
      .trans (.of_kind hkind rfl) (.trans ((accountedCondition hc).mono fun _ _ => .inl)
        ((accounted body hbody).mono fun _ _ hplays => .inr ⟨m, hc, hplays⟩))
  | giveBack none _, _, _, ⟨hkind, hend⟩ => .trans (.of_kind hkind rfl) (accountedEnds hend)
  | giveBack (some value) _, _, _, ⟨hkind, _, he, hend⟩ =>
      .trans (.of_kind hkind rfl) (.trans (value.accounted he) (accountedEnds hend))
  | print value _, _, _, ⟨hkind, _, he, hend⟩ =>
      .trans (.of_kind hkind rfl) (.trans (value.accounted he) (accountedEnds hend))
  | block statements _, _, _, h => accountedBraces h fun _ => accountedAll statements
  | expression expr _, _, _, ⟨_, he, hend⟩ => .trans (expr.accounted he) (accountedEnds hend)
  | empty _, _, _, ⟨hkind, rfl⟩ => .of_kind hkind rfl
  | importNames _ _ _, _, _, ⟨hkind, hopen, _, hnames, hse, hsource, hend⟩ =>
      .trans (.of_kind hkind rfl) (.trans (.of_kind hopen rfl)
        (.trans (accountedNames rfl hnames) (.trans (.of_kind hse rfl)
          (.trans (.of_kind hsource rfl) (accountedEnds hend)))))
  | exportDecl declaration _, _, _, ⟨hkind, h⟩ =>
      .trans (.of_kind hkind rfl) (accounted declaration h)
  | exportNames _ _, _, _, ⟨hkind, hopen, _, hnames, hend⟩ =>
      .trans (.of_kind hkind rfl) (.trans (.of_kind hopen rfl)
        (.trans (accountedNames rfl hnames) (accountedEnds hend)))

theorem accountedAll {tokens : Array Token} : (ts : List Statement) → {i j : Nat} →
    SpellsAll tokens ts i j → Accounted tokens (fun role k => PlaysInAll tokens role k ts i) i j
  | [], _, _, rfl => .refl _
  | t :: ts, _, _, ⟨m, ht, hts⟩ =>
      .trans ((accounted t ht).mono fun _ _ => .inl)
        ((accountedAll ts hts).mono fun _ _ hplays => .inr ⟨m, ht, hplays⟩)

theorem accountedMethods {tokens : Array Token} : (ms : List Method) → {i j : Nat} →
    SpellsMethods tokens ms i j →
    Accounted tokens (fun role k => PlaysInMethods tokens role k ms i) i j
  | [], _, _, h => accountedSemicolons h
  | .mk _ _ _ _ _ body _ :: ms, _, _, ⟨m, m', m'', hskip, hhead, hroutine, hrest⟩ =>
      .trans (accountedSemicolons hskip)
        (.trans (accountedMethodHead hhead fun _ hk => ⟨m, m', hskip, hhead, .inl ⟨rfl, hk⟩⟩)
          (.trans ((accountedRoutine hroutine fun _ _ => accountedAll body).mono
              fun _ _ hplays => ⟨m, m', hskip, hhead, .inr (.inl hplays)⟩)
            ((accountedMethods ms hrest).mono fun _ _ hplays =>
              ⟨m, m', hskip, hhead, .inr (.inr ⟨m'', hroutine, hplays⟩)⟩)))

end

/-! ## A token plays only roles that it fits -/

section
variable {role : Role} {k : Nat}

theorem PlaysInCondition.fits {c : Expr} (h : PlaysInCondition tokens role k c i) :
    role.Fits tokens k := by
  rcases h with ⟨_, h, hplays⟩ | ⟨_, h, hparen, hplays⟩
  · exact hplays.fits c h
  · rcases hplays with ⟨rfl, rfl⟩ | hplays
    · exact .inl hparen
    · exact hplays.fits c h

theorem PlaysInRoutine.fits {parameters : List String} {body : Nat → Nat → Prop}
    {plays : Nat → Prop} (h : SpellsRoutine tokens parameters body i j)
    (hplays : PlaysInRoutine tokens role k parameters plays i)
    (hbody : ∀ m m', body m m' → plays m → role.Fits tokens k) : role.Fits tokens k := by
  obtain ⟨hparen, m, hparameters, _, m', hm', _⟩ := h
  rcases hplays with ⟨rfl, rfl⟩ | ⟨n, hparameters', hplays⟩
  · exact hparen
  · obtain rfl := hparameters.unique hparameters'
    exact hbody _ m' hm' hplays

theorem SpellsMethodHead.fits {access : Access} {isStatic isConstructor : Bool} {name : String}
    (h : SpellsMethodHead tokens access isStatic isConstructor name i (k + 1)) :
    Role.Fits tokens k .name := by
  obtain ⟨ks, m, m', -, -, -, hname, heq⟩ := h
  obtain rfl : k = m' := Nat.succ.inj heq
  cases isConstructor with
  | true => exact .inr hname.1
  | false => exact .inl hname.2.1

end

mutual

/-- **A token plays only roles that it fits**: a bracket at a line break opens neither the arguments of
a call nor a key. -/
theorem Plays.fits {tokens : Array Token} {role : Role} {k : Nat} : (t : Statement) →
    {i j : Nat} → Spells tokens t i j → Plays tokens role k t i → role.Fits tokens k
  | binding _ _ initializer _, _, _, ⟨_, _, _, _, he, _⟩, hplays => Expr.Plays.fits initializer he hplays
  | function _ _ body _, _, _, ⟨_, _, h⟩, hplays =>
      PlaysInRoutine.fits h hplays fun _ _ => PlaysInAll.fits body
  | classDecl _ _ methods _, _, _, ⟨_, _, _, hsuper, _, _, h, _⟩, ⟨_, hsuper', hplays⟩ => by
      obtain rfl := hsuper.unique hsuper'
      exact PlaysInMethods.fits methods h hplays
  | conditional _ _ none _, _, _, _, .inl hplays => hplays.fits
  | conditional _ thenBranch none _, _, _, ⟨_, _, hc, h⟩, .inr ⟨_, hc', hplays⟩ => by
      obtain rfl := hc.unique hc'
      exact Plays.fits thenBranch h hplays
  | conditional _ _ (some _) _, _, _, _, .inl hplays => hplays.fits
  | conditional _ thenBranch (some elseBranch) _, _, _, ⟨_, _, _, hc, hthen, _, helse⟩,
      .inr ⟨_, hc', hplays⟩ => by
      obtain rfl := hc.unique hc'
      rcases hplays with hplays | ⟨_, hthen', hplays⟩
      · exact Plays.fits thenBranch hthen hplays
      · obtain rfl := hthen.unique thenBranch hthen'
        exact Plays.fits elseBranch helse hplays
  | loop _ _ _, _, _, _, .inl hplays => hplays.fits
  | loop _ body _, _, _, ⟨_, _, hc, h⟩, .inr ⟨_, hc', hplays⟩ => by
      obtain rfl := hc.unique hc'
      exact Plays.fits body h hplays
  | giveBack (some value) _, _, _, ⟨_, _, he, _⟩, hplays => Expr.Plays.fits value he hplays
  | print value _, _, _, ⟨_, _, he, _⟩, hplays => Expr.Plays.fits value he hplays
  | block statements _, _, _, ⟨_, _, h, _⟩, hplays => PlaysInAll.fits statements h hplays
  | expression expr _, _, _, ⟨_, he, _⟩, hplays => Expr.Plays.fits expr he hplays
  | exportDecl declaration _, _, _, ⟨_, h⟩, hplays => Plays.fits declaration h hplays

theorem PlaysInAll.fits {tokens : Array Token} {role : Role} {k : Nat} : (ts : List Statement) →
    {i j : Nat} → SpellsAll tokens ts i j → PlaysInAll tokens role k ts i → role.Fits tokens k
  | t :: _, _, _, ⟨_, ht, _⟩, .inl hplays => Plays.fits t ht hplays
  | t :: ts, _, _, ⟨_, ht, hts⟩, .inr ⟨_, ht', hplays⟩ => by
      obtain rfl := ht.unique t ht'
      exact PlaysInAll.fits ts hts hplays

theorem PlaysInMethods.fits {tokens : Array Token} {role : Role} {k : Nat} : (ms : List Method) →
    {i j : Nat} → SpellsMethods tokens ms i j → PlaysInMethods tokens role k ms i →
    role.Fits tokens k
  | .mk _ _ _ _ _ body _ :: ms, _, _, ⟨_, _, _, hskip, hhead, hroutine, hrest⟩,
      ⟨_, _, hskip', hhead', hplays⟩ => by
      obtain rfl := hskip.unique hskip'
      obtain rfl := hhead.unique hhead'
      rcases hplays with ⟨rfl, rfl⟩ | hplays | ⟨_, hroutine', hplays⟩
      · exact hhead.fits
      · exact hplays.fits hroutine fun _ _ => PlaysInAll.fits body
      · obtain rfl := hroutine.unique hroutine' fun _ _ _ => SpellsAll.unique body
        exact PlaysInMethods.fits ms hrest hplays

end

end Statement

end Lipi
