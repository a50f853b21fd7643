import Lipi.Proofs.Parser.Progress
import Lipi.Proofs.Program.Renaming
import Lipi.Proofs.Token.Shows

set_option autoImplicit false

/-! # Two readings in step

What a reader says about two streams at once: two spellings of the same tokens, a text and the same
text with more behind it, or a stream and itself. A `Tandem` is such a pair of streams, with what the
two show each other at every place; the two readings are then in step all the way, and **what they
give is the same up to positions and names** (`Tandem.Meets`).

A reading has three kinds of places. At its `entry` the current tokens are of the same kind. `midway`,
behind a token that has been read, they also stand alike with respect to lines. At an `exit`, behind a
statement, a lenient tandem may have come to the end on the left while there is more on the right; it
does not follow the left reading any further where that fails.
-/

namespace Lipi

/-- The cause without the text of the token that was found. -/
def CompileError.Cause.sort : CompileError.Cause → CompileError.Cause
  | .unexpectedToken _ => .unexpectedToken ""
  | .expected expectation _ => .expected expectation ""
  | .topLevelOnly _ => .topLevelOnly ""
  | .trailingTokens _ => .trailingTokens ""
  | cause => cause

theorem CompileError.Cause.isFatal_sort (cause : CompileError.Cause) :
    cause.sort.isFatal = cause.isFatal := by
  cases cause <;> rfl

/-- Two streams that are read in step. -/
structure Tandem where
  /-- Whether the right stream may go on where the left one ends, and failures on the left are not
  followed. -/
  lenient : Prop
  /-- How names of members are related. -/
  name : String → String → Prop
  entry : Stream → Stream → Prop
  midway : Stream → Stream → Prop
  /-- The left stream has come to its end behind a statement, and the right one goes on. -/
  beyond : Stream → Stream → Prop
  name_refl : lenient → ∀ x, name x x
  entry_of_midway : ∀ {s s'}, midway s s' → entry s s'
  kind : ∀ {s s'}, entry s s' → s'.kind = s.kind
  nextKind : ∀ {s s'}, entry s s' → s.isAtEnd = false → s.kind ≠ .sign .semicolon →
    s'.nextKind = s.nextKind
  lineBreak : ∀ {s s'}, midway s s' → s.isAtEnd = false → s'.atLineBreak = s.atLineBreak
  bound_le : ∀ {s s'}, entry s s' → s.bound ≤ s'.bound
  bound_eq : ∀ {s s'}, entry s s' → ¬lenient → s'.bound = s.bound
  advance : ∀ {s s'}, entry s s' → s.isAtEnd = false → s.kind ≠ .sign .semicolon →
    midway s.advance s'.advance
  semicolon : ∀ {s s'}, entry s s' → s.kind = .sign .semicolon →
    midway s.advance s'.advance ∨ beyond s.advance s'.advance
  /-- Neither stream goes on with an `else` then. -/
  of_beyond : ∀ {s s'}, beyond s s' → lenient ∧ s.isAtEnd = true ∧ s'.kind ≠ .keyword .warna
  isWord : ∀ {s s'}, entry s s' → s'.peek.isWord = s.peek.isWord
  word : ∀ {s s'}, entry s s' → s.peek.isWord = true →
    s.kind ≠ .sign .semicolon ∧ name s.peek.lexeme s'.peek.lexeme
  /-- After an error that is not fatal, reading goes on in step. -/
  recover : ∀ {s s'} {e e' : CompileError}, ¬lenient → entry s s' → e.position = s.position →
    e'.position = s'.position → e'.cause.sort = e.cause.sort → e.isFatal = false →
    ∀ insideBlock, midway ((s.record e).synchronize insideBlock)
      ((s'.record e').synchronize insideBlock)

namespace Tandem

variable (T : Tandem) {α β : Type}

/-- Behind a statement: midway, or at the end on the left. -/
def exit (s s' : Stream) : Prop :=
  T.midway s s' ∨ T.beyond s s'

/-- Bounds on the repetitions of the two readings. -/
structure Fuel (n m : Nat) : Prop where
  le : n ≤ m
  eq : ¬T.lenient → m = n

/-- Both readings fail at their current tokens, and for the same sort of cause. -/
structure Fails (e : CompileError) (s : Stream) (e' : CompileError) (s' : Stream) : Prop where
  entry : T.entry s s'
  position : e.position = s.position
  position' : e'.position = s'.position
  sort : e'.cause.sort = e.cause.sort

/-- The left reading is not followed any further: it has failed or recorded an error. -/
def Lost (r : EStateM.Result CompileError Stream α) : Prop :=
  T.lenient ∧
    match r with
    | .ok _ s => 0 < s.errors.size
    | .error _ _ => True

/-- What the two readings give is related, and so are the places that they come to. -/
inductive Meets (F : Stream → Stream → Prop) (R : α → α → Prop) :
    EStateM.Result CompileError Stream α → EStateM.Result CompileError Stream α → Prop where
  | ok {a b : α} {s s' : Stream} : R a b → F s s' → Meets F R (.ok a s) (.ok b s')
  | error {e e' : CompileError} {s s' : Stream} : T.Fails e s e' s' →
    Meets F R (.error e s) (.error e' s')
  | lost {r r' : EStateM.Result CompileError Stream α} : T.Lost r → Meets F R r r'

/-- From places of the one kind, the readings give what is related and come to places of the other
kind. -/
structure Runs (E F : Stream → Stream → Prop) (R : α → α → Prop) (x y : Parser α) : Prop where
  steady : T.lenient → Parser.Steady x
  meets : ∀ s s', E s s' → T.Meets F R (x s) (y s')

/-- Places of this kind are entries. -/
def Enters (E : Stream → Stream → Prop) : Prop :=
  ∀ s s', E s s' → T.entry s s'

/-- A relation that holds of everything and itself, as far as that is needed. -/
class Reflexive (R : α → α → Prop) : Prop where
  refl : T.lenient → ∀ a, R a a

/-- No relation at all. -/
def anything (_ _ : α) : Prop :=
  True

/-- Both components are related. -/
def pair (R : α → α → Prop) (S : β → β → Prop) (p q : α × β) : Prop :=
  R p.1 q.1 ∧ S p.2 q.2

section Instances

instance : T.Reflexive (Eq : α → α → Prop) :=
  ⟨fun _ _ => rfl⟩

instance : T.Reflexive (anything : α → α → Prop) :=
  ⟨fun _ _ => trivial⟩

instance : T.Reflexive T.name :=
  ⟨T.name_refl⟩

instance {R : α → α → Prop} {S : β → β → Prop} [T.Reflexive R] [T.Reflexive S] :
    T.Reflexive (pair R S) :=
  ⟨fun h p => ⟨Reflexive.refl h p.1, Reflexive.refl h p.2⟩⟩

instance {R : α → α → Prop} [T.Reflexive R] : T.Reflexive (List.Forall₂ R) :=
  ⟨fun h _ => List.forall₂_same.mpr fun a _ => Reflexive.refl h a⟩

instance : T.Reflexive (Expr.Renamed T.name) :=
  ⟨fun h e => Expr.renamed_refl (T.name_refl h) e⟩

instance : T.Reflexive (Statement.Renamed T.name) :=
  ⟨fun h t => Statement.renamed_refl (T.name_refl h) t⟩

instance : T.Reflexive (Method.Renamed T.name) :=
  ⟨fun h m => by
    obtain ⟨hm, -⟩ := List.forall₂_cons.mp (Statement.renamedMethods_refl (T.name_refl h) [m])
    exact hm⟩

end Instances

variable {T} {E F G : Stream → Stream → Prop} {R : α → α → Prop} {S : β → β → Prop}

/-- The two errors are fatal or not alike. -/
theorem Fails.isFatal {e e' : CompileError} {s s' : Stream} (h : T.Fails e s e' s') :
    e'.isFatal = e.isFatal := by
  unfold CompileError.isFatal
  rw [← e'.cause.isFatal_sort, h.sort, e.cause.isFatal_sort]

/-! ## Bounds -/

theorem Fuel.succ {n m : Nat} (h : T.Fuel (n + 1) m) : ∃ k, m = k + 1 ∧ T.Fuel n k := by
  have hle := h.le
  refine ⟨m - 1, by omega, by omega, fun hstrict => ?_⟩
  have heq := h.eq hstrict
  omega

theorem fuel {s s' : Stream} (h : T.entry s s') : T.Fuel s.bound s'.bound :=
  ⟨T.bound_le h, T.bound_eq h⟩

/-! ## Sequences -/

theorem enters_entry : T.Enters T.entry :=
  fun _ _ hs => hs

theorem enters_midway : T.Enters T.midway :=
  fun _ _ hs => T.entry_of_midway hs

theorem exit_of_midway {s s' : Stream} (h : T.midway s s') : T.exit s s' :=
  .inl h

theorem Lost.of_error (h : T.lenient) {e : CompileError} {s : Stream} :
    T.Lost (.error e s : EStateM.Result CompileError Stream α) :=
  ⟨h, trivial⟩

/-- What has been recorded stays recorded. -/
theorem Lost.of_steady (h : T.lenient) {x : Parser α} (hx : Parser.Steady x) {s : Stream}
    (hs : 0 < s.errors.size) : T.Lost (x s) := by
  refine ⟨h, ?_⟩
  cases hrun : x s with
  | ok a s' => exact Nat.lt_of_lt_of_le hs (hx.ok hrun).errors
  | error e s' => trivial

theorem Lost.bind {x : Parser α} {f : α → Parser β} {s : Stream} (h : T.Lost (x s))
    (hf : ∀ a, Parser.Steady (f a)) : T.Lost ((x >>= f) s) := by
  obtain ⟨hlenient, hlost⟩ := h
  cases hrun : x s with
  | ok a s' =>
      rw [hrun] at hlost
      rw [Parser.bind_of_ok hrun]
      exact .of_steady hlenient (hf a) hlost
  | error e s' =>
      rw [Parser.bind_of_error hrun]
      exact .of_error hlenient

theorem Meets.bind [T.Reflexive R] {x y : Parser α} {f g : α → Parser β} {s s' : Stream}
    (hx : T.Meets F R (x s) (y s')) (hf : ∀ a b, R a b → T.Runs F G S (f a) (g b)) :
    T.Meets G S ((x >>= f) s) ((y >>= g) s') := by
  generalize hr : x s = r at hx
  generalize hr' : y s' = r' at hx
  cases hx with
  | ok hab ht =>
      rw [Parser.bind_of_ok hr, Parser.bind_of_ok hr']
      exact (hf _ _ hab).meets _ _ ht
  | error he =>
      rw [Parser.bind_of_error hr, Parser.bind_of_error hr']
      exact .error he
  | lost hlost =>
      subst hr
      exact .lost (hlost.bind fun a => (hf a a (Reflexive.refl hlost.1 a)).steady hlost.1)

theorem Runs.bind [T.Reflexive R] {x y : Parser α} {f g : α → Parser β} (hx : T.Runs E F R x y)
    (hf : ∀ a b, R a b → T.Runs F G S (f a) (g b)) : T.Runs E G S (x >>= f) (y >>= g) :=
  ⟨fun h => Parser.steady_bind (hx.steady h) fun a => (hf a a (Reflexive.refl h a)).steady h,
    fun s s' hs => (hx.meets s s' hs).bind hf⟩

theorem Meets.mono {r r' : EStateM.Result CompileError Stream α} (h : T.Meets F R r r')
    (hF : ∀ s s', F s s' → G s s') : T.Meets G R r r' := by
  cases h with
  | ok hab hs => exact .ok hab (hF _ _ hs)
  | error he => exact .error he
  | lost hlost => exact .lost hlost

theorem Runs.mono {x y : Parser α} (h : T.Runs E F R x y) (hF : ∀ s s', F s s' → G s s') :
    T.Runs E G R x y :=
  ⟨h.steady, fun s s' hs => (h.meets s s' hs).mono hF⟩

/-- What runs from every entry runs from midway. -/
theorem Runs.midway {x y : Parser α} (h : T.Runs T.entry F R x y) : T.Runs T.midway F R x y :=
  ⟨h.steady, fun s s' hs => h.meets s s' (T.entry_of_midway hs)⟩

theorem Runs.ofExit {x y : Parser α} (h : T.Runs T.exit F R x y) : T.Runs T.midway F R x y :=
  ⟨h.steady, fun s s' hs => h.meets s s' (exit_of_midway hs)⟩

theorem Runs.exit {x y : Parser α} (h : T.Runs E T.midway R x y) : T.Runs E T.exit R x y :=
  h.mono fun _ _ => exit_of_midway

theorem runs_pure {a b : α} (h : R a b) : T.Runs E E R (pure a) (pure b) :=
  ⟨fun _ => Parser.steady_pure a, fun _ _ hs => .ok h hs⟩

/-- Readings whose bounds are used up. -/
theorem runs_exhausted (reader : Nat → Parser α) {m : Nat} (hfuel : T.Fuel 0 m)
    (hreader : reader 0 = Parser.failExhausted) (hE : T.Enters E) :
    T.Runs E F R Parser.failExhausted (reader m) := by
  refine ⟨fun _ => Parser.steady_failExhausted, fun s s' hs => ?_⟩
  by_cases hlenient : T.lenient
  · exact .lost (.of_error hlenient)
  · rw [hfuel.eq hlenient, hreader]
    exact .error ⟨hE s s' hs, rfl, rfl, rfl⟩

theorem runs_bounded {reader reader' : Nat → Parser α} (hE : T.Enters E)
    (h : ∀ n m, T.Fuel n m → T.Runs E F R (reader n) (reader' m)) :
    T.Runs E F R (Parser.bounded reader) (Parser.bounded reader') :=
  ⟨fun hlenient =>
      Parser.steady_bounded fun n => (h n n ⟨Nat.le_refl n, fun _ => rfl⟩).steady hlenient,
    fun s s' hs => (h _ _ (fuel (hE s s' hs))).meets s s' hs⟩

/-! ## Steps -/

section Steps

variable {s s' : Stream}

theorem check_eq (h : T.entry s s') (kind : TokenKind) : s'.check kind = s.check kind := by
  unfold Stream.check
  rw [T.kind h]

theorem meets_expected (h : T.entry s s') (expectation : String) :
    T.Meets F R (.error (s.expected expectation) s) (.error (s'.expected expectation) s') :=
  .error ⟨h, rfl, rfl, rfl⟩

/-- A kind that is neither the end nor a semicolon. -/
def Plain (kind : TokenKind) : Prop :=
  ∀ k : TokenKind, (k == kind) = true → k ≠ .eof ∧ k ≠ .sign .semicolon

theorem plain_sign {sign : Sign} (h : sign ≠ .semicolon) : Plain (.sign sign) := by
  intro k hk
  rw [(TokenKind.beq_sign k sign).mp hk]
  exact ⟨by simp, by simpa using h⟩

theorem plain_keyword (word : Keyword) : Plain (.keyword word) := by
  intro k hk
  rw [(TokenKind.beq_keyword k word).mp hk]
  simp

/-- Both readings take a token that is neither the end nor a semicolon. -/
theorem midway_advance (h : T.entry s s') {kind : TokenKind} (hkind : s.kind = kind)
    (heof : kind ≠ .eof) (hsemicolon : kind ≠ .sign .semicolon) :
    T.midway s.advance s'.advance :=
  T.advance h (Parser.isAtEnd_of_kind hkind heof) (hkind ▸ hsemicolon)

theorem midway_of_check (h : T.entry s s') {kind : TokenKind} (hkind : Plain kind)
    (hcheck : s.check kind = true) : T.midway s.advance s'.advance := by
  obtain ⟨heof, hsemicolon⟩ := hkind _ hcheck
  exact midway_advance h rfl heof hsemicolon

/-- The readings behind the current token, which is neither the end nor a semicolon. -/
theorem meets_advance_bind (h : T.entry s s') {kind : TokenKind} (hkind : s.kind = kind)
    (heof : kind ≠ .eof) (hsemicolon : kind ≠ .sign .semicolon) {f g : Token → Parser β}
    (hf : ∀ t t' s s', T.midway s s' → T.Meets F S (f t s) (g t' s')) :
    T.Meets F S ((Parser.advance >>= f) s) ((Parser.advance >>= g) s') :=
  hf s.peek s'.peek _ _ (midway_advance h hkind heof hsemicolon)

/-- Whether a statement may end here is seen alike from both streams. -/
theorem atBoundary_eq (h : T.midway s s') : s'.atBoundary = s.atBoundary := by
  have hkind := T.kind (T.entry_of_midway h)
  unfold Stream.atBoundary
  rw [hkind]
  by_cases hend : s.kind = .eof
  · rw [hend]
    rfl
  · rw [T.lineBreak h (Parser.isAtEnd_of_ne hend)]

end Steps

theorem runs_failExpected (expectation : String) : T.Runs T.midway F R
    (Parser.failExpected expectation) (Parser.failExpected expectation) :=
  ⟨fun _ => Parser.steady_failExpected expectation,
    fun _ _ hs => meets_expected (T.entry_of_midway hs) expectation⟩

theorem runs_accept {kind : TokenKind} (hkind : Plain kind) :
    T.Runs T.midway T.midway Eq (Parser.accept kind) (Parser.accept kind) := by
  refine ⟨fun _ => Parser.steady_accept kind, fun s s' hs => ?_⟩
  have hentry := T.entry_of_midway hs
  unfold Parser.accept
  rw [check_eq hentry]
  split
  · next hcheck => exact .ok rfl (midway_of_check hentry hkind hcheck)
  · exact .ok rfl hs

theorem runs_consume {kind : TokenKind} (hkind : Plain kind) (expectation : String) :
    T.Runs T.entry T.midway anything (Parser.consume kind expectation)
      (Parser.consume kind expectation) := by
  refine ⟨fun _ => Parser.steady_consume kind expectation, fun s s' hs => ?_⟩
  unfold Parser.consume
  rw [check_eq hs]
  split
  · next hcheck => exact .ok trivial (midway_of_check hs hkind hcheck)
  · exact meets_expected hs expectation

theorem runs_boundary (what : String) :
    T.Runs T.midway T.exit Eq (Parser.boundary what) (Parser.boundary what) := by
  refine ⟨fun _ => Parser.steady_boundary what, fun s s' hs => ?_⟩
  have hentry := T.entry_of_midway hs
  unfold Parser.boundary
  rw [check_eq hentry, atBoundary_eq hs]
  split
  · next hcheck => exact .ok rfl (T.semicolon hentry ((s.check_sign .semicolon).mp hcheck))
  · split
    · exact .ok rfl (.inl hs)
    · exact meets_expected hentry _

theorem runs_identifier (expectation : String) :
    T.Runs T.entry T.midway Eq (Parser.identifier expectation) (Parser.identifier expectation) := by
  refine ⟨fun _ => Parser.steady_identifier expectation, fun s s' hs => ?_⟩
  unfold Parser.identifier
  rw [T.kind hs]
  split
  · next hkind => exact .ok rfl (midway_advance hs hkind (by simp) (by simp))
  · exact meets_expected hs expectation

theorem runs_memberName (expectation : String) :
    T.Runs T.entry T.midway T.name (Parser.memberName expectation)
      (Parser.memberName expectation) := by
  refine ⟨fun _ => Parser.steady_memberName expectation, fun s s' hs => ?_⟩
  unfold Parser.memberName
  rw [T.isWord hs]
  split
  · next hword =>
    obtain ⟨hsemicolon, hname⟩ := T.word hs hword
    refine .ok hname (midway_advance hs rfl (fun heof => ?_) hsemicolon)
    have hpeek : s.peek.kind = .eof := heof
    simp [Token.isWord, hpeek] at hword
  · exact meets_expected hs expectation

/-! ## Lists -/

theorem runs_items [T.Reflexive R] {item item' : Parser α}
    (hitem : T.Runs T.midway T.midway R item item') {closing : Sign} (hclosing : closing ≠ .semicolon)
    (context : String) {n m : Nat} (hfuel : T.Fuel n m) {previous previous' : List α}
    (hprevious : List.Forall₂ R previous previous') :
    T.Runs T.midway T.midway (List.Forall₂ R) (Parser.items item closing context n previous)
      (Parser.items item' closing context m previous') := by
  induction n generalizing m previous previous' with
  | zero =>
      exact runs_exhausted (fun m => Parser.items item' closing context m previous') hfuel
        rfl enters_midway
  | succ n ih =>
      obtain ⟨m, rfl, hrest⟩ := hfuel.succ
      refine hitem.bind fun a b hab => (runs_accept (plain_sign (by decide))).bind ?_
      rintro more _ rfl
      cases more with
      | true => exact ih hrest (.cons hab hprevious)
      | false =>
          refine (runs_consume (plain_sign hclosing) _).midway.bind fun _ _ _ => runs_pure ?_
          exact List.rel_reverse (.cons hab hprevious)

theorem runs_commaSeparated [T.Reflexive R] {item item' : Parser α}
    (hitem : T.Runs T.midway T.midway R item item') {closing : Sign} (hclosing : closing ≠ .semicolon)
    (context : String) :
    T.Runs T.midway T.midway (List.Forall₂ R) (Parser.commaSeparated item closing context)
      (Parser.commaSeparated item' closing context) := by
  refine (runs_accept (plain_sign hclosing)).bind ?_
  rintro none _ rfl
  cases none with
  | true => exact runs_pure .nil
  | false =>
      show T.Runs T.midway T.midway _ (Parser.bounded fun n => Parser.items item closing context n [])
        (Parser.bounded fun n => Parser.items item' closing context n [])
      refine runs_bounded enters_midway fun n m hfuel => ?_
      exact runs_items hitem hclosing context hfuel .nil

/-- Lists of names are the same. -/
theorem runs_names (expectation : String) {closing : Sign} (hclosing : closing ≠ .semicolon)
    (context : String) :
    T.Runs T.midway T.midway Eq
      (Parser.commaSeparated (Parser.identifier expectation) closing context)
      (Parser.commaSeparated (Parser.identifier expectation) closing context) := by
  have h := runs_commaSeparated (runs_identifier (T := T) expectation).midway hclosing context
  rwa [List.forall₂_eq_eq_eq] at h

end Tandem

end Lipi
