import Lipi.Parser

set_option autoImplicit false

/-! # What every reader keeps

Whatever a reader gives, **the tokens of its stream stay the same and recorded errors stay
recorded**, also when it fails (`Parser.Steady`). This is proved step by step; beside it stand the
lemmas that take a successful reading apart into its steps (`bind_ok` and the like).
-/

namespace Lipi

namespace Stream

/-- The stream `s'` has the tokens of `s` and no fewer errors. -/
structure Keeps (s s' : Stream) : Prop where
  tokens : s'.tokens = s.tokens
  errors : s.errors.size ≤ s'.errors.size

namespace Keeps

theorem refl (s : Stream) : s.Keeps s :=
  ⟨rfl, Nat.le_refl _⟩

theorem trans {s t u : Stream} (h : s.Keeps t) (h' : t.Keeps u) : s.Keeps u :=
  ⟨h'.tokens.trans h.tokens, Nat.le_trans h.errors h'.errors⟩

theorem advance (s : Stream) : s.Keeps s.advance := by
  unfold Stream.advance
  split <;> exact ⟨rfl, Nat.le_refl _⟩

theorem record (s : Stream) (error : CompileError) : s.Keeps (s.record error) :=
  ⟨rfl, by simp [Stream.record]⟩

theorem settle (n : Nat) (s : Stream) : s.Keeps (Stream.settle n s) := by
  induction n generalizing s with
  | zero => exact refl s
  | succ n ih =>
      rw [Stream.settle]
      split
      · exact refl s
      · exact (advance s).trans (ih s.advance)

theorem synchronize (s : Stream) (insideBlock : Bool) : s.Keeps (s.synchronize insideBlock) := by
  unfold Stream.synchronize
  split
  · exact settle _ s
  · exact (advance s).trans (settle _ s.advance)

theorem recover (s : Stream) (error : CompileError) (insideBlock : Bool) :
    s.Keeps ((s.record error).synchronize insideBlock) :=
  (record s error).trans (synchronize _ insideBlock)

end Keeps

/-- An error stays recorded when reading goes on behind it. -/
theorem errors_lt_recover (s : Stream) (error : CompileError) (insideBlock : Bool) :
    s.errors.size < ((s.record error).synchronize insideBlock).errors.size := by
  -- skipping tokens keeps what has been recorded
  have hrecorded : s.errors.size < (s.record error).errors.size := by
    simp [Stream.record]
  exact Nat.lt_of_lt_of_le hrecorded (Keeps.synchronize _ insideBlock).errors

end Stream

namespace Parser

variable {α β : Type}

/-- The stream that a reading leaves. -/
def streamOf : EStateM.Result CompileError Stream α → Stream
  | .ok _ s => s
  | .error _ s => s

/-- The reader keeps tokens and recorded errors. -/
def Steady (x : Parser α) : Prop :=
  ∀ s : Stream, s.Keeps (streamOf (x s))

theorem Steady.ok {x : Parser α} (h : Steady x) {s s' : Stream} {a : α} (hrun : x s = .ok a s') :
    s.Keeps s' := by
  have hkeeps := h s
  rw [hrun] at hkeeps
  exact hkeeps

theorem Steady.error {x : Parser α} (h : Steady x) {s s' : Stream} {e : CompileError}
    (hrun : x s = .error e s') : s.Keeps s' := by
  have hkeeps := h s
  rw [hrun] at hkeeps
  exact hkeeps

/-! ## Taking a reading apart -/

theorem bind_of_ok {x : Parser α} {f : α → Parser β} {s s' : Stream} {a : α} (h : x s = .ok a s') :
    (x >>= f) s = f a s' := by
  show EStateM.bind x f s = _
  unfold EStateM.bind
  rw [h]

theorem bind_of_error {x : Parser α} {f : α → Parser β} {s s' : Stream} {e : CompileError}
    (h : x s = .error e s') : (x >>= f) s = .error e s' := by
  show EStateM.bind x f s = _
  unfold EStateM.bind
  rw [h]

theorem bind_ok {x : Parser α} {f : α → Parser β} {s s'' : Stream} {b : β}
    (h : (x >>= f) s = .ok b s'') : ∃ a s', x s = .ok a s' ∧ f a s' = .ok b s'' := by
  cases hrun : x s with
  | ok a s' =>
      rw [bind_of_ok hrun] at h
      exact ⟨a, s', rfl, h⟩
  | error e s' =>
      rw [bind_of_error hrun] at h
      cases h

theorem pure_ok {a b : α} {s s' : Stream} (h : (pure a : Parser α) s = .ok b s') :
    b = a ∧ s' = s := by
  cases h
  exact ⟨rfl, rfl⟩

theorem accept_ok {kind : TokenKind} {s s' : Stream} {b : Bool}
    (h : accept kind s = .ok b s') :
    (b = true ∧ s.check kind = true ∧ s' = s.advance) ∨
      (b = false ∧ s.check kind = false ∧ s' = s) := by
  unfold accept at h
  split at h
  · next hcheck =>
    cases h
    exact Or.inl ⟨rfl, hcheck, rfl⟩
  · next hcheck =>
    cases h
    exact Or.inr ⟨rfl, Bool.eq_false_iff.mpr hcheck, rfl⟩

theorem identifier_ok {expectation name : String} {s s' : Stream}
    (h : identifier expectation s = .ok name s') : s.kind = .identifier name ∧ s' = s.advance := by
  unfold identifier at h
  split at h
  · next heq =>
    cases h
    exact ⟨heq, rfl⟩
  · cases h

theorem memberName_ok {expectation name : String} {s s' : Stream}
    (h : memberName expectation s = .ok name s') :
    s.peek.isWord = true ∧ name = s.peek.lexeme ∧ s' = s.advance := by
  unfold memberName at h
  split at h
  · next hword =>
    cases h
    exact ⟨hword, rfl, rfl⟩
  · cases h

/-! ## Steps -/

theorem steady_pure (a : α) : Steady (pure a : Parser α) :=
  fun s => .refl s

theorem steady_get : Steady (get : Parser Stream) :=
  fun s => .refl s

theorem steady_bind {x : Parser α} {f : α → Parser β} (hx : Steady x) (hf : ∀ a, Steady (f a)) :
    Steady (x >>= f) := by
  intro s
  cases hrun : x s with
  | ok a s' =>
      rw [bind_of_ok hrun]
      exact (hx.ok hrun).trans (hf a s')
  | error e s' =>
      rw [bind_of_error hrun]
      exact hx.error hrun

theorem steady_bounded {reader : Nat → Parser α} (h : ∀ n, Steady (reader n)) :
    Steady (bounded reader) :=
  fun s => h s.bound s

theorem steady_failExhausted : Steady (failExhausted : Parser α) :=
  fun s => .refl s

theorem steady_failExpected (expectation : String) : Steady (failExpected expectation : Parser α) :=
  fun s => .refl s

theorem steady_advance : Steady advance :=
  fun s => .advance s

theorem steady_accept (kind : TokenKind) : Steady (accept kind) := by
  intro s
  unfold accept
  split
  · exact .advance s
  · exact .refl s

theorem steady_consume (kind : TokenKind) (expectation : String) :
    Steady (consume kind expectation) := by
  intro s
  unfold consume
  split
  · exact .advance s
  · exact .refl s

theorem steady_boundary (what : String) : Steady (boundary what) := by
  intro s
  unfold boundary
  split
  · exact .advance s
  · split <;> exact .refl s

theorem steady_identifier (expectation : String) : Steady (identifier expectation) := by
  intro s
  unfold identifier
  split
  · exact .advance s
  · exact .refl s

theorem steady_memberName (expectation : String) : Steady (memberName expectation) := by
  intro s
  unfold memberName
  split
  · exact .advance s
  · exact .refl s

theorem steady_items {item : Parser α} (h : Steady item) (closing : Sign) (context : String)
    (n : Nat) (previous : List α) : Steady (items item closing context n previous) := by
  induction n generalizing previous with
  | zero => exact steady_failExhausted
  | succ n ih =>
      refine steady_bind h fun x => steady_bind (steady_accept _) fun more => ?_
      cases more with
      | true => exact ih (x :: previous)
      | false => exact steady_bind (steady_consume _ _) fun _ => steady_pure _

theorem steady_commaSeparated {item : Parser α} (h : Steady item) (closing : Sign)
    (context : String) : Steady (commaSeparated item closing context) := by
  refine steady_bind (steady_accept _) fun none => ?_
  cases none with
  | true => exact steady_pure _
  | false => exact steady_bounded fun n => steady_items h closing context n []

/-- What the elements of a list satisfy if every single reading of one satisfies it. -/
theorem forall_of_items {item : Parser α} {P : α → Prop} (hsteady : Steady item) {tokens : Array Token}
    (h : ∀ s x s', s.tokens = tokens → item s = .ok x s' → P x) {closing : Sign} {context : String}
    {n : Nat} {previous : List α} (hprevious : ∀ x ∈ previous, P x) {s s' : Stream} {xs : List α}
    (hs : s.tokens = tokens) (hrun : items item closing context n previous s = .ok xs s') :
    ∀ x ∈ xs, P x := by
  induction n generalizing previous s with
  | zero => cases hrun
  | succ n ih =>
      obtain ⟨x, s₁, hitem, hrun⟩ := bind_ok hrun
      have hx : ∀ y ∈ x :: previous, P y := by
        intro y hy
        rcases List.mem_cons.mp hy with rfl | hy
        · exact h s y s₁ hs hitem
        · exact hprevious y hy
      obtain ⟨more, s₂, haccept, hrun⟩ := bind_ok hrun
      have hs₂ : s₂.tokens = tokens := by
        rw [((steady_accept _).ok haccept).tokens, (hsteady.ok hitem).tokens, hs]
      cases more with
      | true => exact ih hx hs₂ hrun
      | false =>
          obtain ⟨_, s₃, _, hrun⟩ := bind_ok hrun
          obtain ⟨rfl, _⟩ := pure_ok hrun
          exact fun y hy => hx y (List.mem_reverse.mp hy)

theorem forall_of_commaSeparated {item : Parser α} {P : α → Prop} (hsteady : Steady item)
    {tokens : Array Token} (h : ∀ s x s', s.tokens = tokens → item s = .ok x s' → P x)
    {closing : Sign} {context : String} {s s' : Stream} {xs : List α} (hs : s.tokens = tokens)
    (hrun : commaSeparated item closing context s = .ok xs s') : ∀ x ∈ xs, P x := by
  obtain ⟨none, s₁, haccept, hrun⟩ := bind_ok hrun
  have hs₁ : s₁.tokens = tokens := by
    rw [((steady_accept _).ok haccept).tokens, hs]
  cases none with
  | true =>
      obtain ⟨rfl, _⟩ := pure_ok hrun
      exact fun x hx => absurd hx List.not_mem_nil
  | false => exact forall_of_items hsteady h (fun x hx => absurd hx List.not_mem_nil) hs₁ hrun

end Parser

end Lipi
