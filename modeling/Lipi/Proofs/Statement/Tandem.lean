import Lipi.Proofs.Expr.Tandem
import Lipi.Proofs.Statement.Reading

set_option autoImplicit false

/-! # Statements read in step

**The readers of statements give statements that are the same up to positions and the names of
members and methods** wherever two streams are read in step, and so do the loops over blocks and
classes, which go on behind errors (`runs_declaration`). Only behind a statement the left stream may
have ended while the right one goes on. A block is not closed there, so the left reading fails and is
not followed; and a conditional has no `else` in either stream.
-/

namespace Lipi

namespace Tandem

open Lipi.Parser

variable {T : Tandem} {α β : Type} {F : Stream → Stream → Prop} {S : β → β → Prop}

/-! ## Blocks -/

theorem endsBlock_eq {s s' : Stream} (h : T.entry s s') : endsBlock s' = endsBlock s := by
  unfold endsBlock
  rw [T.kind h]

/-- What is the same for one reading is the same for all that follows. -/
theorem bind_congr_at {x y : Parser α} {f : α → Parser β} {s t : Stream} (h : x s = y t) :
    (x >>= f) s = (y >>= f) t := by
  show EStateM.bind x f s = EStateM.bind y f t
  unfold EStateM.bind
  rw [h]

theorem midway_of_exit (h : ¬T.lenient) {s s' : Stream} (hs : T.exit s s') : T.midway s s' :=
  hs.resolve_right fun hbeyond => h (T.of_beyond hbeyond).1

/-- Where a block goes on, neither stream has ended. -/
theorem midway_of_goesOn {s s' : Stream} (hs : T.exit s s') (hends : ¬endsBlock s = true) :
    T.midway s s' := by
  refine hs.resolve_right fun hbeyond => hends ?_
  unfold endsBlock
  rw [(s.isAtEnd_iff).mp (T.of_beyond hbeyond).2.1]

/-- A bound is the same for a reader and for what follows it. -/
theorem bounded_bind {reader : Nat → Parser α} {f : α → Parser β} :
    (bounded reader >>= f) = bounded fun n => reader n >>= f :=
  rfl

/-! ### Loops up to a closing brace -/

/-- The closing brace behind what has been read, and what follows. -/
def closing (expectation : String) (f : α → Parser β) (a : α) : Parser β :=
  consume (.sign .rightBrace) expectation >>= fun _ => f a

/-- What has been read in braces, when the loop over it has ended and the closing brace is due. -/
theorem meets_closing {R : α → α → Prop} {x y : Parser α} {a b : α} {s s' : Stream}
    (hs : T.exit s s') (hx : x s = .ok a s) (hy : T.midway s s' → y s' = .ok b s') (hab : R a b)
    (expectation : String) {f g : α → Parser β}
    (hf : ∀ a b, R a b → T.Runs T.midway F S (f a) (g b)) :
    T.Meets F S ((x >>= closing expectation f) s) ((y >>= closing expectation g) s') := by
  rw [bind_of_ok hx]
  rcases hs with hs | hbeyond
  · rw [bind_of_ok (hy hs)]
    have hplain : Plain (.sign .rightBrace) := plain_sign (by decide)
    have hconsume := (runs_consume (T := T) hplain expectation).midway
    exact (hconsume.meets s s' hs).bind fun _ _ _ => hf a b hab
  · -- at the end there is no closing brace
    obtain ⟨hlenient, hend, -⟩ := T.of_beyond hbeyond
    have hcheck : ¬s.check (.sign .rightBrace) = true := by
      rw [s.check_sign, (s.isAtEnd_iff).mp hend]
      simp
    have hconsume : consume (.sign .rightBrace) expectation s = .error (s.expected expectation) s :=
      if_neg hcheck
    unfold closing
    rw [bind_of_error hconsume]
    exact .lost (.of_error hlenient)

/-- A loop over what stands in braces: it gives what it has read where the block ends. -/
structure Braced (loop : Nat → List α → Parser (List α)) : Prop where
  exhausted : ∀ previous, loop 0 previous = failExhausted
  ends : ∀ n previous s, endsBlock s = true → loop (n + 1) previous s = .ok previous.reverse s

/-- **Loops up to a closing brace are read in step if each round is.** -/
theorem runs_braced {R : α → α → Prop} [T.Reflexive R] {loop loop' : Nat → List α → Parser (List α)}
    (hloop : Braced loop) (hloop' : Braced loop')
    (hsteady : T.lenient → ∀ n previous, Steady (loop n previous)) (expectation : String)
    {f g : List α → Parser β}
    (hf : ∀ as bs, List.Forall₂ R as bs → T.Runs T.midway F S (f as) (g bs))
    (hround : ∀ {n m : Nat} {previous previous' : List α} {s s' : Stream},
      List.Forall₂ R previous previous' → T.midway s s' → ¬endsBlock s = true →
      ¬endsBlock s' = true →
      (∀ {previous previous' : List α}, List.Forall₂ R previous previous' →
        T.Runs T.exit F S (loop n previous >>= closing expectation f)
          (loop' m previous' >>= closing expectation g)) →
      T.Meets F S ((loop (n + 1) previous >>= closing expectation f) s)
        ((loop' (m + 1) previous' >>= closing expectation g) s'))
    {n m : Nat} (hfuel : T.Fuel n m) {previous previous' : List α}
    (hprevious : List.Forall₂ R previous previous') :
    T.Runs T.exit F S (loop n previous >>= closing expectation f)
      (loop' m previous' >>= closing expectation g) := by
  -- that the readers are steady matters only where runs may part
  have hwhole : T.lenient → ∀ n previous, Steady (loop n previous >>= closing expectation f) :=
    fun h n previous => steady_bind (hsteady h n previous) fun as =>
      steady_bind (steady_consume _ _) fun _ => (hf as as (Reflexive.refl h as)).steady h
  induction n generalizing m previous previous' with
  | zero =>
      refine ⟨fun h => hwhole h 0 previous, fun s s' hs => ?_⟩
      -- the left loop is out of fuel: the right one is too, unless the runs may part here
      rw [hloop.exhausted]
      by_cases hlenient : T.lenient
      · exact .lost (.of_error hlenient)
      · rw [hfuel.eq hlenient, hloop'.exhausted]
        exact .error ⟨T.entry_of_midway (midway_of_exit hlenient hs), rfl, rfl, rfl⟩
  | succ n ih =>
      -- both loops see the closing brace in the same round
      obtain ⟨m, rfl, hrest⟩ := hfuel.succ
      refine ⟨fun h => hwhole h (n + 1) previous, fun s s' hs => ?_⟩
      by_cases hends : endsBlock s = true
      · refine meets_closing hs (hloop.ends n previous s hends) (fun hs => ?_)
          (List.rel_reverse hprevious) expectation hf
        exact hloop'.ends m previous' s' ((endsBlock_eq (T.entry_of_midway hs)).trans hends)
      · have hs := midway_of_goesOn hs hends
        have hends' : ¬endsBlock s' = true := by
          rw [endsBlock_eq (T.entry_of_midway hs)]
          exact hends
        exact hround hprevious hs hends hends' fun h => ih hrest h

/-! ### Rounds of a block -/

section Rounds

variable {nested : Parser Statement} {n : Nat} {previous : List Statement} {s t : Stream}
  (hends : ¬endsBlock s = true)

include hends

theorem blockBody_of_ok {statement : Statement} (hrun : nested s = .ok statement t) :
    blockBody nested (n + 1) previous s = blockBody nested n (statement :: previous) t := by
  simp only [blockBody, if_neg hends, hrun]

theorem blockBody_of_fatal {e : CompileError} (hrun : nested s = .error e t)
    (hfatal : e.isFatal = true) : blockBody nested (n + 1) previous s = .error e t := by
  simp only [blockBody, if_neg hends, hrun, hfatal, if_true]

theorem blockBody_of_error {e : CompileError} (hrun : nested s = .error e t)
    (hfatal : ¬e.isFatal = true) : blockBody nested (n + 1) previous s =
      blockBody nested n previous ((t.record e).synchronize true) := by
  simp only [blockBody, if_neg hends, hrun, if_neg hfatal]

/-- Where a statement of a block is lost, so is what follows it. -/
theorem Lost.blockBody {f : List Statement → Parser β}
    (hsteady : ∀ previous, Steady (Parser.blockBody nested n previous >>= f))
    (hlost : T.Lost (nested s)) :
    T.Lost ((Parser.blockBody nested (n + 1) previous >>= f) s) := by
  obtain ⟨hlenient, hlost⟩ := hlost
  cases hrun : nested s with
  | ok statement t =>
      rw [hrun] at hlost
      rw [bind_congr_at (blockBody_of_ok hends hrun)]
      exact .of_steady hlenient (hsteady _) hlost
  | error e t =>
      by_cases hfatal : e.isFatal = true
      · rw [bind_of_error (blockBody_of_fatal hends hrun hfatal)]
        exact .of_error hlenient
      · -- the error has been recorded
        rw [bind_congr_at (blockBody_of_error hends hrun hfatal)]
        have hrecorded := Nat.zero_lt_of_lt (t.errors_lt_recover e true)
        exact .of_steady hlenient (hsteady _) hrecorded

end Rounds

section Nested

variable {nested nested' : Parser Statement}
  (hnested : T.Runs T.entry T.exit (Statement.Renamed T.name) nested nested')

include hnested

omit hnested in
theorem braced_blockBody : Braced (blockBody nested) where
  exhausted _ := rfl
  ends n previous s hends := by simp only [blockBody, hends, if_true]

/-- The statements of a block and its closing brace. -/
theorem runs_blockBody {n m : Nat} (hfuel : T.Fuel n m) {previous previous' : List Statement}
    (hprevious : List.Forall₂ (Statement.Renamed T.name) previous previous') (expectation : String)
    {f g : List Statement → Parser β}
    (hf : ∀ ss ss', List.Forall₂ (Statement.Renamed T.name) ss ss' →
      T.Runs T.midway F S (f ss) (g ss')) :
    T.Runs T.exit F S (blockBody nested n previous >>= closing expectation f)
      (blockBody nested' m previous' >>= closing expectation g) := by
  refine runs_braced braced_blockBody braced_blockBody
    (fun h => steady_blockBody (hnested.steady h)) expectation hf ?_ hfuel hprevious
  intro n m previous previous' s s' hprevious hs hends hends' hnext
  have hround := hnested.midway.meets s s' hs
  by_cases hlost : T.Lost (nested s)
  · refine .lost (hlost.blockBody hends fun previous => ?_)
    exact (hnext (Reflexive.refl hlost.1 previous)).steady hlost.1
  generalize hr : nested s = r at hround hlost
  generalize hr' : nested' s' = r' at hround
  cases hround with
  | ok hab ht =>
      rw [bind_congr_at (blockBody_of_ok hends hr), bind_congr_at (blockBody_of_ok hends' hr')]
      exact (hnext (.cons hab hprevious)).meets _ _ ht
  | @error e e' t t' he =>
      by_cases hfatal : e.isFatal = true
      · have hfatal' : e'.isFatal = true := he.isFatal.trans hfatal
        rw [bind_of_error (blockBody_of_fatal hends hr hfatal),
          bind_of_error (blockBody_of_fatal hends' hr' hfatal')]
        exact .error he
      · have hfatal' : ¬e'.isFatal = true := he.isFatal ▸ hfatal
        rw [bind_congr_at (blockBody_of_error hends hr hfatal),
          bind_congr_at (blockBody_of_error hends' hr' hfatal')]
        have hplace := T.recover (fun hlenient => hlost (.of_error hlenient)) he.entry he.position
          he.position' he.sort (by simpa using hfatal) true
        exact (hnext hprevious).meets _ _ (.inl hplace)
  | lost h => exact absurd h hlost

theorem runs_blockOf (context : String) :
    T.Runs T.entry T.midway (pair anything (List.Forall₂ (Statement.Renamed T.name)))
      (blockOf nested context) (blockOf nested' context) := by
  refine (runs_consume (plain_sign (by decide)) _).bind fun start start' _ => ?_
  rw [bounded_bind, bounded_bind]
  refine runs_bounded enters_midway fun n m hfuel => ?_
  exact (runs_blockBody hnested hfuel .nil _ fun _ _ h => runs_pure ⟨trivial, h⟩).ofExit

theorem runs_routine (what : String) :
    T.Runs T.entry T.midway (pair Eq (List.Forall₂ (Statement.Renamed T.name)))
      (routine nested what) (routine nested' what) := by
  refine (runs_consume (plain_sign (by decide)) _).bind fun _ _ _ => ?_
  refine (runs_names _ (by decide) _).bind ?_
  rintro parameters _ rfl
  refine (runs_blockOf hnested _).midway.bind ?_
  rintro ⟨_, body⟩ ⟨_, body'⟩ ⟨-, hbody⟩
  exact runs_pure ⟨rfl, hbody⟩

/-! ## Classes -/

omit hnested in
/-- Where there is nothing more, or a semicolon, there is no modifier. -/
theorem methodModifiers_stop {n : Nat} {access : Access} {isStatic : Bool} {s : Stream}
    (h : s.kind = .eof ∨ s.kind = .sign .semicolon) :
    methodModifiers (n + 1) access isStatic s = .ok (access, isStatic) s := by
  simp only [methodModifiers]
  split
  · rfl
  · rcases h with h | h <;> simp only [h]

omit hnested in
theorem runs_methodModifiers {n m : Nat} (hfuel : T.Fuel n m) (access : Access) (isStatic : Bool) :
    T.Runs T.midway T.midway Eq (methodModifiers n access isStatic)
      (methodModifiers m access isStatic) := by
  induction n generalizing m access isStatic with
  | zero =>
      exact runs_exhausted (fun m => methodModifiers m access isStatic) hfuel rfl
        enters_midway
  | succ n ih =>
      obtain ⟨m, rfl, hrest⟩ := hfuel.succ
      refine ⟨fun _ => steady_methodModifiers _ access isStatic, fun s s' hs => ?_⟩
      have hentry := T.entry_of_midway hs
      by_cases hstop : s.kind = .eof ∨ s.kind = .sign .semicolon
      · rw [methodModifiers_stop hstop, methodModifiers_stop (by rwa [T.kind hentry])]
        exact .ok rfl hs
      obtain ⟨heof, hsemicolon⟩ := not_or.mp hstop
      have hnext := fun access isStatic =>
        (ih hrest access isStatic).meets _ _ (midway_advance hentry rfl heof hsemicolon)
      simp only [methodModifiers]
      rw [T.nextKind hentry (isAtEnd_of_ne heof) hsemicolon, T.kind hentry]
      split
      · exact .ok rfl hs
      · split
        · exact hnext _ _
        · exact hnext _ _
        · exact hnext _ _
        · exact hnext _ _
        · exact .ok rfl hs

omit hnested in
theorem runs_skipFunctionWord :
    T.Runs T.midway T.midway Eq skipFunctionWord skipFunctionWord := by
  refine ⟨fun _ => steady_skipFunctionWord, fun s s' hs => ?_⟩
  have hentry := T.entry_of_midway hs
  by_cases hkaam : s.kind = .keyword .kaam
  · have hnext : s'.nextKind = s.nextKind :=
      T.nextKind hentry (isAtEnd_of_kind hkaam (by simp)) (by simp [hkaam])
    unfold skipFunctionWord
    rw [hnext, T.kind hentry]
    split
    · exact .ok rfl hs
    · exact .ok rfl (midway_advance hentry hkaam (by simp) (by simp))
    · exact .ok rfl hs
  · have hother : ∀ t : Stream, t.kind ≠ .keyword .kaam → skipFunctionWord t = .ok () t := by
      intro t ht
      unfold skipFunctionWord
      split
      · rfl
      · next h _ => exact absurd h ht
      · rfl
    rw [hother s hkaam, hother s' (by rwa [T.kind hentry])]
    exact .ok rfl hs

theorem runs_method :
    T.Runs T.midway T.midway (Method.Renamed T.name) (method nested) (method nested') := by
  refine ⟨fun h => steady_method (hnested.steady h), fun s s' hs => ?_⟩
  have hroutine := (runs_routine hnested "method").midway
  have hmodifiers : T.Runs T.midway T.midway Eq (bounded fun n => methodModifiers n .sabka false)
      (bounded fun n => methodModifiers n .sabka false) :=
    runs_bounded enters_midway fun n m hfuel => runs_methodModifiers hfuel _ _
  refine Meets.bind (x := bounded fun n => methodModifiers n .sabka false)
    (hmodifiers.meets s s' hs) ?_
  rintro ⟨access, isStatic⟩ _ rfl
  refine runs_skipFunctionWord.bind fun _ _ _ => ?_
  refine (runs_accept (plain_keyword .nirmaan)).bind ?_
  rintro constructor _ rfl
  cases constructor with
  | true =>
      refine hroutine.bind ?_
      rintro ⟨parameters, body⟩ ⟨_, body'⟩ ⟨hparameters, hbody⟩
      obtain rfl : parameters = _ := hparameters
      exact runs_pure (.constructor hbody)
  | false =>
      refine (runs_memberName _).midway.bind fun name name' hname => hroutine.bind ?_
      rintro ⟨parameters, body⟩ ⟨_, body'⟩ ⟨hparameters, hbody⟩
      obtain rfl : parameters = _ := hparameters
      exact runs_pure (.method hname hbody)

omit hnested in
/-- A round of the loop over the methods of a class. -/
theorem classBody_succ (n : Nat) (previous : List Method) (s : Stream) :
    classBody nested (n + 1) previous s =
      if endsBlock s then .ok previous.reverse s
      else if s.check (.sign .semicolon) then classBody nested n previous s.advance
      else (method nested >>= fun m => classBody nested n (m :: previous)) s := by
  simp only [classBody]
  split
  · rfl
  · split
    · rfl
    · exact eq_bind (fun _ _ hrun => by rw [hrun]) (fun _ _ hrun => by rw [hrun])

omit hnested in
theorem braced_classBody : Braced (classBody nested) where
  exhausted _ := rfl
  ends n previous s hends := by rw [classBody_succ, if_pos hends]

/-- The methods of a class and its closing brace. -/
theorem runs_classBody {n m : Nat} (hfuel : T.Fuel n m) {previous previous' : List Method}
    (hprevious : List.Forall₂ (Method.Renamed T.name) previous previous') (expectation : String)
    {f g : List Method → Parser β}
    (hf : ∀ ms ms', List.Forall₂ (Method.Renamed T.name) ms ms' →
      T.Runs T.midway F S (f ms) (g ms')) :
    T.Runs T.exit F S (classBody nested n previous >>= closing expectation f)
      (classBody nested' m previous' >>= closing expectation g) := by
  refine runs_braced braced_classBody braced_classBody
    (fun h => steady_classBody (hnested.steady h)) expectation hf ?_ hfuel hprevious
  intro n m previous previous' s s' hprevious hs hends hends' hnext
  have hentry := T.entry_of_midway hs
  by_cases hsemicolon : s.check (.sign .semicolon) = true
  · have hx : classBody nested (n + 1) previous s = classBody nested n previous s.advance := by
      rw [classBody_succ, if_neg hends, if_pos hsemicolon]
    have hy : classBody nested' (m + 1) previous' s' = classBody nested' m previous' s'.advance := by
      rw [classBody_succ, if_neg hends', if_pos ((check_eq hentry _).trans hsemicolon)]
    rw [bind_congr_at hx, bind_congr_at hy]
    have hplace := T.semicolon hentry ((s.check_sign .semicolon).mp hsemicolon)
    exact (hnext hprevious).meets _ _ hplace
  · have hsemicolon' : ¬s'.check (.sign .semicolon) = true := by
      rw [check_eq hentry]
      exact hsemicolon
    have hx : classBody nested (n + 1) previous s =
        (method nested >>= fun m => classBody nested n (m :: previous)) s := by
      rw [classBody_succ, if_neg hends, if_neg hsemicolon]
    have hy : classBody nested' (m + 1) previous' s' =
        (method nested' >>= fun m' => classBody nested' m (m' :: previous')) s' := by
      rw [classBody_succ, if_neg hends', if_neg hsemicolon']
    rw [bind_congr_at hx, bind_congr_at hy, bind_assoc, bind_assoc]
    refine ((runs_method hnested).meets s s' hs).bind fun _ _ h => ?_
    exact (hnext (.cons h hprevious)).ofExit

omit hnested in
theorem runs_superclassName? : T.Runs T.midway T.midway Eq superclassName? superclassName? := by
  refine (runs_accept (plain_keyword .virasat)).bind ?_
  rintro more _ rfl
  cases more with
  | true =>
      refine (runs_identifier _).midway.bind ?_
      rintro name _ rfl
      exact runs_pure rfl
  | false => exact runs_pure rfl

end Nested

/-! ## Statements -/

/-- An `else` stands in both streams or in neither. -/
theorem runs_else_bind {f g : Bool → Parser β} (htrue : T.Runs T.midway F S (f true) (g true))
    (hfalse : T.Runs T.exit F S (f false) (g false)) :
    T.Runs T.exit F S (accept (.keyword .warna) >>= f) (accept (.keyword .warna) >>= g) := by
  refine ⟨fun h => steady_bind (steady_accept _) fun more => ?_, fun s s' hs => ?_⟩
  · cases more with
    | true => exact htrue.steady h
    | false => exact hfalse.steady h
  have hcheck : s'.check (.keyword .warna) = s.check (.keyword .warna) := by
    obtain hs | hbeyond := hs
    · exact check_eq (T.entry_of_midway hs) _
    · obtain ⟨-, hend, hnone⟩ := T.of_beyond hbeyond
      rw [Bool.eq_iff_iff, s.check_keyword, s'.check_keyword, (s.isAtEnd_iff).mp hend]
      simp [hnone]
  cases hwarna : s.check (.keyword .warna) with
  | true =>
      have hx : accept (.keyword .warna) s = .ok true s.advance := if_pos hwarna
      have hy : accept (.keyword .warna) s' = .ok true s'.advance := if_pos (hcheck.trans hwarna)
      rw [bind_of_ok hx, bind_of_ok hy]
      have hkind := (s.check_keyword .warna).mp hwarna
      have hs := hs.resolve_right fun hbeyond => by
        have hend := (T.of_beyond hbeyond).2.1
        rw [s.isAtEnd_iff, hkind] at hend
        cases hend
      exact htrue.meets _ _ (midway_advance (T.entry_of_midway hs) hkind (by simp) (by simp))
  | false =>
      have hx : accept (.keyword .warna) s = .ok false s := if_neg (by simp [hwarna])
      have hy : accept (.keyword .warna) s' = .ok false s' := if_neg (by simp [hcheck, hwarna])
      rw [bind_of_ok hx, bind_of_ok hy]
      exact hfalse.meets _ _ hs

theorem meets_get_bind {f g : Stream → Parser β} {s s' : Stream}
    (h : T.Meets F S (f s s) (g s' s')) : T.Meets F S ((get >>= f) s) ((get >>= g) s') :=
  h

/-! The readers of this section stand at the word with which a construct starts. -/

section Keyword

variable {s s' : Stream} (hs : T.entry s s') {word : Keyword} (hkind : s.kind = .keyword word)

include hs hkind

theorem meets_functionDecl {nested nested' : Parser Statement}
    (hnested : T.Runs T.entry T.exit (Statement.Renamed T.name) nested nested') :
    T.Meets T.exit (Statement.Renamed T.name) (functionDecl nested s) (functionDecl nested' s') := by
  refine meets_advance_bind hs hkind (by simp) (by simp) fun _ _ s s' hs => ?_
  refine Meets.bind (x := identifier _) ((runs_identifier _).midway.meets s s' hs) ?_
  rintro name _ rfl
  refine (runs_routine hnested _).midway.bind ?_
  rintro ⟨parameters, body⟩ ⟨_, body'⟩ ⟨hparameters, hbody⟩
  obtain rfl : parameters = _ := hparameters
  exact (runs_pure (.function hbody)).exit

theorem meets_classDeclOf {nested nested' : Parser Statement}
    (hnested : T.Runs T.entry T.exit (Statement.Renamed T.name) nested nested') :
    T.Meets T.exit (Statement.Renamed T.name) (classDeclOf nested s) (classDeclOf nested' s') := by
  refine meets_advance_bind hs hkind (by simp) (by simp) fun start start' s s' hs => ?_
  refine Meets.bind (x := identifier _) ((runs_identifier _).midway.meets s s' hs) ?_
  rintro name _ rfl
  refine runs_superclassName?.bind ?_
  rintro superclass _ rfl
  refine (runs_consume (plain_sign (by decide)) _).midway.bind fun _ _ _ => ?_
  rw [bounded_bind, bounded_bind]
  refine runs_bounded enters_midway fun n m hfuel => ?_
  exact (runs_classBody hnested hfuel .nil _ fun _ _ h => (runs_pure (.classDecl h)).exit).ofExit

theorem meets_bindingDecl (constant : Bool) :
    T.Meets T.exit (Statement.Renamed T.name) (bindingDecl constant s) (bindingDecl constant s') := by
  refine meets_advance_bind hs hkind (by simp) (by simp) fun _ _ s s' hs => ?_
  refine Meets.bind (x := identifier _) ((runs_identifier _).midway.meets s s' hs) ?_
  rintro name _ rfl
  refine (runs_consume (plain_sign (by decide)) _).midway.bind fun _ _ _ => ?_
  refine runs_expression.midway.bind fun _ _ h => ?_
  exact (runs_boundary _).bind fun _ _ _ => runs_pure (.binding h)

theorem meets_returnStatement :
    T.Meets T.exit (Statement.Renamed T.name) (returnStatement s) (returnStatement s') := by
  refine meets_advance_bind hs hkind (by simp) (by simp) fun start start' s s' hs => ?_
  refine meets_get_bind ?_
  rw [atBoundary_eq hs]
  split
  · exact ((runs_boundary _).meets s s' hs).bind fun _ _ _ => runs_pure .giveBackNothing
  · refine Meets.bind (runs_expression.midway.meets s s' hs) fun _ _ h => ?_
    exact (runs_boundary _).bind fun _ _ _ => runs_pure (.giveBack h)

theorem meets_printStatement :
    T.Meets T.exit (Statement.Renamed T.name) (printStatement s) (printStatement s') := by
  refine meets_advance_bind hs hkind (by simp) (by simp) fun _ _ s s' hs => ?_
  refine Meets.bind (runs_expression.midway.meets s s' hs) fun _ _ h => ?_
  exact (runs_boundary _).bind fun _ _ _ => runs_pure (.print h)

theorem meets_importStatement :
    T.Meets T.exit (Statement.Renamed T.name) (importStatement s) (importStatement s') := by
  have hsource : T.Runs T.midway T.midway Eq moduleName moduleName := by
    refine ⟨fun _ => steady_moduleName, fun s s' hs => ?_⟩
    have hentry := T.entry_of_midway hs
    unfold moduleName
    rw [T.kind hentry]
    split
    · next hkind => exact .ok rfl (midway_advance hentry hkind (by simp) (by simp))
    · exact meets_expected hentry _
  refine meets_advance_bind hs hkind (by simp) (by simp) fun _ _ s s' hs => ?_
  refine Meets.bind (x := consume _ _)
    ((runs_consume (plain_sign (by decide)) _).midway.meets s s' hs) fun _ _ _ => ?_
  refine (runs_names _ (by decide) _).bind ?_
  rintro names _ rfl
  refine (runs_consume (plain_keyword .se) _).midway.bind fun _ _ _ => hsource.bind ?_
  rintro source _ rfl
  exact (runs_boundary _).bind fun _ _ _ => runs_pure .importNames

theorem meets_conditionalStatement {nested nested' : Parser Statement}
    (hnested : T.Runs T.entry T.exit (Statement.Renamed T.name) nested nested') :
    T.Meets T.exit (Statement.Renamed T.name) (conditionalStatement nested s)
      (conditionalStatement nested' s') := by
  refine meets_advance_bind hs hkind (by simp) (by simp) fun start start' s s' hs => ?_
  refine Meets.bind (runs_condition.midway.meets s s' hs) fun c c' hc => ?_
  refine hnested.midway.bind fun t t' ht => runs_else_bind ?_ (runs_pure (.onlyIf hc ht))
  exact hnested.midway.bind fun _ _ he => runs_pure (.ifElse hc ht he)

theorem meets_loopStatement {nested nested' : Parser Statement}
    (hnested : T.Runs T.entry T.exit (Statement.Renamed T.name) nested nested') :
    T.Meets T.exit (Statement.Renamed T.name) (loopStatement nested s) (loopStatement nested' s') := by
  refine meets_advance_bind hs hkind (by simp) (by simp) fun _ _ s s' hs => ?_
  refine Meets.bind (runs_condition.midway.meets s s' hs) fun _ _ hc => ?_
  exact hnested.midway.bind fun _ _ hbody => runs_pure (.loop hc hbody)

theorem meets_exportStatement {nested nested' : Parser Statement}
    (hnested : T.Runs T.entry T.exit (Statement.Renamed T.name) nested nested') :
    T.Meets T.exit (Statement.Renamed T.name) (exportStatement nested s)
      (exportStatement nested' s') := by
  refine meets_advance_bind hs hkind (by simp) (by simp) fun start start' s s' hs => ?_
  have hentry := T.entry_of_midway hs
  have hdeclaration : T.Meets T.exit (Statement.Renamed T.name)
      ((nested >>= fun declaration => pure (Statement.exportDecl declaration start.position)) s)
      ((nested' >>= fun declaration => pure (Statement.exportDecl declaration start'.position)) s') :=
    (hnested.meets s s' hentry).bind fun _ _ h => runs_pure (.exportDecl h)
  refine meets_get_bind ?_
  rw [T.kind hentry]
  generalize hkind : s.kind = kind
  split
  · refine meets_advance_bind hentry hkind (by simp) (by simp) fun _ _ s s' hs => ?_
    refine Meets.bind (x := commaSeparated _ _ _) ((runs_names _ (by decide) _).meets s s' hs) ?_
    rintro names _ rfl
    exact (runs_boundary _).bind fun _ _ _ => runs_pure .exportNames
  · exact hdeclaration
  · exact hdeclaration
  · exact hdeclaration
  · exact hdeclaration
  · exact ((runs_failExpected _).meets s s' hs)

end Keyword

theorem meets_expressionStatement {s s' : Stream} (hs : T.entry s s') :
    T.Meets T.exit (Statement.Renamed T.name) (expressionStatement s) (expressionStatement s') := by
  refine Meets.bind (x := expression) (runs_expression.meets s s' hs) fun _ _ h => ?_
  exact (runs_boundary _).bind fun _ _ _ => runs_pure (.expression h)

/-- The block statement of a block that has been read. -/
def ofBlock : EStateM.Result CompileError Stream (Position × List Statement) →
    EStateM.Result CompileError Stream Statement
  | .ok (pos, statements) s => .ok (.block statements pos) s
  | .error error s => .error error s

theorem runs_statementOf {nested nested' : Bool → Parser Statement}
    (hnested : ∀ topLevel,
      T.Runs T.entry T.exit (Statement.Renamed T.name) (nested topLevel) (nested' topLevel))
    (topLevel : Bool) :
    T.Runs T.entry T.exit (Statement.Renamed T.name) (statementOf nested topLevel)
      (statementOf nested' topLevel) := by
  refine ⟨fun h => steady_statementOf (fun top => (hnested top).steady h) topLevel, fun s s' hs => ?_⟩
  have hfalse := hnested false
  unfold statementOf
  rw [T.kind hs]
  -- one case for each word or sign with which a statement starts
  split
  · next hkind => exact meets_bindingDecl hs hkind false
  · next hkind => exact meets_bindingDecl hs hkind true
  · next hkind => exact meets_functionDecl hs hkind hfalse
  · next hkind => exact meets_classDeclOf hs hkind hfalse
  · next hkind =>
    split
    · exact meets_importStatement hs hkind
    · exact .error ⟨hs, rfl, rfl, rfl⟩
  · next hkind =>
    split
    · exact meets_exportStatement hs hkind (hnested true)
    · exact .error ⟨hs, rfl, rfl, rfl⟩
  · exact .error ⟨hs, rfl, rfl, rfl⟩
  · next hkind => exact meets_conditionalStatement hs hkind hfalse
  · next hkind => exact meets_loopStatement hs hkind hfalse
  · next hkind => exact meets_returnStatement hs hkind
  · next hkind => exact meets_printStatement hs hkind
  · have hblock : T.Runs T.entry T.exit (Statement.Renamed T.name)
        (blockOf (nested false) "block" >>= fun b => pure (.block b.2 b.1))
        (blockOf (nested' false) "block" >>= fun b => pure (.block b.2 b.1)) :=
      (runs_blockOf hfalse _).bind fun _ _ h => (runs_pure (.block h.2)).exit
    have hrun : ∀ (x : Parser Statement) s, ofBlock (blockOf x "block" s) =
        (blockOf x "block" >>= fun b => pure (Statement.block b.2 b.1)) s := fun x s =>
      eq_bind (fun _ _ hrun => by rw [hrun]; rfl) (fun _ _ hrun => by rw [hrun]; rfl)
    have hmeets := hblock.meets s s' hs
    rw [← hrun, ← hrun] at hmeets
    exact hmeets
  · next hkind => exact .ok .empty (T.semicolon hs hkind)
  · exact meets_expressionStatement hs

/-- Whole statements, whatever bound on the nesting is left. -/
theorem runs_declarationWithin {n m : Nat} (hfuel : T.Fuel n m) (topLevel : Bool) :
    T.Runs T.entry T.exit (Statement.Renamed T.name) (declarationWithin n topLevel)
      (declarationWithin m topLevel) := by
  induction n generalizing m topLevel with
  | zero =>
      exact runs_exhausted (fun m => declarationWithin m topLevel) hfuel rfl enters_entry
  | succ n ih =>
      obtain ⟨m, rfl, hrest⟩ := hfuel.succ
      exact runs_statementOf (fun topLevel => ih hrest topLevel) topLevel

/-- **A statement is read alike from two streams that are read in step.** -/
theorem runs_declaration (topLevel : Bool) :
    T.Runs T.entry T.exit (Statement.Renamed T.name) (declaration topLevel)
      (declaration topLevel) :=
  runs_bounded enters_entry fun _ _ hfuel => runs_declarationWithin hfuel topLevel

end Tandem

end Lipi
