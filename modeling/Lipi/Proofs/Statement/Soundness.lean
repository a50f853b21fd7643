import Lipi.Proofs.Expr.Soundness
import Lipi.Proofs.Statement.Grammar
import Lipi.Proofs.Statement.Reading

set_option autoImplicit false

/-! # Statements that are read are in the grammar

**If the reader of statements gives a tree and has recorded no error on the way, the tokens it has
taken spell the tree** (`declaration_parsed`). A block goes on behind a statement with an error in
it, so a reader that succeeds may have skipped tokens; but an error that has been recorded stays
recorded, and where none is recorded in the end there has been none.
-/

namespace Lipi

open Token (nth breaksLine)

/-! ## Boundaries -/

theorem Stream.Ended.atBoundary {s : Stream} (hs : s.Ended) (i : Nat) :
    (s.goto i).atBoundary = true ↔
      (nth s.tokens i).kind = .sign .semicolon ∨ Statement.Boundary s.tokens i := by
  have hkind := hs.kind i
  by_cases heof : (nth s.tokens i).kind = .eof
  · have hend : (s.goto i).kind = .eof := hkind.trans heof
    exact iff_of_true (by simp [Stream.atBoundary, hend]) (.inr (.inr (.inr (.inl heof))))
  · unfold Stream.atBoundary Statement.Boundary
    rw [hkind, hs.atLineBreak heof]
    generalize (nth s.tokens i).kind = kind
    -- a line break, or one of the kinds that the reader asks for
    split <;> simp_all

namespace Parser

open Lipi.Statement (Spells SpellsAll SpellsMethods SpellsNames SpellsMoreNames Ends SpellsCondition
  SpellsSuperclass SpellsModifiers Modifies SpellsFunctionWord FunctionWord SpellsMethodName
  Semicolons InBraces SpellsRoutine SpellsMethod spellsMethods_semicolon)

variable {α β : Type} {s : Stream}

/-! ## Readings without an error -/

/-- If the reader succeeds at the `i`-th token and records no error, it has only moved the cursor,
to a token `j` that satisfies `P` together with the result. -/
def GivesQuietly (s : Stream) (i : Nat) (x : Parser α) (P : α → Nat → Prop) : Prop :=
  ∀ a s', x (s.goto i) = .ok a s' → s'.errors.size ≤ s.errors.size → ∃ j, s' = s.goto j ∧ P a j

section
variable {i : Nat} {x y : Parser α} {P Q : α → Nat → Prop}

theorem GivesAt.quietly (h : GivesAt s i x P) : GivesQuietly s i x P :=
  fun a s' hrun _ => h a s' hrun

theorem GivesQuietly.congr (h : GivesQuietly s i y P) (heq : x (s.goto i) = y (s.goto i)) :
    GivesQuietly s i x P :=
  fun a s' hrun => h a s' (heq ▸ hrun)

/-- What is read behind keeps the errors recorded so far, so that there are none of them. -/
theorem GivesQuietly.bind {f : α → Parser β} {R : β → Nat → Prop} (h : GivesQuietly s i x P)
    (hsteady : ∀ a, Steady (f a)) (hf : ∀ a j, P a j → GivesQuietly s j (f a) R) :
    GivesQuietly s i (x >>= f) R := by
  intro b s'' hrun herrors
  obtain ⟨a, s', hx, hrest⟩ := bind_ok hrun
  have hkept := ((hsteady a).ok hrest).errors
  obtain ⟨j, rfl, ha⟩ := h a s' hx (Nat.le_trans hkept herrors)
  exact hf a j ha b s'' hrest herrors

theorem GivesAt.bindQuietly {f : α → Parser β} {R : β → Nat → Prop} (h : GivesAt s i x P)
    (hf : ∀ a j, P a j → GivesQuietly s j (f a) R) : GivesQuietly s i (x >>= f) R := by
  intro b s'' hrun herrors
  obtain ⟨a, s', hx, hrest⟩ := bind_ok hrun
  obtain ⟨j, rfl, ha⟩ := h a s' hx
  exact hf a j ha b s'' hrest herrors

theorem givesQuietly_bounded {reader : Nat → Parser α} (h : ∀ n, GivesQuietly s i (reader n) P) :
    GivesQuietly s i (bounded reader) P :=
  (h (s.goto i).bound).congr rfl

theorem givesQuietly_error {e : CompileError} {s' : Stream} (heq : x (s.goto i) = .error e s') :
    GivesQuietly s i x P :=
  (givesAt_error heq).quietly

end

/-! ## Steps -/

section
variable {i : Nat} (hs : s.Ended)

theorem givesAt_get : GivesAt s i (get : Parser Stream) fun a j => a = s.goto i ∧ j = i :=
  givesAt_of_eq rfl ⟨rfl, rfl⟩

include hs

theorem givesAt_accept_keyword (k : Keyword) :
    GivesAt s i (accept (.keyword k)) fun found j =>
      (found = true ∧ (nth s.tokens i).kind = .keyword k ∧ j = i + 1) ∨
        (found = false ∧ (nth s.tokens i).kind ≠ .keyword k ∧ j = i) :=
  givesAt_accept hs (fun s => s.check_keyword k) (by simp)

theorem givesAt_consume_keyword (k : Keyword) (expectation : String) :
    GivesAt s i (consume (.keyword k) expectation) fun _ j =>
      (nth s.tokens i).kind = .keyword k ∧ j = i + 1 :=
  givesAt_consume hs (fun s => s.check_keyword k) (by simp) expectation

theorem givesAt_boundary (what : String) :
    GivesAt s i (boundary what) fun _ j => Ends s.tokens i j := by
  have hcheck := Stream.check_sign (s.goto i) .semicolon
  rw [hs.kind] at hcheck
  by_cases hsemicolon : (nth s.tokens i).kind = .sign .semicolon
  · have hadvance := (hs.advance (hsemicolon.trans_ne (by simp))).2
    refine givesAt_of_eq (a := ()) ?_ (.inl ⟨hsemicolon, rfl⟩)
    rw [boundary, if_pos (hcheck.mpr hsemicolon), hadvance]
  · by_cases hboundary : (s.goto i).atBoundary = true
    · refine givesAt_of_eq (a := ()) ?_
        (.inr ⟨hsemicolon, ((hs.atBoundary i).mp hboundary).resolve_left hsemicolon, rfl⟩)
      rw [boundary, if_neg fun h => hsemicolon (hcheck.mp h), if_pos hboundary]
    · have hfails : boundary what (s.goto i)
          = .error ((s.goto i).expected ("Expected ';' after " ++ what)) (s.goto i) := by
        rw [boundary, if_neg fun h => hsemicolon (hcheck.mp h), if_neg hboundary]
      exact givesAt_error hfails

/-! ## Names and conditions -/

theorem givesAt_moreNames (expectation context : String) (closing : Sign) (n i : Nat)
    (previous : List String) :
    GivesAt s i (items (identifier expectation) closing context n previous) fun xs j =>
      ∃ x xs', xs = previous.reverse ++ x :: xs' ∧ SpellsNames s.tokens closing (x :: xs') i j := by
  induction n generalizing i previous with
  | zero => exact givesAt_error rfl
  | succ n ih =>
      refine (givesAt_identifier hs _).bind ?_
      rintro x _ ⟨hname, rfl⟩
      refine (givesAt_accept_sign hs .comma).bind ?_
      rintro found m (⟨rfl, hcomma, rfl⟩ | ⟨rfl, -, rfl⟩)
      · refine (ih (i + 1 + 1) (x :: previous)).mono ?_
        rintro xs j ⟨x', xs', rfl, hname', hmore⟩
        exact ⟨x, x' :: xs', by simp, hname, hcomma, hname', hmore⟩
      · refine (givesAt_consume_sign hs closing _).bind fun _ j hclose => givesAt_pure ?_
        exact ⟨x, [], by simp, hname, hclose⟩

theorem givesAt_names (expectation context : String) (closing : Sign) (i : Nat) :
    GivesAt s i (commaSeparated (identifier expectation) closing context) fun xs j =>
      SpellsNames s.tokens closing xs i j := by
  refine (givesAt_accept_sign hs closing).bind ?_
  rintro found m (⟨rfl, hclose, rfl⟩ | ⟨rfl, -, rfl⟩)
  · exact givesAt_pure ⟨hclose, rfl⟩
  · refine givesAt_bounded fun n => (givesAt_moreNames hs _ _ closing n m []).mono ?_
    rintro xs j ⟨x, xs', rfl, hspells⟩
    exact hspells

theorem givesAt_expression (i : Nat) :
    GivesAt s i expression fun e j => e.Spells s.tokens i j :=
  (givesAt_bounded fun n => givesAt_expressionWithin hs n i).mono fun _ _ h => h.spells

theorem givesAt_condition (i : Nat) :
    GivesAt s i condition fun c j => SpellsCondition s.tokens c i j := by
  refine (givesAt_expression hs i).bind fun e j he => ?_
  split
  · exact givesAt_pure (.inr he)
  · exact givesAt_pure (.inl he)

theorem givesAt_superclassName (i : Nat) :
    GivesAt s i superclassName? fun name j => SpellsSuperclass s.tokens name i j := by
  refine (givesAt_accept_keyword hs .virasat).bind ?_
  rintro found m (⟨rfl, hkind, rfl⟩ | ⟨rfl, hkind, rfl⟩)
  · refine (givesAt_identifier hs _).bind ?_
    rintro name _ ⟨hname, rfl⟩
    exact givesAt_pure ⟨hkind, hname, rfl⟩
  · exact givesAt_pure ⟨hkind, rfl⟩

/-! ## What stands in front of a method -/

omit hs in
theorem nextKind_goto (i : Nat) : (s.goto i).nextKind = (nth s.tokens (i + 1)).kind := by
  have hnext : (s.goto i).tokens[(s.goto i).cursor + 1]? = s.tokens[i + 1]? := rfl
  unfold Stream.nextKind nth
  rw [hnext]
  cases s.tokens[i + 1]? <;> rfl

theorem givesAt_methodModifiers (n i : Nat) (access : Access) (isStatic : Bool) :
    GivesAt s i (methodModifiers n access isStatic) fun flags j =>
      ∃ ks, SpellsModifiers s.tokens ks i j ∧ ks.foldl modify (access, isStatic) = flags := by
  induction n generalizing i access isStatic with
  | zero => exact givesAt_error rfl
  | succ n ih =>
      intro flags s' hrun
      simp only [methodModifiers] at hrun
      rw [nextKind_goto, hs.kind] at hrun
      split at hrun
      · next hparen =>
        cases hrun
        exact ⟨i, rfl, [], ⟨fun k hk => hk.2.2 hparen, rfl⟩, rfl⟩
      · next hparen =>
        -- one more modifier, and what is read behind it
        have hmore : ∀ (k : Keyword) (access' : Access) (isStatic' : Bool),
            (k = .sabka ∨ k = .niji ∨ k = .surakshit ∨ k = .sthir) →
            (nth s.tokens i).kind = .keyword k →
            modify (access, isStatic) k = (access', isStatic') →
            methodModifiers n access' isStatic' (s.goto i).advance = .ok flags s' →
            ∃ j, s' = s.goto j ∧ ∃ ks, SpellsModifiers s.tokens ks i j ∧
              ks.foldl modify (access, isStatic) = flags := by
          intro k access' isStatic' hword hkind hmodify hrun
          rw [(hs.advance (hkind.trans_ne (by simp))).2] at hrun
          obtain ⟨j, rfl, ks, hks, hflags⟩ := ih (i + 1) access' isStatic' flags s' hrun
          refine ⟨j, rfl, k :: ks, ⟨⟨hword, hkind, hparen⟩, hks⟩, ?_⟩
          rw [List.foldl_cons, hmodify, hflags]
        split at hrun
        · next hkind => exact hmore .sabka .sabka isStatic (.inl rfl) hkind rfl hrun
        · next hkind => exact hmore .niji .niji isStatic (.inr (.inl rfl)) hkind rfl hrun
        · next hkind =>
          exact hmore .surakshit .surakshit isStatic (.inr (.inr (.inl rfl))) hkind rfl hrun
        · next hkind => exact hmore .sthir access true (.inr (.inr (.inr rfl))) hkind rfl hrun
        · next hsabka hniji hsurakshit hsthir =>
          cases hrun
          refine ⟨i, rfl, [], ⟨?_, rfl⟩, rfl⟩
          rintro k ⟨rfl | rfl | rfl | rfl, hkind, -⟩
          · exact hsabka hkind
          · exact hniji hkind
          · exact hsurakshit hkind
          · exact hsthir hkind

theorem givesAt_skipFunctionWord (i : Nat) :
    GivesAt s i skipFunctionWord fun _ j => SpellsFunctionWord s.tokens i j := by
  intro u s' hrun
  unfold skipFunctionWord at hrun
  rw [nextKind_goto, hs.kind] at hrun
  split at hrun
  · next hparen =>
    cases hrun
    exact ⟨i, rfl, .inr ⟨fun h => h.2 hparen, rfl⟩⟩
  · next hkind hparen =>
    rw [(hs.advance (hkind.trans_ne (by simp))).2] at hrun
    cases hrun
    exact ⟨i + 1, rfl, .inl ⟨⟨hkind, hparen⟩, rfl⟩⟩
  · next hother _ =>
    cases hrun
    exact ⟨i, rfl, .inr ⟨fun h => hother h.1, rfl⟩⟩

theorem givesAt_moduleName (i : Nat) :
    GivesAt s i moduleName fun source j =>
      (nth s.tokens i).kind = .string source ∧ j = i + 1 := by
  intro source s' hrun
  unfold moduleName at hrun
  rw [hs.kind] at hrun
  split at hrun
  · next hkind =>
    rw [(hs.advance (hkind.trans_ne (by simp))).2] at hrun
    cases hrun
    exact ⟨i + 1, rfl, hkind, rfl⟩
  · cases hrun

end

/-! ## Blocks, functions and classes -/

section
variable (hs : s.Ended) {nested : Parser Statement} (hsteady : Steady nested)
  (hnested : ∀ i, GivesQuietly s i nested fun t j => Spells s.tokens t i j)

include hsteady hnested

theorem givesQuietly_blockBody (n i : Nat) (previous : List Statement) :
    GivesQuietly s i (blockBody nested n previous) fun ts j =>
      ∃ us, ts = previous.reverse ++ us ∧ SpellsAll s.tokens us i j := by
  induction n generalizing i previous with
  | zero => exact givesQuietly_error rfl
  | succ n ih =>
      intro ts s' hrun herrors
      simp only [blockBody] at hrun
      split at hrun
      · cases hrun
        exact ⟨i, rfl, [], by simp, rfl⟩
      · split at hrun
        · next t s₁ ht =>
          have hkept := ((steady_blockBody hsteady n _).ok hrun).errors
          obtain ⟨m, rfl, hspells⟩ := hnested i t s₁ ht (Nat.le_trans hkept herrors)
          obtain ⟨j, rfl, us, rfl, hus⟩ := ih m (t :: previous) ts s' hrun herrors
          exact ⟨j, rfl, t :: us, by simp, m, hspells, hus⟩
        · next error s₁ ht =>
          split at hrun
          · cases hrun
          · -- an error that is recorded here would still be recorded in the end
            have hbefore : s.errors.size ≤ s₁.errors.size := (hsteady.error ht).errors
            have hhere := s₁.errors_lt_recover error true
            have hkept := ((steady_blockBody hsteady n _).ok hrun).errors
            omega

include hs

theorem givesQuietly_blockOf (context : String) (i : Nat) :
    GivesQuietly s i (blockOf nested context) fun block j =>
      InBraces s.tokens (SpellsAll s.tokens block.2) i j := by
  refine (givesAt_consume_sign hs .leftBrace _).bindQuietly ?_
  rintro start _ ⟨hopen, rfl⟩
  refine (givesQuietly_bounded fun n => givesQuietly_blockBody hsteady hnested n _ []).bind
    (fun _ => steady_bind (steady_consume _ _) fun _ => steady_pure _) ?_
  rintro _ m ⟨us, rfl, hus⟩
  refine ((givesAt_consume_sign hs .rightBrace _).bind ?_).quietly
  rintro _ _ ⟨hclose, rfl⟩
  exact givesAt_pure ⟨hopen, m, hus, hclose, rfl⟩

theorem givesQuietly_routine (what : String) (i : Nat) :
    GivesQuietly s i (routine nested what) fun r j =>
      SpellsRoutine s.tokens r.1 (SpellsAll s.tokens r.2) i j := by
  refine (givesAt_consume_sign hs .leftParen _).bindQuietly ?_
  rintro _ _ ⟨hopen, rfl⟩
  refine (givesAt_names hs _ _ .rightParen _).bindQuietly fun parameters m hparameters => ?_
  refine (givesQuietly_blockOf hs hsteady hnested _ m).bind (fun _ => steady_pure _) ?_
  intro body j hbody
  exact (givesAt_pure ⟨hopen, m, hparameters, hbody⟩).quietly

theorem givesQuietly_functionDecl {i : Nat} (hkind : (nth s.tokens i).kind = .keyword .kaam) :
    GivesQuietly s i (functionDecl nested) fun t j => Spells s.tokens t i j := by
  refine (givesAt_advance hs (hkind.trans_ne (by simp))).bindQuietly ?_
  rintro _ _ rfl
  refine givesAt_get.bindQuietly ?_
  rintro _ _ ⟨-, rfl⟩
  refine (givesAt_identifier hs _).bindQuietly ?_
  rintro name _ ⟨hname, rfl⟩
  refine (givesQuietly_routine hs hsteady hnested _ _).bind (fun _ => steady_pure _) ?_
  intro r j hroutine
  exact (givesAt_pure ⟨hkind, hname, hroutine⟩).quietly

theorem givesQuietly_method (i : Nat) :
    GivesQuietly s i (method nested) fun m j => SpellsMethod s.tokens m i j := by
  refine givesAt_get.bindQuietly fun start k hstart => ?_
  obtain rfl := hstart.2
  refine (givesAt_bounded fun n => givesAt_methodModifiers hs n k .sabka false).bindQuietly ?_
  rintro ⟨access, isStatic⟩ k ⟨ks, hmodifiers, hflags⟩
  refine (givesAt_skipFunctionWord hs k).bindQuietly fun _ k' hword => ?_
  refine (givesAt_accept_keyword hs .nirmaan).bindQuietly ?_
  rintro isConstructor _ (⟨rfl, hkind, rfl⟩ | ⟨rfl, hkind, rfl⟩)
  · refine (givesQuietly_routine hs hsteady hnested _ _).bind (fun _ => steady_pure _) ?_
    intro r j hroutine
    refine (givesAt_pure ⟨k' + 1, ?_, hroutine⟩).quietly
    exact ⟨ks, k, k', hmodifiers, hflags, hword, ⟨hkind, rfl⟩, rfl⟩
  · refine (givesAt_memberName hs _).bindQuietly ?_
    rintro name _ ⟨hname, hlexeme, rfl⟩
    refine (givesQuietly_routine hs hsteady hnested _ _).bind (fun _ => steady_pure _) ?_
    intro r j hroutine
    refine (givesAt_pure ⟨_, ?_, hroutine⟩).quietly
    exact ⟨ks, k, _, hmodifiers, hflags, hword, ⟨hkind, hname, hlexeme⟩, rfl⟩

theorem givesQuietly_classBody (n i : Nat) (previous : List Method) :
    GivesQuietly s i (classBody nested n previous) fun ms j =>
      ∃ us, ms = previous.reverse ++ us ∧ SpellsMethods s.tokens us i j := by
  induction n generalizing i previous with
  | zero => exact givesQuietly_error rfl
  | succ n ih =>
      intro ms s' hrun herrors
      simp only [classBody] at hrun
      have hcheck := Stream.check_sign (s.goto i) .semicolon
      rw [hs.kind] at hcheck
      split at hrun
      · next hends =>
        cases hrun
        refine ⟨i, rfl, [], by simp, .nil fun hsemicolon => ?_⟩
        rw [endsBlock, hs.kind, hsemicolon] at hends
        cases hends
      · split at hrun
        · next hsemicolon =>
          rw [hcheck] at hsemicolon
          rw [(hs.advance (hsemicolon.trans_ne (by simp))).2] at hrun
          obtain ⟨j, rfl, us, rfl, hus⟩ := ih (i + 1) previous ms s' hrun herrors
          exact ⟨j, rfl, us, rfl, spellsMethods_semicolon hsemicolon hus⟩
        · next hsemicolon =>
          rw [hcheck] at hsemicolon
          split at hrun
          · next m s₁ hm =>
            -- no error was recorded behind the method, so it was read quietly
            have hkept := ((steady_classBody hsteady n _).ok hrun).errors
            obtain ⟨k, rfl, hspells⟩ := givesQuietly_method hs hsteady hnested i m s₁ hm
              (Nat.le_trans hkept herrors)
            obtain ⟨j, rfl, us, rfl, hus⟩ := ih k (m :: previous) ms s' hrun herrors
            refine ⟨j, rfl, m :: us, by simp, ?_⟩
            exact Statement.spellsMethods_cons.mpr ⟨i, k, .nil hsemicolon, hspells, hus⟩
          · cases hrun

theorem givesQuietly_classDeclOf {i : Nat} (hkind : (nth s.tokens i).kind = .keyword .kaksha) :
    GivesQuietly s i (classDeclOf nested) fun t j => Spells s.tokens t i j := by
  refine (givesAt_advance hs (hkind.trans_ne (by simp))).bindQuietly ?_
  rintro _ _ rfl
  refine (givesAt_identifier hs _).bindQuietly ?_
  rintro name _ ⟨hname, rfl⟩
  refine (givesAt_superclassName hs _).bindQuietly fun superclass m hsuper => ?_
  refine (givesAt_consume_sign hs .leftBrace _).bindQuietly ?_
  rintro _ _ ⟨hopen, rfl⟩
  refine (givesQuietly_bounded fun n => givesQuietly_classBody hs hsteady hnested n _ []).bind
    (fun _ => steady_bind (steady_consume _ _) fun _ => steady_pure _) ?_
  rintro _ m' ⟨us, rfl, hus⟩
  refine ((givesAt_consume_sign hs .rightBrace _).bind ?_).quietly
  rintro _ _ ⟨hclose, rfl⟩
  exact givesAt_pure ⟨hkind, hname, m, hsuper, hopen, m', hus, hclose, rfl⟩

end

/-! ## Simple statements -/

section
variable (hs : s.Ended) {i : Nat}

include hs

theorem givesAt_bindingDecl {constant : Bool}
    (hkind : (nth s.tokens i).kind = .keyword (if constant then .pakka else .rakho)) :
    GivesAt s i (bindingDecl constant) fun t j => Spells s.tokens t i j := by
  refine (givesAt_advance hs (hkind.trans_ne (by simp))).bind ?_
  rintro _ _ rfl
  refine (givesAt_identifier hs _).bind ?_
  rintro name _ ⟨hname, rfl⟩
  refine (givesAt_consume_sign hs .equal _).bind ?_
  rintro _ _ ⟨hequal, rfl⟩
  refine (givesAt_expression hs _).bind fun e m he => ?_
  refine (givesAt_boundary hs _).bind fun _ j hend => givesAt_pure ?_
  exact ⟨hkind, hname, hequal, m, he, hend⟩

theorem givesAt_returnStatement (hkind : (nth s.tokens i).kind = .keyword .wapas) :
    GivesAt s i returnStatement fun t j => Spells s.tokens t i j := by
  refine (givesAt_advance hs (hkind.trans_ne (by simp))).bind ?_
  rintro _ _ rfl
  refine givesAt_get.bind ?_
  rintro _ _ ⟨rfl, rfl⟩
  split
  · exact (givesAt_boundary hs _).bind fun _ j hend => givesAt_pure ⟨hkind, hend⟩
  · refine (givesAt_expression hs _).bind fun e m he => ?_
    exact (givesAt_boundary hs _).bind fun _ j hend => givesAt_pure ⟨hkind, m, he, hend⟩

theorem givesAt_printStatement (hkind : (nth s.tokens i).kind = .keyword .chaap) :
    GivesAt s i printStatement fun t j => Spells s.tokens t i j := by
  refine (givesAt_advance hs (hkind.trans_ne (by simp))).bind ?_
  rintro _ _ rfl
  refine (givesAt_expression hs _).bind fun e m he => ?_
  exact (givesAt_boundary hs _).bind fun _ j hend => givesAt_pure ⟨hkind, m, he, hend⟩

theorem givesAt_expressionStatement :
    GivesAt s i expressionStatement fun t j => Spells s.tokens t i j := by
  refine givesAt_get.bind ?_
  rintro _ _ ⟨rfl, rfl⟩
  refine (givesAt_expression hs _).bind fun e m he => ?_
  exact (givesAt_boundary hs _).bind fun _ j hend => givesAt_pure ⟨m, he, hend⟩

theorem givesAt_importStatement (hkind : (nth s.tokens i).kind = .keyword .lao) :
    GivesAt s i importStatement fun t j => Spells s.tokens t i j := by
  refine (givesAt_advance hs (hkind.trans_ne (by simp))).bind ?_
  rintro _ _ rfl
  refine (givesAt_consume_sign hs .leftBrace _).bind ?_
  rintro _ _ ⟨hopen, rfl⟩
  refine (givesAt_names hs _ _ .rightBrace _).bind fun names m hnames => ?_
  refine (givesAt_consume_keyword hs .se _).bind ?_
  rintro _ _ ⟨hse, rfl⟩
  refine (givesAt_moduleName hs _).bind ?_
  rintro source _ ⟨hsource, rfl⟩
  refine (givesAt_boundary hs _).bind fun _ j hend => givesAt_pure ?_
  exact ⟨hkind, hopen, m, hnames, hse, hsource, hend⟩

end

/-! ## Statements that nest -/

section
variable (hs : s.Ended) {nested : Bool → Parser Statement}
  (hsteady : ∀ top, Steady (nested top))
  (hnested : ∀ top i, GivesQuietly s i (nested top) fun t j => Spells s.tokens t i j)

include hs hsteady hnested

theorem givesQuietly_conditionalStatement {i : Nat}
    (hkind : (nth s.tokens i).kind = .keyword .agar) :
    GivesQuietly s i (conditionalStatement (nested false)) fun t j => Spells s.tokens t i j := by
  refine (givesAt_advance hs (hkind.trans_ne (by simp))).bindQuietly ?_
  rintro start _ rfl
  refine (givesAt_condition hs _).bindQuietly fun c m hc => ?_
  refine (hnested false m).bind (fun _ => steady_bind (steady_accept _) fun hasElse => ?_) ?_
  · cases hasElse with
    | true => exact steady_bind (hsteady false) fun _ => steady_pure _
    | false => exact steady_pure _
  · intro thenBranch m' hthen
    refine (givesAt_accept_keyword hs .warna).bindQuietly ?_
    rintro hasElse _ (⟨rfl, hwarna, rfl⟩ | ⟨rfl, -, rfl⟩)
    · refine (hnested false _).bind (fun _ => steady_pure _) fun elseBranch j helse => ?_
      exact (givesAt_pure ⟨hkind, m, m', hc, hthen, hwarna, helse⟩).quietly
    · exact (givesAt_pure ⟨hkind, m, hc, hthen⟩).quietly

omit hsteady in
theorem givesQuietly_loopStatement {i : Nat} (hkind : (nth s.tokens i).kind = .keyword .jabtak) :
    GivesQuietly s i (loopStatement (nested false)) fun t j => Spells s.tokens t i j := by
  refine (givesAt_advance hs (hkind.trans_ne (by simp))).bindQuietly ?_
  rintro start _ rfl
  refine (givesAt_condition hs _).bindQuietly fun c m hc => ?_
  refine (hnested false m).bind (fun _ => steady_pure _) fun body j hbody => ?_
  exact (givesAt_pure ⟨hkind, m, hc, hbody⟩).quietly

omit hsteady in
theorem givesQuietly_exportStatement {i : Nat} (hkind : (nth s.tokens i).kind = .keyword .bhejo) :
    GivesQuietly s i (exportStatement (nested true)) fun t j => Spells s.tokens t i j := by
  refine (givesAt_advance hs (hkind.trans_ne (by simp))).bindQuietly ?_
  rintro start _ rfl
  refine givesAt_get.bindQuietly ?_
  rintro _ _ ⟨rfl, rfl⟩
  have hdeclaration : GivesQuietly s (i + 1) (do
      let declaration ← nested true
      return Statement.exportDecl declaration start.position) fun t j => Spells s.tokens t i j := by
    refine (hnested true _).bind (fun _ => steady_pure _) fun declaration j hspells => ?_
    exact (givesAt_pure ⟨hkind, hspells⟩).quietly
  generalize hbrace : (s.goto (i + 1)).kind = kind
  rw [hs.kind] at hbrace
  split
  · refine ((givesAt_advance hs (hbrace.trans_ne (by simp))).bind ?_).quietly
    rintro _ _ rfl
    refine (givesAt_names hs _ _ .rightBrace _).bind fun names m hnames => ?_
    refine (givesAt_boundary hs _).bind fun _ j hend => givesAt_pure ?_
    exact ⟨hkind, hbrace, m, hnames, hend⟩
  · exact hdeclaration
  · exact hdeclaration
  · exact hdeclaration
  · exact hdeclaration
  · exact givesQuietly_error rfl

theorem givesQuietly_statementOf (topLevel : Bool) (i : Nat) :
    GivesQuietly s i (statementOf nested topLevel) fun t j => Spells s.tokens t i j := by
  intro t s' hrun herrors
  have hblock := givesQuietly_blockOf hs (hsteady false) (hnested false) "block" i
  -- one case for each first token, in the order of the reader
  unfold statementOf at hrun
  rw [hs.kind] at hrun
  split at hrun
  · next hkind => exact givesAt_bindingDecl hs hkind t s' hrun
  · next hkind => exact givesAt_bindingDecl hs hkind t s' hrun
  · next hkind =>
    exact givesQuietly_functionDecl hs (hsteady false) (hnested false) hkind t s' hrun herrors
  · next hkind =>
    exact givesQuietly_classDeclOf hs (hsteady false) (hnested false) hkind t s' hrun herrors
  · next hkind =>
    split at hrun
    · exact givesAt_importStatement hs hkind t s' hrun
    · cases hrun
  · next hkind =>
    split at hrun
    · exact givesQuietly_exportStatement hs hnested hkind t s' hrun herrors
    · cases hrun
  · cases hrun
  · next hkind =>
    exact givesQuietly_conditionalStatement hs hsteady hnested hkind t s' hrun herrors
  · next hkind => exact givesQuietly_loopStatement hs hnested hkind t s' hrun herrors
  · next hkind => exact givesAt_returnStatement hs hkind t s' hrun
  · next hkind => exact givesAt_printStatement hs hkind t s' hrun
  · split at hrun
    · next pos statements s₁ heq =>
      cases hrun
      exact hblock (pos, statements) s' heq herrors
    · cases hrun
  · next hkind =>
    rw [(hs.advance (hkind.trans_ne (by simp))).2] at hrun
    cases hrun
    exact ⟨i + 1, rfl, hkind, rfl⟩
  · exact givesAt_expressionStatement hs t s' hrun

end

theorem givesQuietly_declarationWithin (hs : s.Ended) (n : Nat) (topLevel : Bool) (i : Nat) :
    GivesQuietly s i (declarationWithin n topLevel) fun t j => Spells s.tokens t i j := by
  induction n generalizing topLevel i with
  | zero => exact givesQuietly_error rfl
  | succ n ih =>
      exact givesQuietly_statementOf hs (steady_declarationWithin n) ih topLevel i

/-- **A statement that is read without an error is in the grammar.** -/
theorem declaration_parsed (hs : s.Ended) {topLevel : Bool} {i : Nat} {t : Statement} {s' : Stream}
    (h : declaration topLevel (s.goto i) = .ok t s') (herrors : s'.errors.size ≤ s.errors.size) :
    ∃ j, s' = s.goto j ∧ Spells s.tokens t i j :=
  givesQuietly_bounded (fun n => givesQuietly_declarationWithin hs n topLevel i) t s' h herrors

end Parser

end Lipi
