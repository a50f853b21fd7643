import Lipi.Proofs.Statement.Misread

set_option autoImplicit false

/-! # Classes are read back, or misread

The methods of a class. **Keywords may be names of methods**: a modifier or the word for functions is
one where a parenthesis follows, and only the end marker of programs is not told from the end of the
class, unless a modifier stands in front of it (`Method.readsAsEnd`).
-/

namespace Lipi

namespace Parser

open Lipi.Stream (Shows)
open Statement (braced nameItems lineItems methodItems wordBehind modifierWords methodWord)

/-! ## Modifiers -/

/-- What a modifier in front of a method changes. -/
def modify : Access × Bool → Keyword → Access × Bool
  | (_, isStatic), .sabka => (.sabka, isStatic)
  | (_, isStatic), .niji => (.niji, isStatic)
  | (_, isStatic), .surakshit => (.surakshit, isStatic)
  | (access, _), .sthir => (access, true)
  | flags, _ => flags

theorem modify_modifierWords (access : Access) (isStatic : Bool) :
    (modifierWords access isStatic).foldl modify (.sabka, false) = (access, isStatic) := by
  cases access <;> cases isStatic <;> rfl

theorem mem_modifierWords {access : Access} {isStatic : Bool} {k : Keyword}
    (h : k ∈ modifierWords access isStatic) : k = .niji ∨ k = .surakshit ∨ k = .sthir := by
  unfold modifierWords at h
  rcases List.mem_append.mp h with h | h
  · cases access <;> simp at h <;> simp [h]
  · cases isStatic <;> simp at h
    simp [h]

theorem wordKind_ne_sign (w : String) (sign : Sign) : Lexer.wordKind w ≠ .sign sign := by
  unfold Lexer.wordKind
  split <;> exact TokenKind.noConfusion

/-- The first of the words in front of a parenthesis is a modifier or the name. -/
theorem wordBehind_lead (before : List Char) (name : String) (ks : List Keyword) :
    ∃ i is, wordBehind before name ks = i :: is ∧
      ((∃ k ∈ ks, i.kind = .keyword k) ∨ ks = [] ∧ i.kind = Lexer.wordKind name) := by
  cases ks with
  | nil => exact ⟨_, _, rfl, Or.inr ⟨rfl, rfl⟩⟩
  | cons k ks => exact ⟨_, _, rfl, Or.inl ⟨k, List.mem_cons_self, rfl⟩⟩

theorem wordBehind_not_sign {before : List Char} {name : String} {ks : List Keyword} {i : Item}
    {is : List Item} (h : wordBehind before name ks = i :: is) (sign : Sign) :
    i.kind ≠ .sign sign := by
  obtain ⟨j, js, hcons, hkind⟩ := wordBehind_lead before name ks
  rw [h] at hcons
  cases hcons
  rcases hkind with ⟨k, _, hkind⟩ | ⟨_, hkind⟩
  · rw [hkind]
    exact TokenKind.noConfusion
  · rw [hkind]
    exact wordKind_ne_sign name sign

/-- The modifiers are read up to the word in front of the parenthesis. -/
theorem reads_methodModifiers (name : String) (tail : List Item) {ks : List Keyword}
    (hks : ∀ k ∈ ks, k = .niji ∨ k = .surakshit ∨ k = .sthir) (before : List Char) {n : Nat}
    (hn : ks.length < n) (access : Access) (isStatic : Bool) :
    ∃ b, Reads (methodModifiers n access isStatic)
      (wordBehind before name ks ++ .sign [] .leftParen :: tail)
      (.word b name :: .sign [] .leftParen :: tail) (· = ks.foldl modify (access, isStatic)) := by
  induction ks generalizing before n access isStatic with
  | nil =>
      obtain ⟨n, rfl⟩ : ∃ m, n = m + 1 := ⟨n - 1, by omega⟩
      refine ⟨before, fun s hs => ⟨(access, isStatic), s, ?_, rfl, hs, rfl⟩⟩
      have hnext : s.nextKind = .sign .leftParen := hs.nextKind
      simp only [methodModifiers, hnext]
  | cons k ks ih =>
      obtain ⟨n, rfl⟩ : ∃ m, n = m + 1 := ⟨n - 1, by omega⟩
      rw [List.length_cons] at hn
      obtain ⟨b, hrest⟩ := ih (fun k' hk' => hks k' (List.mem_cons_of_mem _ hk')) [' '] (n := n)
        (by omega) (modify (access, isStatic) k).1 (modify (access, isStatic) k).2
      refine ⟨b, fun s hs => ?_⟩
      have hkind : s.kind = .keyword k := hs.kind
      -- another word follows, so the modifier is not the name of the method
      have hnext : s.nextKind ≠ .sign .leftParen := by
        obtain ⟨j, js, hcons, _⟩ := wordBehind_lead [' '] name ks
        have hs' := hs
        rw [wordBehind, hcons] at hs'
        rw [hs'.nextKind]
        exact wordBehind_not_sign hcons .leftParen
      have hstep : methodModifiers (n + 1) access isStatic s
          = methodModifiers n (modify (access, isStatic) k).1 (modify (access, isStatic) k).2
            s.advance := by
        rcases hks k List.mem_cons_self with rfl | rfl | rfl
        · simp only [methodModifiers, hkind]
          rfl
        · simp only [methodModifiers, hkind]
          rfl
        · simp only [methodModifiers, hkind]
          rfl
      obtain ⟨flags, s', hrun, hflags, hs', herrors⟩ := hrest s.advance hs.advance
      refine ⟨flags, s', hstep.trans hrun, ?_, hs', ?_⟩
      · rw [hflags]
        rfl
      · rw [herrors, s.advance_errors]

theorem reads_skipFunctionWord (before : List Char) (name : String) (tail : List Item) :
    Reads skipFunctionWord (.word before name :: .sign [] .leftParen :: tail)
      (.word before name :: .sign [] .leftParen :: tail) fun _ => True := by
  refine fun s hs => ⟨(), s, ?_, trivial, hs, rfl⟩
  have hnext : s.nextKind = .sign .leftParen := hs.nextKind
  unfold skipFunctionWord
  rw [hnext]
  split
  · rfl
  · next hnot => exact absurd rfl hnot
  · rfl

/-! ## Names of methods -/

theorem eq_khatam_of_ofWord? {w : String} (h : Keyword.ofWord? w = some .khatam) : w = "khatam" := by
  have hspells := List.find?_some h
  have hword : "khatam" = w := by
    simpa [Keyword.spelling, Keyword.alias?] using hspells
  exact hword.symm

/-- A method starts with what does not end the class, unless its name is read as the end of the
program. -/
theorem method_lead {access : Access} {isStatic isConstructor : Bool} {name : String}
    {parameters : List String} {body : List Statement} {pos : Position}
    (hread : (Method.mk access isStatic isConstructor name parameters body pos).readsAsEnd = false)
    (before : List Char) :
    ∃ i is, wordBehind before (methodWord isConstructor name) (modifierWords access isStatic)
      = i :: is ∧ i.kind ≠ .eof ∧ i.kind ≠ .keyword .khatam ∧ ∀ sign, i.kind ≠ .sign sign := by
  obtain ⟨i, is, hcons, hkind⟩ :=
    wordBehind_lead before (methodWord isConstructor name) (modifierWords access isStatic)
  refine ⟨i, is, hcons, ?_, ?_, wordBehind_not_sign hcons⟩
  · rcases hkind with ⟨k, _, hkind⟩ | ⟨_, hkind⟩
    · rw [hkind]
      exact TokenKind.noConfusion
    · rw [hkind]
      unfold Lexer.wordKind
      split <;> exact TokenKind.noConfusion
  -- a modifier is no end marker, and without modifiers the name is not the end marker either
  · rcases hkind with ⟨k, hk, hkind⟩ | ⟨hnone, hkind⟩
    · rw [hkind]
      rcases mem_modifierWords hk with rfl | rfl | rfl <;> nofun
    · rw [hkind]
      intro hkhatam
      unfold Lexer.wordKind at hkhatam
      split at hkhatam
      · next k hword =>
        cases hkhatam
        have hname := eq_khatam_of_ofWord? hword
        cases isConstructor with
        | true => exact absurd (show "nirmaan" = "khatam" from hname) (by decide)
        | false =>
            obtain rfl : name = "khatam" := hname
            cases access with
            | sabka =>
                cases isStatic with
                | true => cases hnone
                | false => exact Bool.noConfusion hread
            | niji => cases hnone
            | surakshit => cases hnone
      · cases hkhatam

/-! ## Methods -/

section Nested

variable {nested : Bool → Parser Statement} {d : Nat} (hsteady : ∀ top, Steady (nested top))
  (hnested : TellsNested nested d)

include hsteady hnested

theorem tells_method {access : Access} {isStatic isConstructor : Bool} {name : String}
    {parameters : List String} {body : List Statement} {pos : Position}
    (hwell : Statement.MethodsWellFormed
      [.mk access isStatic isConstructor name parameters body pos])
    (hdepth : Statement.depthAll body ≤ d) (depth : Nat) (before : List Char) (rest : List Item) :
    Tells (method (nested false))
      (wordBehind before (methodWord isConstructor name) (modifierWords access isStatic) ++
        .sign [] .leftParen :: (nameItems [] parameters ++ .sign [] .rightParen ::
          (braced [' '] depth (lineItems (depth + 1) body) ++ rest))) rest
      (Statement.misreadAll body)
      (fun m => Statement.eraseMethods [m]
        = Statement.eraseMethods [.mk access isStatic isConstructor name parameters body pos])
      (fun m => Statement.agreesMethods
        [.mk access isStatic isConstructor name parameters body pos] [m] = false) := by
  obtain ⟨⟨hname, hparameters, hbody⟩, _⟩ := hwell
  refine tells_after reads_get fun current _ => ?_
  -- behind the name, parameters and body are read as in a function
  have hroutine : ∀ pos', Tells (routine (nested false) "method" >>= fun r =>
      pure (Method.mk access isStatic isConstructor name r.1 r.2 pos'))
      (.sign [] .leftParen :: (nameItems [] parameters ++ .sign [] .rightParen ::
        (braced [' '] depth (lineItems (depth + 1) body) ++ rest))) rest (Statement.misreadAll body)
      (fun m => Statement.eraseMethods [m]
        = Statement.eraseMethods [.mk access isStatic isConstructor name parameters body pos])
      (fun m => Statement.agreesMethods
        [.mk access isStatic isConstructor name parameters body pos] [m] = false) := by
    intro pos'
    refine tells_then
      (tells_routine hsteady hnested hparameters hbody hdepth "method" depth rest) ?_ ?_ ?_
    · rintro ⟨parameters', body'⟩ ⟨hsame, hbody'⟩
      refine reads_pure ?_
      obtain rfl : parameters' = parameters := hsame
      simp only [Statement.eraseMethods]
      rw [show Statement.eraseAll body' = _ from hbody']
    · exact fun _ => steady_pure _
    · rintro ⟨parameters', body'⟩ s m s' hbody' hrun
      obtain ⟨rfl, _⟩ := pure_ok hrun
      simp [Statement.agreesMethods, show Statement.agreesAll body body' = false from hbody']
  have hwords : (modifierWords access isStatic).length
      < (wordBehind before (methodWord isConstructor name) (modifierWords access isStatic) ++
        .sign [] .leftParen :: (nameItems [] parameters ++ .sign [] .rightParen ::
          (braced [' '] depth (lineItems (depth + 1) body) ++ rest))).length + 5 := by
    have hfew : (modifierWords access isStatic).length ≤ 2 := by
      cases access <;> cases isStatic <;> decide
    omega
  obtain ⟨b, hmodifiers⟩ := reads_methodModifiers (methodWord isConstructor name)
    (nameItems [] parameters ++ .sign [] .rightParen ::
      (braced [' '] depth (lineItems (depth + 1) body) ++ rest))
    (fun k hk => mem_modifierWords hk) before hwords .sabka false
  rw [modify_modifierWords] at hmodifiers
  refine tells_after (reads_bounded hmodifiers) ?_
  rintro _ rfl
  refine tells_after (reads_skipFunctionWord b _ _) fun _ _ => ?_
  cases isConstructor with
  | true =>
      obtain rfl : name = Method.constructorName := hname
      have haccept : Reads (accept (.keyword .nirmaan))
          (.word b (methodWord true Method.constructorName) :: .sign [] .leftParen ::
            (nameItems [] parameters ++ .sign [] .rightParen ::
              (braced [' '] depth (lineItems (depth + 1) body) ++ rest)))
          (.sign [] .leftParen :: (nameItems [] parameters ++ .sign [] .rightParen ::
            (braced [' '] depth (lineItems (depth + 1) body) ++ rest))) (· = true) := by
        have hword : Item.word b (methodWord true Method.constructorName)
            = Item.keyword b .nirmaan := (Item.keyword_eq_word b .nirmaan).symm
        rw [hword]
        exact reads_accept_keyword
      refine tells_after haccept ?_
      rintro _ rfl
      exact hroutine current.position
  | false =>
      refine tells_after (reads_accept_keyword_not hname.2) ?_
      rintro _ rfl
      refine tells_after reads_memberName ?_
      rintro _ rfl
      exact hroutine current.position

/-! ## Bodies of classes -/

omit hsteady hnested in
theorem classBody_extends {n : Nat} {previous ms : List Method} {s s' : Stream}
    (h : classBody (nested false) n previous s = .ok ms s') :
    ∃ ms', ms = previous.reverse ++ ms' := by
  induction n generalizing previous s with
  | zero => cases h
  | succ n ih =>
      simp only [classBody] at h
      split at h
      · cases h
        exact ⟨[], (List.append_nil _).symm⟩
      · split at h
        · exact ih h
        · split at h
          · next m s₁ heq =>
            obtain ⟨ms', rfl⟩ := ih h
            exact ⟨m :: ms', by simp⟩
          · cases h

omit hsteady hnested in
/-- A method whose name is read as the end of the program ends the class in front of it. -/
theorem classBody_ends {m : Method} (hwell : Statement.MethodsWellFormed [m])
    (hread : m.readsAsEnd = true) {ms : List Method} {depth : Nat} {rest : List Item} {s : Stream}
    (hs : Shows (methodItems depth (m :: ms) ++ rest) s) (n : Nat) (previous : List Method) :
    classBody (nested false) (n + 1) previous s = .ok previous.reverse s := by
  obtain ⟨access, isStatic, isConstructor, name, parameters, body, pos⟩ := m
  unfold Method.readsAsEnd at hread
  simp only [Bool.and_eq_true, beq_iff_eq, Method.name, Method.access, Method.isStatic,
    Bool.not_eq_true'] at hread
  obtain ⟨⟨rfl, rfl⟩, rfl⟩ := hread
  -- a constructor has a name of its own, so this is a method called by the end marker
  have hkind : s.kind = .keyword .khatam := by
    cases isConstructor with
    | true => exact absurd (show "khatam" = Method.constructorName from hwell.1.1) (by decide)
    | false => exact hs.kindOf
  have hends : endsBlock s = true := by
    unfold endsBlock
    rw [hkind]
  simp only [classBody, hends, if_true]

omit hsteady hnested in
/-- Any other method is read in a round of its own. -/
theorem classBody_round {access : Access} {isStatic isConstructor : Bool} {name : String}
    {parameters : List String} {body : List Statement} {pos : Position}
    (hread : (Method.mk access isStatic isConstructor name parameters body pos).readsAsEnd = false)
    {before : List Char} {is : List Item} {s : Stream}
    (hs : Shows (wordBehind before (methodWord isConstructor name)
      (modifierWords access isStatic) ++ is) s) (n : Nat) (previous : List Method) :
    classBody (nested false) (n + 1) previous s =
      (method (nested false) >>= fun m => classBody (nested false) n (m :: previous)) s := by
  obtain ⟨i, is', hcons, heof, hkhatam, hsign⟩ := method_lead hread before
  have hkind : s.kind = i.kind := by
    rw [hcons, List.cons_append] at hs
    exact hs.kind
  have hends : endsBlock s = false := by
    unfold endsBlock
    rw [hkind]
    split
    · next heq => exact absurd heq (hsign .rightBrace)
    · next heq => exact absurd heq heof
    · next heq => exact absurd heq hkhatam
    · rfl
  have hsemicolon : s.check (.sign .semicolon) = false := by
    rw [Bool.eq_false_iff, ne_eq, s.check_sign, hkind]
    exact hsign .semicolon
  simp only [classBody, hends, hsemicolon, Bool.false_eq_true, if_false]
  cases hrun : method (nested false) s with
  | ok m s' => rw [bind_of_ok hrun]
  | error e s' => rw [bind_of_error hrun]

theorem tells_classBody {ms : List Method} (hwell : Statement.MethodsWellFormed ms)
    (hdepth : Statement.depthMethods ms ≤ d) (depth : Nat) (b : List Char) (rest : List Item)
    {n : Nat} (hn : ms.length < n) (previous : List Method) :
    Tells (classBody (nested false) n previous)
      (methodItems depth ms ++ .sign b .rightBrace :: rest) (.sign b .rightBrace :: rest)
      (Statement.misreadMethods ms)
      (fun us => ∃ vs, us = previous.reverse ++ vs ∧
        Statement.eraseMethods vs = Statement.eraseMethods ms)
      (fun us => ∃ vs, us = previous.reverse ++ vs ∧ Statement.agreesMethods ms vs = false) := by
  induction ms generalizing n previous with
  | nil =>
      obtain ⟨n, rfl⟩ : ∃ m, n = m + 1 := ⟨n - 1, by omega⟩
      refine tells_of_reads fun s hs => ?_
      refine ⟨previous.reverse, s, ?_, ⟨[], (List.append_nil _).symm, rfl⟩, hs, rfl⟩
      have hends : endsBlock s = true := by
        unfold endsBlock
        rw [hs.kindOf]
        rfl
      simp only [classBody, hends, if_true]
  | cons m ms ih =>
      obtain ⟨n, rfl⟩ : ∃ m, n = m + 1 := ⟨n - 1, by omega⟩
      rw [List.length_cons] at hn
      have hm : Statement.MethodsWellFormed [m] :=
        Statement.methodsWellFormed_iff.mp hwell m List.mem_cons_self
      rw [Statement.misreadMethods_cons]
      -- a method that is read as the end is lost with all that follow it
      cases hread : m.readsAsEnd with
      | true =>
          rw [Bool.true_or, Bool.true_or]
          refine ⟨fun hfalse => Bool.noConfusion hfalse, fun _ s hs us s' hrun => ?_⟩
          rw [classBody_ends hm hread hs n previous] at hrun
          cases hrun
          refine Or.inl ⟨[], (List.append_nil _).symm, ?_⟩
          cases m
          rfl
      | false =>
          obtain ⟨access, isStatic, isConstructor, name, parameters, body, pos⟩ := m
          have hms : Statement.MethodsWellFormed ms := hwell.2
          rw [Statement.depthMethods] at hdepth
          rw [Bool.false_or]
          simp only [methodItems, List.append_assoc, List.cons_append]
          have hfirst := tells_method hsteady hnested hm (by omega) depth (Statement.newline depth)
            (methodItems depth ms ++ .sign b .rightBrace :: rest)
          refine Tells.congr ?_ fun s hs => classBody_round hread hs n previous
          refine tells_bind hfirst (fun m' hm' => ?_) ?_ ?_
          · refine (ih hms (by omega) (by omega) (m' :: previous)).cons (fun us hus => ?_)
              fun us hus => ?_
            · rw [Statement.eraseMethods_cons m', hm', hus]
              rfl
            · rw [Statement.agreesMethods_cons, hus, Bool.and_false]
          · exact fun m' => steady_classBody (hsteady false) n (m' :: previous)
          · intro m' s us s' hm' hrun
            obtain ⟨vs, rfl⟩ := classBody_extends hrun
            refine ⟨m' :: vs, by simp, ?_⟩
            rw [Statement.agreesMethods_cons, hm', Bool.false_and]

theorem tells_classDecl {name : String} {superclass : Option String} {methods : List Method}
    {pos : Position} (hwell : (Statement.classDecl name superclass methods pos).WellFormed false)
    (hdepth : (Statement.classDecl name superclass methods pos).depth ≤ d + 1) (depth : Nat)
    (before : List Char) (rest : List Item) :
    Tells (classDeclOf (nested false))
      ((Statement.classDecl name superclass methods pos).items depth before ++ rest) rest
      (Statement.classDecl name superclass methods pos).misread
      (Statement.Same (.classDecl name superclass methods pos))
      (Statement.Differs (.classDecl name superclass methods pos)) := by
  obtain ⟨hname, hsuper, hmethods⟩ := hwell
  rw [Statement.depth] at hdepth
  simp only [Statement.items, braced, List.cons_append, List.append_assoc]
  refine tells_after reads_advance fun start _ => ?_
  refine tells_after (reads_identifier hname) ?_
  rintro _ rfl
  -- with or without a superclass, what comes next is the brace
  have hparent : ∀ is, Reads superclassName?
      (Statement.superclassItems superclass ++ .sign [' '] .leftBrace :: is)
      (.sign [' '] .leftBrace :: is) (· = superclass) := by
    intro is
    cases superclass with
    | none =>
        refine reads_bind (reads_accept_keyword_not TokenKind.noConfusion) ?_
        rintro _ rfl
        exact reads_pure rfl
    | some parent =>
        refine reads_bind reads_accept_keyword ?_
        rintro _ rfl
        refine reads_bind (reads_identifier (hsuper parent rfl)) ?_
        rintro _ rfl
        exact reads_pure rfl
  refine tells_after (hparent _) ?_
  rintro _ rfl
  refine tells_after reads_consume_sign fun _ _ => ?_
  have hbody := tells_classBody hsteady hnested hmethods (by omega) (depth + 1)
    (if (methodItems (depth + 1) methods).isEmpty then [] else Statement.newline depth) rest
    (n := (methodItems (depth + 1) methods ++ .sign (if (methodItems (depth + 1) methods).isEmpty
      then [] else Statement.newline depth) .rightBrace :: rest).length + 5) ?_ []
  · refine tells_then (tells_bounded hbody) ?_ ?_ ?_
    · rintro us ⟨vs, rfl, hvs⟩
      refine reads_bind reads_consume_sign fun _ _ => reads_pure ?_
      show Statement.classDecl _ _ (Statement.eraseMethods us) _ = Statement.classDecl _ _ _ _
      rw [hvs]
    · exact fun _ => steady_bind (steady_consume _ _) fun _ => steady_pure _
    · rintro us s t s' ⟨vs, rfl, hvs⟩ hrun
      obtain ⟨_, s₁, _, hrun⟩ := bind_ok hrun
      obtain ⟨rfl, _⟩ := pure_ok hrun
      unfold Statement.Differs
      rw [Statement.agrees]
      show (_ && Statement.agreesMethods methods us) = false
      rw [hvs, Bool.and_false]
  -- the body is read with fuel for as many rounds as there are items
  · have hlines := Statement.length_le_methodItems (depth + 1) methods
    rw [List.length_append]
    omega

end Nested

end Parser

end Lipi
