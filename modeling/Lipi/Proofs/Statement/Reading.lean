import Lipi.Proofs.Expr.Reading
import Lipi.Proofs.Statement.WellFormed
import Lipi.Statement.Parser

set_option autoImplicit false

/-! # The statements that are read

**Every statement that a reader gives is well-formed** (`declarationWithin_built`), whether errors
have been recorded on the way or not: a statement with an error in it is not part of the tree. An
open statement is not followed by an `else`, since its last conditional would have taken it.
-/

namespace Lipi

namespace Parser

/-! ## Tokens and errors are kept -/

section Steady

variable {nested : Parser Statement} (hnested : Steady nested)

include hnested

/-- A block records the errors of its statements and goes on. -/
theorem steady_blockBody (n : Nat) (previous : List Statement) :
    Steady (blockBody nested n previous) := by
  induction n generalizing previous with
  | zero => exact steady_failExhausted
  | succ n ih =>
      intro s
      simp only [blockBody]
      split
      · exact .refl s
      · split
        · next statement s' heq => exact (hnested.ok heq).trans (ih _ s')
        · next error s' heq =>
          have hkeeps := hnested.error heq
          split
          · exact hkeeps
          · exact (hkeeps.trans ((Stream.Keeps.record s' error).trans (.synchronize _ true))).trans
              (ih _ _)

theorem steady_blockOf (context : String) : Steady (blockOf nested context) :=
  steady_bind (steady_consume _ _) fun _ =>
    steady_bind (steady_bounded fun n => steady_blockBody hnested n []) fun _ =>
      steady_bind (steady_consume _ _) fun _ => steady_pure _

theorem steady_routine (what : String) : Steady (routine nested what) :=
  steady_bind (steady_consume _ _) fun _ =>
    steady_bind (steady_commaSeparated (steady_identifier _) _ _) fun _ =>
      steady_bind (steady_blockOf hnested _) fun _ => steady_pure _

theorem steady_functionDecl : Steady (functionDecl nested) :=
  steady_bind steady_advance fun _ => steady_bind steady_get fun _ =>
    steady_bind (steady_identifier _) fun _ =>
      steady_bind (steady_routine hnested _) fun _ => steady_pure _

omit hnested in
theorem steady_methodModifiers (n : Nat) (access : Access) (isStatic : Bool) :
    Steady (methodModifiers n access isStatic) := by
  induction n generalizing access isStatic with
  | zero => exact steady_failExhausted
  | succ n ih =>
      intro s
      have hadvance := Stream.Keeps.advance s
      simp only [methodModifiers]
      split
      · exact .refl s
      · split
        · exact hadvance.trans (ih _ _ _)
        · exact hadvance.trans (ih _ _ _)
        · exact hadvance.trans (ih _ _ _)
        · exact hadvance.trans (ih _ _ _)
        · exact .refl s

omit hnested in
theorem steady_skipFunctionWord : Steady skipFunctionWord := by
  intro s
  unfold skipFunctionWord
  split
  · exact .refl s
  · exact .advance s
  · exact .refl s

theorem steady_method : Steady (method nested) := by
  refine steady_bind steady_get fun _ =>
    steady_bind (steady_bounded fun n => steady_methodModifiers n _ _) fun _ =>
      steady_bind steady_skipFunctionWord fun _ => steady_bind (steady_accept _) fun isConstructor => ?_
  cases isConstructor with
  | true => exact steady_bind (steady_routine hnested _) fun _ => steady_pure _
  | false =>
      exact steady_bind (steady_memberName _) fun _ =>
        steady_bind (steady_routine hnested _) fun _ => steady_pure _

theorem steady_classBody (n : Nat) (previous : List Method) :
    Steady (classBody nested n previous) := by
  induction n generalizing previous with
  | zero => exact steady_failExhausted
  | succ n ih =>
      intro s
      simp only [classBody]
      split
      · exact .refl s
      · split
        · exact (Stream.Keeps.advance s).trans (ih _ _)
        · split
          · next heq => exact ((steady_method hnested).ok heq).trans (ih _ _)
          · next heq => exact (steady_method hnested).error heq

omit hnested in
theorem steady_superclassName? : Steady superclassName? := by
  refine steady_bind (steady_accept _) fun inherits => ?_
  cases inherits with
  | true => exact steady_bind (steady_identifier _) fun _ => steady_pure _
  | false => exact steady_pure _

theorem steady_classDeclOf : Steady (classDeclOf nested) :=
  steady_bind steady_advance fun _ => steady_bind (steady_identifier _) fun _ =>
    steady_bind steady_superclassName? fun _ => steady_bind (steady_consume _ _) fun _ =>
      steady_bind (steady_bounded fun n => steady_classBody hnested n []) fun _ =>
        steady_bind (steady_consume _ _) fun _ => steady_pure _

theorem steady_conditionalStatement : Steady (conditionalStatement nested) := by
  refine steady_bind steady_advance fun _ => steady_bind steady_condition fun _ =>
    steady_bind hnested fun _ => steady_bind (steady_accept _) fun hasElse => ?_
  cases hasElse with
  | true => exact steady_bind hnested fun _ => steady_pure _
  | false => exact steady_pure _

theorem steady_loopStatement : Steady (loopStatement nested) :=
  steady_bind steady_advance fun _ => steady_bind steady_condition fun _ =>
    steady_bind hnested fun _ => steady_pure _

theorem steady_exportStatement : Steady (exportStatement nested) := by
  refine steady_bind steady_advance fun _ => steady_bind steady_get fun s => ?_
  have hdeclaration : ∀ pos, Steady (do
      let declaration ← nested
      return Statement.exportDecl declaration pos) :=
    fun _ => steady_bind hnested fun _ => steady_pure _
  split
  · exact steady_bind steady_advance fun _ =>
      steady_bind (steady_commaSeparated (steady_identifier _) _ _) fun _ =>
        steady_bind (steady_boundary _) fun _ => steady_pure _
  · exact hdeclaration _
  · exact hdeclaration _
  · exact hdeclaration _
  · exact hdeclaration _
  · exact steady_failExpected _

end Steady

theorem steady_bindingDecl (constant : Bool) : Steady (bindingDecl constant) :=
  steady_bind steady_advance fun _ => steady_bind (steady_identifier _) fun _ =>
    steady_bind (steady_consume _ _) fun _ => steady_bind steady_expression fun _ =>
      steady_bind (steady_boundary _) fun _ => steady_pure _

theorem steady_returnStatement : Steady returnStatement := by
  refine steady_bind steady_advance fun _ => steady_bind steady_get fun s => ?_
  split
  · exact steady_bind (steady_boundary _) fun _ => steady_pure _
  · exact steady_bind steady_expression fun _ =>
      steady_bind (steady_boundary _) fun _ => steady_pure _

theorem steady_printStatement : Steady printStatement :=
  steady_bind steady_advance fun _ => steady_bind steady_expression fun _ =>
    steady_bind (steady_boundary _) fun _ => steady_pure _

theorem steady_expressionStatement : Steady expressionStatement :=
  steady_bind steady_get fun _ => steady_bind steady_expression fun _ =>
    steady_bind (steady_boundary _) fun _ => steady_pure _

theorem steady_moduleName : Steady moduleName := by
  intro s
  unfold moduleName
  split
  · exact .advance s
  · exact .refl s

theorem steady_importStatement : Steady importStatement :=
  steady_bind steady_advance fun _ => steady_bind (steady_consume _ _) fun _ =>
    steady_bind (steady_commaSeparated (steady_identifier _) _ _) fun _ =>
      steady_bind (steady_consume _ _) fun _ => steady_bind steady_moduleName fun _ =>
        steady_bind (steady_boundary _) fun _ => steady_pure _

theorem steady_statementOf {nested : Bool → Parser Statement} (hnested : ∀ top, Steady (nested top))
    (topLevel : Bool) : Steady (statementOf nested topLevel) := by
  intro s
  unfold statementOf
  split
  · exact steady_bindingDecl false s
  · exact steady_bindingDecl true s
  · exact steady_functionDecl (hnested false) s
  · exact steady_classDeclOf (hnested false) s
  · split
    · exact steady_importStatement s
    · exact .refl s
  · split
    · exact steady_exportStatement (hnested true) s
    · exact .refl s
  · exact .refl s
  · exact steady_conditionalStatement (hnested false) s
  · exact steady_loopStatement (hnested false) s
  · exact steady_returnStatement s
  · exact steady_printStatement s
  · have hblock := steady_blockOf (hnested false) "block"
    split
    · next heq => exact hblock.ok heq
    · next heq => exact hblock.error heq
  · exact .advance s
  · exact steady_expressionStatement s

theorem steady_declarationWithin (n : Nat) (topLevel : Bool) :
    Steady (declarationWithin n topLevel) := by
  induction n generalizing topLevel with
  | zero => exact steady_failExhausted
  | succ n ih => exact steady_statementOf ih topLevel

/-! ## Statements are well-formed -/

/-- What is known of a statement that has been read from `s` up to `s'`. -/
structure Built (topLevel : Bool) (s : Stream) (t : Statement) (s' : Stream) : Prop where
  well : t.WellFormed topLevel
  closed : t.isOpen = true → s'.kind ≠ .keyword .warna
  minus : t.opening = some .minus → s.kind = .sign .minus
  declares : s.kind = .keyword .rakho ∨ s.kind = .keyword .pakka ∨ s.kind = .keyword .kaam ∨
    s.kind = .keyword .kaksha → t.declaredName?.isSome = true

/-- A declaration is never open and is no expression. -/
theorem built_declaration {topLevel : Bool} {s s' : Stream} {t : Statement}
    (hwell : t.WellFormed topLevel) (hname : t.declaredName?.isSome = true) :
    Built topLevel s t s' := by
  refine ⟨hwell, ?_, ?_, fun _ => hname⟩
  · intro hopen
    cases t using Statement.shapes <;> contradiction
  · intro hminus
    cases t using Statement.shapes <;> contradiction

/-- Other statements that start with a keyword. -/
theorem built_keyword {topLevel : Bool} {s s' : Stream} {t : Statement} {k : Keyword}
    (hkind : s.kind = .keyword k)
    (hother : k ≠ .rakho ∧ k ≠ .pakka ∧ k ≠ .kaam ∧ k ≠ .kaksha) (hwell : t.WellFormed topLevel)
    (hclosed : t.isOpen = true → s'.kind ≠ .keyword .warna) (hopening : t.opening = none) :
    Built topLevel s t s' := by
  refine ⟨hwell, hclosed, ?_, ?_⟩
  · intro hminus
    rw [hopening] at hminus
    cases hminus
  · rw [hkind]
    rintro (h | h | h | h) <;> cases h
    · exact absurd rfl hother.1
    · exact absurd rfl hother.2.1
    · exact absurd rfl hother.2.2.1
    · exact absurd rfl hother.2.2.2

theorem names_of_commaSeparated {expectation : String} {closing : Sign} {context : String}
    {s s' : Stream} {names : List String} (hs : s.Lexed)
    (h : commaSeparated (identifier expectation) closing context s = .ok names s') :
    ∀ x ∈ names, IsName x := by
  refine forall_of_commaSeparated (steady_identifier expectation) ?_ rfl h
  intro s₁ x s₂ htokens hrun
  exact isName_of_identifier (hs.of_tokens htokens) hrun

section Well

variable {nested : Parser Statement} (hsteady : Steady nested)
  (hnested : ∀ {s t s'}, s.Lexed → nested s = .ok t s' → t.WellFormed false)

include hsteady hnested

theorem blockBody_well {n : Nat} {previous statements : List Statement} {s s' : Stream}
    (hs : s.Lexed) (hprevious : ∀ t ∈ previous, t.WellFormed false)
    (h : blockBody nested n previous s = .ok statements s') :
    Statement.AllWellFormed false statements := by
  induction n generalizing previous s with
  | zero => cases h
  | succ n ih =>
      simp only [blockBody] at h
      split at h
      · cases h
        rw [Statement.allWellFormed_iff]
        exact fun t ht => hprevious t (List.mem_reverse.mp ht)
      · split at h
        · next t s₁ heq =>
          refine ih (hs.keeps (hsteady.ok heq)) ?_ h
          intro u hu
          rcases List.mem_cons.mp hu with rfl | hu
          · exact hnested hs heq
          · exact hprevious u hu
        -- after an error the tokens are still the same ones
        · next error s₁ heq =>
          split at h
          · cases h
          · have hkeeps := (hsteady.error heq).trans
              ((Stream.Keeps.record s₁ error).trans (.synchronize _ true))
            exact ih (hs.keeps hkeeps) hprevious h

theorem blockOf_well {context : String} {s s' : Stream} {pos : Position}
    {statements : List Statement} (hs : s.Lexed)
    (h : blockOf nested context s = .ok (pos, statements) s') :
    Statement.AllWellFormed false statements := by
  obtain ⟨start, s₁, hstart, h⟩ := bind_ok h
  have hs₁ := hs.keeps ((steady_consume _ _).ok hstart)
  obtain ⟨body, s₂, hbody, h⟩ := bind_ok h
  obtain ⟨_, s₃, _, h⟩ := bind_ok h
  obtain ⟨hpair, _⟩ := pure_ok h
  cases hpair
  exact blockBody_well hsteady hnested hs₁ (fun t ht => absurd ht List.not_mem_nil) hbody

theorem routine_well {what : String} {s s' : Stream} {parameters : List String}
    {body : List Statement} (hs : s.Lexed)
    (h : routine nested what s = .ok (parameters, body) s') :
    (∀ x ∈ parameters, IsName x) ∧ Statement.AllWellFormed false body := by
  obtain ⟨_, s₁, hopen, h⟩ := bind_ok h
  have hs₁ := hs.keeps ((steady_consume _ _).ok hopen)
  obtain ⟨names, s₂, hnames, h⟩ := bind_ok h
  have hs₂ := hs₁.keeps ((steady_commaSeparated (steady_identifier _) _ _).ok hnames)
  obtain ⟨⟨pos, statements⟩, s₃, hblock, h⟩ := bind_ok h
  obtain ⟨hpair, _⟩ := pure_ok h
  cases hpair
  exact ⟨names_of_commaSeparated hs₁ hnames, blockOf_well hsteady hnested hs₂ hblock⟩

theorem functionDecl_built {topLevel : Bool} {s s' : Stream} {t : Statement} (hs : s.Lexed)
    (h : functionDecl nested s = .ok t s') : Built topLevel s t s' := by
  obtain ⟨_, s₁, hadvance, h⟩ := bind_ok h
  have hs₁ := hs.keeps (steady_advance.ok hadvance)
  obtain ⟨_, s₂, hget, h⟩ := bind_ok h
  have hs₂ := hs₁.keeps (steady_get.ok hget)
  obtain ⟨name, s₃, hname, h⟩ := bind_ok h
  have hs₃ := hs₂.keeps ((steady_identifier _).ok hname)
  obtain ⟨⟨parameters, body⟩, s₄, hroutine, h⟩ := bind_ok h
  obtain ⟨rfl, rfl⟩ := pure_ok h
  exact built_declaration
    ⟨isName_of_identifier hs₂ hname, routine_well hsteady hnested hs₃ hroutine⟩ rfl

/-- The name of a method is a word, and the keyword for constructors makes one. -/
theorem method_well {s s' : Stream} {m : Method} (hs : s.Lexed) (h : method nested s = .ok m s') :
    Statement.MethodsWellFormed [m] := by
  obtain ⟨_, s₁, hget, h⟩ := bind_ok h
  have hs₁ := hs.keeps (steady_get.ok hget)
  obtain ⟨⟨access, isStatic⟩, s₂, hmodifiers, h⟩ := bind_ok h
  have hs₂ := hs₁.keeps ((steady_bounded fun n => steady_methodModifiers n _ _).ok hmodifiers)
  obtain ⟨_, s₃, hskip, h⟩ := bind_ok h
  have hs₃ := hs₂.keeps (steady_skipFunctionWord.ok hskip)
  obtain ⟨isConstructor, s₄, haccept, h⟩ := bind_ok h
  have hs₄ := hs₃.keeps ((steady_accept _).ok haccept)
  cases isConstructor with
  | true =>
      obtain ⟨⟨parameters, body⟩, s₅, hroutine, h⟩ := bind_ok h
      obtain ⟨rfl, _⟩ := pure_ok h
      exact ⟨⟨rfl, routine_well hsteady hnested hs₄ hroutine⟩, trivial⟩
  | false =>
      obtain ⟨name, s₅, hname, h⟩ := bind_ok h
      have hs₅ := hs₄.keeps ((steady_memberName _).ok hname)
      obtain ⟨⟨parameters, body⟩, s₆, hroutine, h⟩ := bind_ok h
      obtain ⟨rfl, _⟩ := pure_ok h
      obtain ⟨hword, hkind⟩ := isWord_of_memberName hs₄ hname
      refine ⟨⟨⟨hword, ?_⟩, routine_well hsteady hnested hs₅ hroutine⟩, trivial⟩
      -- the keyword for constructors has been refused, so the name does not spell it
      rcases accept_ok haccept with ⟨hfalse, _⟩ | ⟨_, hcheck, rfl⟩
      · cases hfalse
      · rw [← hkind]
        intro hnirmaan
        rw [(s₄.check_keyword .nirmaan).mpr hnirmaan] at hcheck
        cases hcheck

theorem classBody_well {n : Nat} {previous methods : List Method} {s s' : Stream} (hs : s.Lexed)
    (hprevious : ∀ m ∈ previous, Statement.MethodsWellFormed [m])
    (h : classBody nested n previous s = .ok methods s') :
    Statement.MethodsWellFormed methods := by
  induction n generalizing previous s with
  | zero => cases h
  | succ n ih =>
      simp only [classBody] at h
      split at h
      · cases h
        rw [Statement.methodsWellFormed_iff]
        exact fun m hm => hprevious m (List.mem_reverse.mp hm)
      · split at h
        · exact ih (hs.keeps (.advance s)) hprevious h
        · split at h
          · next m s₁ heq =>
            refine ih (hs.keeps ((steady_method hsteady).ok heq)) ?_ h
            intro m' hm'
            rcases List.mem_cons.mp hm' with rfl | hm'
            · exact method_well hsteady hnested hs heq
            · exact hprevious m' hm'
          · cases h

theorem classDeclOf_built {topLevel : Bool} {s s' : Stream} {t : Statement} (hs : s.Lexed)
    (h : classDeclOf nested s = .ok t s') : Built topLevel s t s' := by
  obtain ⟨_, s₁, hadvance, h⟩ := bind_ok h
  have hs₁ := hs.keeps (steady_advance.ok hadvance)
  obtain ⟨name, s₂, hname, h⟩ := bind_ok h
  have hs₂ := hs₁.keeps ((steady_identifier _).ok hname)
  obtain ⟨superclass, s₃, hsuper, h⟩ := bind_ok h
  have hs₃ := hs₂.keeps (steady_superclassName?.ok hsuper)
  obtain ⟨_, s₄, hopen, h⟩ := bind_ok h
  have hs₄ := hs₃.keeps ((steady_consume _ _).ok hopen)
  obtain ⟨methods, s₅, hmethods, h⟩ := bind_ok h
  obtain ⟨_, s₆, _, h⟩ := bind_ok h
  obtain ⟨rfl, rfl⟩ := pure_ok h
  refine built_declaration ⟨isName_of_identifier hs₁ hname, ?_, ?_⟩ rfl
  -- a superclass is named only behind its keyword
  · rintro parent rfl
    obtain ⟨inherits, s₇, haccept, hsuper⟩ := bind_ok hsuper
    have hs₇ := hs₂.keeps ((steady_accept _).ok haccept)
    cases inherits with
    | true =>
        obtain ⟨parent', s₈, hparent, hsuper⟩ := bind_ok hsuper
        obtain ⟨hsome, _⟩ := pure_ok hsuper
        cases hsome
        exact isName_of_identifier hs₇ hparent
    | false =>
        obtain ⟨hnone, _⟩ := pure_ok hsuper
        cases hnone
  · exact classBody_well hsteady hnested hs₄ (fun m hm => absurd hm List.not_mem_nil) hmethods

end Well

/-! ## Simple statements -/

theorem bindingDecl_built {constant topLevel : Bool} {s s' : Stream} {t : Statement} (hs : s.Lexed)
    (h : bindingDecl constant s = .ok t s') : Built topLevel s t s' := by
  obtain ⟨_, s₁, hadvance, h⟩ := bind_ok h
  have hs₁ := hs.keeps (steady_advance.ok hadvance)
  obtain ⟨name, s₂, hname, h⟩ := bind_ok h
  have hs₂ := hs₁.keeps ((steady_identifier _).ok hname)
  obtain ⟨_, s₃, hequal, h⟩ := bind_ok h
  have hs₃ := hs₂.keeps ((steady_consume _ _).ok hequal)
  obtain ⟨e, s₄, hexpr, h⟩ := bind_ok h
  obtain ⟨_, s₅, _, h⟩ := bind_ok h
  obtain ⟨rfl, rfl⟩ := pure_ok h
  exact built_declaration ⟨isName_of_identifier hs₁ hname, (expression_read hs₃ hexpr).1⟩ rfl

theorem returnStatement_well {topLevel : Bool} {s s' : Stream} {t : Statement} (hs : s.Lexed)
    (h : returnStatement s = .ok t s') :
    t.WellFormed topLevel ∧ t.isOpen = false ∧ t.opening = none := by
  obtain ⟨_, s₁, hadvance, h⟩ := bind_ok h
  have hs₁ := hs.keeps (steady_advance.ok hadvance)
  obtain ⟨_, s₂, hget, h⟩ := bind_ok h
  have hs₂ := hs₁.keeps (steady_get.ok hget)
  split at h
  · obtain ⟨_, s₃, _, h⟩ := bind_ok h
    obtain ⟨rfl, _⟩ := pure_ok h
    exact ⟨trivial, rfl, rfl⟩
  · obtain ⟨e, s₃, hexpr, h⟩ := bind_ok h
    obtain ⟨_, s₄, _, h⟩ := bind_ok h
    have hwell := (expression_read hs₂ hexpr).1
    obtain ⟨rfl, _⟩ := pure_ok h
    exact ⟨hwell, rfl, rfl⟩

theorem printStatement_well {topLevel : Bool} {s s' : Stream} {t : Statement} (hs : s.Lexed)
    (h : printStatement s = .ok t s') :
    t.WellFormed topLevel ∧ t.isOpen = false ∧ t.opening = none := by
  obtain ⟨_, s₁, hadvance, h⟩ := bind_ok h
  have hs₁ := hs.keeps (steady_advance.ok hadvance)
  obtain ⟨e, s₂, hexpr, h⟩ := bind_ok h
  obtain ⟨_, s₃, _, h⟩ := bind_ok h
  have hwell := (expression_read hs₁ hexpr).1
  obtain ⟨rfl, _⟩ := pure_ok h
  exact ⟨hwell, rfl, rfl⟩

theorem importStatement_well {s s' : Stream} {t : Statement} (hs : s.Lexed)
    (h : importStatement s = .ok t s') :
    t.WellFormed true ∧ t.isOpen = false ∧ t.opening = none := by
  obtain ⟨_, s₁, hadvance, h⟩ := bind_ok h
  have hs₁ := hs.keeps (steady_advance.ok hadvance)
  obtain ⟨_, s₂, hopen, h⟩ := bind_ok h
  have hs₂ := hs₁.keeps ((steady_consume _ _).ok hopen)
  obtain ⟨names, s₃, hnames, h⟩ := bind_ok h
  obtain ⟨_, s₄, _, h⟩ := bind_ok h
  obtain ⟨source, s₅, _, h⟩ := bind_ok h
  obtain ⟨_, s₆, _, h⟩ := bind_ok h
  obtain ⟨rfl, _⟩ := pure_ok h
  exact ⟨⟨rfl, names_of_commaSeparated hs₂ hnames⟩, rfl, rfl⟩

theorem expressionStatement_built {topLevel : Bool} {s s' : Stream} {t : Statement} (hs : s.Lexed)
    (hkind : ¬(s.kind = .keyword .rakho ∨ s.kind = .keyword .pakka ∨ s.kind = .keyword .kaam ∨
      s.kind = .keyword .kaksha))
    (h : expressionStatement s = .ok t s') : Built topLevel s t s' := by
  obtain ⟨_, s₁, hget, h⟩ := bind_ok h
  have hsame : s₁ = s := by
    cases hget
    rfl
  obtain ⟨e, s₂, hexpr, h⟩ := bind_ok h
  obtain ⟨_, s₃, _, h⟩ := bind_ok h
  rw [hsame] at hexpr
  -- the statement starts where its expression does
  obtain ⟨hwell, hminus, _⟩ := expression_read hs hexpr
  obtain ⟨rfl, _⟩ := pure_ok h
  exact ⟨hwell, fun hopen => absurd hopen Bool.false_ne_true, hminus, fun hk => absurd hk hkind⟩

/-! ## Statements that nest -/

section Built

variable {nested : Bool → Parser Statement} (hsteady : ∀ top, Steady (nested top))
  (hnested : ∀ {top s t s'}, s.Lexed → nested top s = .ok t s' → Built top s t s')

include hsteady hnested

omit hsteady in
/-- The statement behind a condition does not start with a minus sign: the condition would have
taken it. -/
theorem branch_well {s s₁ s₂ : Stream} {c : Expr} {t : Statement} (hs : s.Lexed)
    (hcondition : condition s = .ok c s₁) (hbranch : nested false s₁ = .ok t s₂) :
    c.WellFormed ∧ t.WellFormed false ∧ t.opening ≠ some .minus := by
  obtain ⟨hwell, hnext⟩ := condition_read hs hcondition
  have hbuilt := hnested (hs.keeps (steady_condition.ok hcondition)) hbranch
  exact ⟨hwell, hbuilt.well, fun hminus => hnext (hbuilt.minus hminus)⟩

theorem conditionalStatement_built {topLevel : Bool} {s s' : Stream} {t : Statement} (hs : s.Lexed)
    (hkind : s.kind = .keyword .agar) (h : conditionalStatement (nested false) s = .ok t s') :
    Built topLevel s t s' := by
  obtain ⟨_, s₁, hadvance, h⟩ := bind_ok h
  have hs₁ := hs.keeps (steady_advance.ok hadvance)
  obtain ⟨c, s₂, hcondition, h⟩ := bind_ok h
  have hs₂ := hs₁.keeps (steady_condition.ok hcondition)
  obtain ⟨thenBranch, s₃, hthen, h⟩ := bind_ok h
  have hs₃ := hs₂.keeps ((hsteady false).ok hthen)
  have hwell := branch_well hnested hs₁ hcondition hthen
  obtain ⟨hasElse, s₄, haccept, h⟩ := bind_ok h
  have hs₄ := hs₃.keeps ((steady_accept _).ok haccept)
  rcases accept_ok haccept with ⟨rfl, hcheck, _⟩ | ⟨rfl, hcheck, hsame⟩
  · obtain ⟨elseBranch, s₅, helse, h⟩ := bind_ok h
    obtain ⟨rfl, rfl⟩ := pure_ok h
    have hbuilt := hnested hs₄ helse
    refine built_keyword hkind (by decide) ⟨hwell, ?_, hbuilt.well⟩ hbuilt.closed rfl
    -- an open first branch would have taken the `else`
    rw [Bool.eq_false_iff]
    intro hopen
    exact (hnested hs₂ hthen).closed hopen ((s₃.check_keyword .warna).mp hcheck)
  · obtain ⟨rfl, rfl⟩ := pure_ok h
    -- no `else` follows, since the reader has looked for one
    refine built_keyword hkind (by decide) hwell (fun _ hwarna => ?_) rfl
    rw [hsame] at hwarna
    rw [(s₃.check_keyword .warna).mpr hwarna] at hcheck
    cases hcheck

omit hsteady in
theorem loopStatement_built {topLevel : Bool} {s s' : Stream} {t : Statement} (hs : s.Lexed)
    (hkind : s.kind = .keyword .jabtak) (h : loopStatement (nested false) s = .ok t s') :
    Built topLevel s t s' := by
  obtain ⟨_, s₁, hadvance, h⟩ := bind_ok h
  have hs₁ := hs.keeps (steady_advance.ok hadvance)
  obtain ⟨c, s₂, hcondition, h⟩ := bind_ok h
  have hs₂ := hs₁.keeps (steady_condition.ok hcondition)
  obtain ⟨body, s₃, hbody, h⟩ := bind_ok h
  have hwell := branch_well hnested hs₁ hcondition hbody
  obtain ⟨rfl, rfl⟩ := pure_ok h
  exact built_keyword hkind (by decide) hwell (hnested hs₂ hbody).closed rfl

omit hsteady in
theorem exportStatement_well {s s' : Stream} {t : Statement} (hs : s.Lexed)
    (h : exportStatement (nested true) s = .ok t s') :
    t.WellFormed true ∧ t.isOpen = false ∧ t.opening = none := by
  obtain ⟨start, s₁, hadvance, hrun⟩ := bind_ok h
  have hs₁ := hs.keeps (steady_advance.ok hadvance)
  obtain ⟨current, s₂, hget, hrest⟩ := bind_ok hrun
  obtain ⟨rfl, rfl⟩ : current = s₁ ∧ s₂ = s₁ := by
    cases hget
    exact ⟨rfl, rfl⟩
  have hdeclaration : (do
      let declaration ← nested true
      return Statement.exportDecl declaration start.position : Parser Statement) s₂ = .ok t s' →
      (s₂.kind = .keyword .rakho ∨ s₂.kind = .keyword .pakka ∨ s₂.kind = .keyword .kaam ∨
        s₂.kind = .keyword .kaksha) →
      t.WellFormed true ∧ t.isOpen = false ∧ t.opening = none := by
    intro h hkind
    obtain ⟨declaration, s₃, hnext, h⟩ := bind_ok h
    have hbuilt := hnested hs₁ hnext
    obtain ⟨rfl, _⟩ := pure_ok h
    exact ⟨⟨rfl, hbuilt.declares hkind, hbuilt.well⟩, rfl, rfl⟩
  -- only the words of declarations lead to a nested statement
  generalize hkind : s₂.kind = kind at hrest
  split at hrest
  · obtain ⟨_, s₃, hbrace, h⟩ := bind_ok hrest
    have hs₃ := hs₁.keeps (steady_advance.ok hbrace)
    obtain ⟨names, s₄, hnames, h⟩ := bind_ok h
    obtain ⟨_, s₅, _, h⟩ := bind_ok h
    obtain ⟨rfl, _⟩ := pure_ok h
    exact ⟨⟨rfl, names_of_commaSeparated hs₃ hnames⟩, rfl, rfl⟩
  · exact hdeclaration hrest (Or.inl hkind)
  · exact hdeclaration hrest (Or.inr (Or.inl hkind))
  · exact hdeclaration hrest (Or.inr (Or.inr (Or.inl hkind)))
  · exact hdeclaration hrest (Or.inr (Or.inr (Or.inr hkind)))
  · cases hrest

theorem statementOf_built {topLevel : Bool} {s s' : Stream} {t : Statement} (hs : s.Lexed)
    (h : statementOf nested topLevel s = .ok t s') : Built topLevel s t s' := by
  have hinner : ∀ {s t s'}, s.Lexed → nested false s = .ok t s' → t.WellFormed false :=
    fun hs h => (hnested hs h).well
  have hsimple : ∀ {k : Keyword}, s.kind = .keyword k →
      k ≠ .rakho ∧ k ≠ .pakka ∧ k ≠ .kaam ∧ k ≠ .kaksha →
      t.WellFormed topLevel ∧ t.isOpen = false ∧ t.opening = none → Built topLevel s t s' := by
    intro k hkind hother hwell
    refine built_keyword hkind hother hwell.1 ?_ hwell.2.2
    rw [hwell.2.1]
    exact fun hopen => absurd hopen Bool.false_ne_true
  -- one case for each first token, in the order of the reader
  unfold statementOf at h
  split at h
  · exact bindingDecl_built hs h
  · exact bindingDecl_built hs h
  · exact functionDecl_built (hsteady false) hinner hs h
  · exact classDeclOf_built (hsteady false) hinner hs h
  · next hkind =>
    split at h
    · next htop => exact hsimple hkind (by decide) (htop ▸ importStatement_well hs h)
    · cases h
  · next hkind =>
    split at h
    · next htop =>
      exact hsimple hkind (by decide) (htop ▸ exportStatement_well hnested hs h)
    · cases h
  · cases h
  · next hkind => exact conditionalStatement_built hsteady hnested hs hkind h
  · next hkind => exact loopStatement_built hnested hs hkind h
  · next hkind => exact hsimple hkind (by decide) (returnStatement_well hs h)
  · next hkind => exact hsimple hkind (by decide) (printStatement_well hs h)
  · next hkind =>
    split at h
    · next pos statements s₁ heq =>
      have hwell := blockOf_well (hsteady false) hinner hs heq
      cases h
      refine ⟨hwell, fun hopen => absurd hopen Bool.false_ne_true, nofun, ?_⟩
      rw [hkind]
      rintro (h | h | h | h) <;> cases h
    · cases h
  · next hkind =>
    cases h
    refine ⟨trivial, fun hopen => absurd hopen Bool.false_ne_true, nofun, ?_⟩
    rw [hkind]
    rintro (h | h | h | h) <;> cases h
  · next hrakho hpakka hkaam hkaksha _ _ _ _ _ _ _ _ _ =>
    refine expressionStatement_built hs ?_ h
    rintro (hk | hk | hk | hk)
    · exact hrakho hk
    · exact hpakka hk
    · exact hkaam hk
    · exact hkaksha hk

end Built

/-- **Every statement that is read is well-formed.** -/
theorem declarationWithin_built (n : Nat) {topLevel : Bool} {s s' : Stream} {t : Statement}
    (hs : s.Lexed) (h : declarationWithin n topLevel s = .ok t s') : Built topLevel s t s' := by
  induction n generalizing topLevel s t s' with
  | zero => cases h
  | succ n ih => exact statementOf_built (steady_declarationWithin n) ih hs h

end Parser

end Lipi
