import Lipi.Proofs.Program.Grammar

set_option autoImplicit false

/-! # The structure of programs

What holds at every depth of a program that is read (`Program.structured_of_ofText`). The parts of a
tree are the trees directly inside it; **each part of a well-formed tree is well-formed**, so that
what a reader makes sure of in one place holds in all of them. The program markers are seen in the
tokens only, where every one of them is accounted for.
-/

namespace Lipi

open Token (nth)

/-! ## Parts -/

/-- The expressions directly inside an expression. -/
def Expr.parts : Expr → List Expr
  | literal _ _ | identifier _ _ | receiver _ | super _ => []
  | unary _ operand _ => [operand]
  | binary _ left right _ => [left, right]
  | assign target value _ => [target, value]
  | call callee arguments _ => callee :: arguments
  | member object _ _ => [object]
  | index object key _ => [object, key]
  | array elements _ => elements
  | new _ arguments _ => arguments
  | grouping inner _ => [inner]

namespace Statement

/-- The statements directly inside a statement, those in the bodies of its methods included. -/
def parts : Statement → List Statement
  | function _ _ body _ => body
  | classDecl _ _ methods _ => methods.flatMap Method.body
  | conditional _ thenBranch elseBranch _ => thenBranch :: elseBranch.toList
  | loop _ body _ => [body]
  | block statements _ => statements
  | exportDecl declaration _ => [declaration]
  | _ => []

/-- The expressions directly inside a statement. -/
def expressions : Statement → List Expr
  | binding _ _ initializer _ => [initializer]
  | conditional condition _ _ _ | loop condition _ _ => [condition]
  | giveBack value _ => value.toList
  | print value _ => [value]
  | expression expr _ => [expr]
  | _ => []

/-- Whether the statement is an import or an export. -/
def isTransfer : Statement → Bool
  | importNames _ _ _ | exportDecl _ _ | exportNames _ _ => true
  | _ => false

/-- Whether the statement declares a variable or constant, a function or a class. -/
def isDeclaration : Statement → Bool
  | binding _ _ _ _ | function _ _ _ _ | classDecl _ _ _ _ => true
  | _ => false

end Statement

namespace Program

/-- The statement stands somewhere in the program. -/
def Contains (p : Program) (t : Statement) : Prop :=
  ∃ u ∈ p.body, Relation.ReflTransGen (fun u t => t ∈ u.parts) u t

/-- The expression stands somewhere in the program. -/
def ContainsExpr (p : Program) (e : Expr) : Prop :=
  ∃ t, p.Contains t ∧ ∃ d ∈ t.expressions, Relation.ReflTransGen (fun d e => e ∈ d.parts) d e

/-- What holds at every depth of a program and for all of its tokens. -/
structure Structured (tokens : Array Token) (p : Program) : Prop where
  /-- Imports and exports stand directly in the body. -/
  transfers : ∀ t u, p.Contains t → u ∈ t.parts → u.isTransfer = false
  /-- What is exported as a declaration is one. -/
  exports : ∀ declaration pos, p.Contains (.exportDecl declaration pos) →
    declaration.isDeclaration = true
  /-- The constructors are the methods of that name. -/
  constructors : ∀ name superclass methods pos,
    p.Contains (.classDecl name superclass methods pos) →
      ∀ m ∈ methods, m.name = Method.constructorName ↔ m.isConstructor = true
  /-- Numbers are finite and not negative. -/
  numbers : ∀ x pos, p.ContainsExpr (.literal (.number x) pos) →
    Number.isFinite x = true ∧ (0.0 : Float) ≤ x
  /-- An `else` belongs to the nearest conditional that is without one. -/
  nearest : ∀ condition thenBranch elseBranch pos,
    p.Contains (.conditional condition thenBranch (some elseBranch) pos) →
      thenBranch.isOpen = false
  /-- The statement behind a condition does not start with a minus sign. -/
  thenBranches : ∀ condition thenBranch elseBranch pos,
    p.Contains (.conditional condition thenBranch elseBranch pos) →
      thenBranch.opening ≠ some .minus
  loopBodies : ∀ condition body pos, p.Contains (.loop condition body pos) →
    body.opening ≠ some .minus
  /-- The markers stand around the program, both of them. -/
  pair : p.markers = true → ∃ m, tokens.size = m + 2 ∧
    (nth tokens 0).kind = .keyword .shuru ∧ (nth tokens m).kind = .keyword .khatam ∧
      (nth tokens (m + 1)).kind = .eof
  /-- Any other word that is a marker is the name of a property or method. -/
  otherMarkers : ∀ k, (nth tokens k).kind = .keyword .shuru ∨ (nth tokens k).kind = .keyword .khatam →
    p.Plays tokens .name k ∨ (p.markers = true ∧ (k = 0 ∨ k + 2 = tokens.size))

end Program

/-! ## The parts of well-formed trees -/

theorem Expr.WellFormed.part {e d : Expr} (h : e.WellFormed) (hd : d ∈ e.parts) : d.WellFormed := by
  cases e with
  | literal | identifier | receiver | super => cases hd
  | unary op operand pos =>
      obtain rfl := List.mem_singleton.mp hd
      exact h.2
  | binary op left right pos =>
      rcases List.mem_pair.mp hd with rfl | rfl
      · exact h.1.2
      · exact h.2.2
  | assign target value pos =>
      rcases List.mem_pair.mp hd with rfl | rfl
      · exact h.1.2
      · exact h.2
  | call callee arguments pos =>
      rcases List.mem_cons.mp hd with rfl | hd
      · exact h.1.2
      · exact allWellFormed_iff.mp h.2 d hd
  | member object name pos =>
      obtain rfl := List.mem_singleton.mp hd
      exact h.1.2
  | index object key pos =>
      rcases List.mem_pair.mp hd with rfl | rfl
      · exact h.1.2
      · exact h.2
  | array elements pos => exact allWellFormed_iff.mp h d hd
  | new className arguments pos => exact allWellFormed_iff.mp h.2 d hd
  | grouping inner pos =>
      obtain rfl := List.mem_singleton.mp hd
      exact h

namespace Statement

variable {topLevel : Bool} {t u : Statement}

theorem isDeclaration_of_declaredName? (h : t.declaredName?.isSome = true) :
    t.isDeclaration = true := by
  cases t <;> first | rfl | cases h

/-- A part of a well-formed statement is well-formed, and it is no import or export. -/
theorem WellFormed.part (h : t.WellFormed topLevel) (hu : u ∈ t.parts) :
    u.isTransfer = false ∧ ∃ top, u.WellFormed top := by
  have hinner : u.WellFormed false → u.isTransfer = false ∧ ∃ top, u.WellFormed top := by
    refine fun hwell => ⟨?_, false, hwell⟩
    cases u using shapes <;> first | rfl | exact absurd hwell.1 Bool.false_ne_true
  cases t using shapes with
  | function name parameters body pos => exact hinner (allWellFormed_iff.mp h.2.2 u hu)
  | classDecl name superclass methods pos =>
      obtain ⟨m, hm, hu⟩ := List.mem_flatMap.mp hu
      have hmethod := methodsWellFormed_iff.mp h.2.2 m hm
      cases m
      exact hinner (allWellFormed_iff.mp hmethod.1.2.2 u hu)
  | conditional condition thenBranch pos =>
      obtain rfl := List.mem_singleton.mp hu
      exact hinner h.2.1
  | alternative condition thenBranch elseBranch pos =>
      rcases List.mem_pair.mp hu with rfl | rfl
      · exact hinner h.1.2.1
      · exact hinner h.2.2
  | loop condition body pos =>
      obtain rfl := List.mem_singleton.mp hu
      exact hinner h.2.1
  | block statements pos => exact hinner (allWellFormed_iff.mp h u hu)
  | exportDecl declaration pos =>
      obtain rfl := List.mem_singleton.mp hu
      obtain ⟨-, hname, hwell⟩ := h
      refine ⟨?_, true, hwell⟩
      cases u <;> first | rfl | cases hname
  | _ => cases hu

theorem WellFormed.expression (h : t.WellFormed topLevel) {e : Expr} (he : e ∈ t.expressions) :
    e.WellFormed := by
  cases t using shapes with
  | binding constant name initializer pos =>
      obtain rfl := List.mem_singleton.mp he
      exact h.2
  | conditional condition thenBranch pos =>
      obtain rfl := List.mem_singleton.mp he
      exact h.1
  | alternative condition thenBranch elseBranch pos =>
      obtain rfl := List.mem_singleton.mp he
      exact h.1.1
  | loop condition body pos =>
      obtain rfl := List.mem_singleton.mp he
      exact h.1
  | giveBack value pos =>
      obtain rfl := List.mem_singleton.mp he
      exact h
  | print value pos =>
      obtain rfl := List.mem_singleton.mp he
      exact h
  | expression expr pos =>
      obtain rfl := List.mem_singleton.mp he
      exact h
  | _ => cases he

/-- The keyword for constructors is the only word that names a constructor. -/
theorem MethodName.constructor_iff {isConstructor : Bool} {name : String}
    (h : MethodName isConstructor name) :
    name = Method.constructorName ↔ isConstructor = true := by
  cases isConstructor with
  | true => exact iff_of_true h rfl
  | false =>
      have hword : Keyword.ofWord? Method.constructorName = some .nirmaan := by
        decide +kernel
      refine iff_of_false ?_ Bool.false_ne_true
      rintro rfl
      refine h.2 ?_
      unfold Lexer.wordKind
      rw [hword]

end Statement

namespace Program

variable {p : Program} {tokens : Array Token}

/-- Every statement in a well-formed program is well-formed. -/
theorem Contains.wellFormed (hp : Statement.AllWellFormed true p.body) {t : Statement}
    (h : p.Contains t) : ∃ top, t.WellFormed top := by
  obtain ⟨u, hu, hparts⟩ := h
  induction hparts with
  | refl => exact ⟨true, Statement.allWellFormed_iff.mp hp u hu⟩
  | tail _ hpart ih =>
      obtain ⟨top, hwell⟩ := ih
      exact (hwell.part hpart).2

theorem ContainsExpr.wellFormed (hp : Statement.AllWellFormed true p.body) {e : Expr}
    (h : p.ContainsExpr e) : e.WellFormed := by
  obtain ⟨t, ht, d, hd, hparts⟩ := h
  obtain ⟨top, hwell⟩ := ht.wellFormed hp
  induction hparts with
  | refl => exact hwell.expression hd
  | tail _ hpart ih => exact ih.part hpart

/-- **Everything in a well-formed program is as it should be**, if the tokens spell the program. -/
theorem structured (hp : Statement.AllWellFormed true p.body) (hspells : p.Spells tokens) :
    p.Structured tokens where
  transfers t u ht hu := by
    obtain ⟨top, hwell⟩ := ht.wellFormed hp
    exact (hwell.part hu).1
  exports declaration pos ht := by
    obtain ⟨top, -, hname, -⟩ := ht.wellFormed hp
    exact Statement.isDeclaration_of_declaredName? hname
  constructors name superclass methods pos ht m hm := by
    obtain ⟨top, -, -, hmethods⟩ := ht.wellFormed hp
    have hmethod := Statement.methodsWellFormed_iff.mp hmethods m hm
    cases m
    exact hmethod.1.1.constructor_iff
  numbers x pos ht := by
    obtain ⟨bits, hbits, rfl⟩ := ht.wellFormed hp
    exact ⟨Number.isFinite_ofSignedBits hbits, Number.zero_le_ofSignedBits hbits⟩
  nearest condition thenBranch elseBranch pos ht := by
    obtain ⟨top, -, hclosed, -⟩ := ht.wellFormed hp
    exact hclosed
  thenBranches condition thenBranch elseBranch pos ht := by
    obtain ⟨top, hwell⟩ := ht.wellFormed hp
    cases elseBranch with
    | none => exact hwell.2.2
    | some elseBranch => exact hwell.1.2.2
  loopBodies condition body pos ht := by
    obtain ⟨top, -, -, hminus⟩ := ht.wellFormed hp
    exact hminus
  pair hmarkers := by
    obtain ⟨m, -, hends⟩ := hspells
    rw [if_pos hmarkers] at hends
    exact ⟨m, hends.2.2.2, hends.1, hends.2.1, hends.2.2.1⟩
  otherMarkers k hkind := by
    have hplain : (nth tokens k).kind.plain = false := by
      rcases hkind with hkind | hkind <;> rw [hkind] <;> rfl
    rcases hspells.plays hplain with ⟨role, hplays⟩ | heof | ⟨hmarkers, ⟨hk, -⟩ | ⟨hk, -⟩⟩
    · -- the word is no bracket, so it can only be a name
      rcases (hplays.fits hspells).bracket with rfl | hbracket
      · exact .inl hplays
      · rcases hkind with hkind | hkind
        · exact absurd hkind (hbracket.ne.1 _)
        · exact absurd hkind (hbracket.ne.1 _)
    · rcases hkind with hkind | hkind <;> rw [hkind] at heof <;> cases heof
    · exact .inr ⟨hmarkers, .inl hk⟩
    · exact .inr ⟨hmarkers, .inr hk⟩

/-- **A program that is read is well structured.** -/
theorem structured_of_ofText {text : String} (h : ofText text = .ok p) :
    ∃ tokens, tokenize text = .ok tokens ∧ p.Structured tokens.toArray := by
  obtain ⟨tokens, htokens, hspells⟩ := spells_of_ofText h
  exact ⟨tokens, htokens, structured (wellFormed_of_ofText h) hspells⟩

/-- A program between markers, with a method and a property that are called like the markers. -/
theorem structured_of_ofText_markers :
    ∃ p, ofText "shuru bhejo kaksha A \x7b sabka khatam() \x7b agar (x) y.shuru \x7d \x7d khatam" =
        .ok p ∧
      ∃ tokens, tokenize
        "shuru bhejo kaksha A \x7b sabka khatam() \x7b agar (x) y.shuru \x7d \x7d khatam" =
          .ok tokens ∧ p.Structured tokens.toArray := by
  obtain ⟨p, hread, -⟩ : ∃ p, ofText
      "shuru bhejo kaksha A \x7b sabka khatam() \x7b agar (x) y.shuru \x7d \x7d khatam" = .ok p ∧
        p.misread = true :=
    ofText_of_misread (by decide +kernel)
  exact ⟨p, hread, structured_of_ofText hread⟩

end Program

end Lipi
