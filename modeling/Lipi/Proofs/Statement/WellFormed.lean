import Lipi.Proofs.Expr.Items
import Lipi.Statement.Printer

set_option autoImplicit false

/-! # Statements that a reader builds

`Statement.WellFormed` says which trees of statements a reader builds: names can be read, imports and
exports stand at the top level, **an `else` belongs to the nearest `if`** (so that the first branch of
a conditional with an `else` is not open), and an expression behind a condition does not go on with
it by a minus sign. As with expressions, positions play no part in this.
-/

namespace Lipi

namespace Statement

/-! ## Shapes -/

/-- Whether the statement ends in a conditional that an `else` behind it would belong to. -/
def isOpen : Statement → Bool
  | conditional _ _ none _ => true
  | conditional _ _ (some elseBranch) _ => elseBranch.isOpen
  | loop _ body _ => body.isOpen
  | _ => false

/-- The sign with which a statement that is an expression starts. -/
def opening : Statement → Option Sign
  | expression expr _ => expr.opening
  | _ => none

/-- The name of a method that can be read: a constructor has its own, and no other method is called
by the keyword for constructors. -/
def MethodName (isConstructor : Bool) (name : String) : Prop :=
  if isConstructor then name = Method.constructorName
  else IsWord name ∧ Lexer.wordKind name ≠ .keyword .nirmaan

mutual

/-- The statements that a reader builds, at the top level or inside other statements. -/
def WellFormed : Bool → Statement → Prop
  | _, binding _ name initializer _ => IsName name ∧ initializer.WellFormed
  | _, function name parameters body _ =>
    IsName name ∧ (∀ x ∈ parameters, IsName x) ∧ AllWellFormed false body
  | _, classDecl name superclass methods _ =>
    IsName name ∧ (∀ x, superclass = some x → IsName x) ∧ MethodsWellFormed methods
  | _, conditional condition thenBranch none _ =>
    condition.WellFormed ∧ thenBranch.WellFormed false ∧ thenBranch.opening ≠ some .minus
  | _, conditional condition thenBranch (some elseBranch) _ =>
    (condition.WellFormed ∧ thenBranch.WellFormed false ∧ thenBranch.opening ≠ some .minus) ∧
      thenBranch.isOpen = false ∧ elseBranch.WellFormed false
  | _, loop condition body _ =>
    condition.WellFormed ∧ body.WellFormed false ∧ body.opening ≠ some .minus
  | _, giveBack none _ => True
  | _, giveBack (some value) _ => value.WellFormed
  | _, print value _ => value.WellFormed
  | _, block statements _ => AllWellFormed false statements
  | _, expression expr _ => expr.WellFormed
  | _, empty _ => True
  | topLevel, importNames names _ _ => topLevel = true ∧ ∀ x ∈ names, IsName x
  | topLevel, exportDecl declaration _ =>
    topLevel = true ∧ declaration.declaredName?.isSome = true ∧ declaration.WellFormed true
  | topLevel, exportNames names _ => topLevel = true ∧ ∀ x ∈ names, IsName x

/-- The bodies that a reader builds. -/
def AllWellFormed : Bool → List Statement → Prop
  | _, [] => True
  | topLevel, s :: ss => s.WellFormed topLevel ∧ AllWellFormed topLevel ss

/-- The methods that a reader builds. -/
def MethodsWellFormed : List Method → Prop
  | [] => True
  | .mk _ _ isConstructor name parameters body _ :: ms =>
    (MethodName isConstructor name ∧ (∀ x ∈ parameters, IsName x) ∧ AllWellFormed false body) ∧
      MethodsWellFormed ms

end

theorem allWellFormed_iff {topLevel : Bool} {ss : List Statement} :
    AllWellFormed topLevel ss ↔ ∀ s ∈ ss, s.WellFormed topLevel := by
  induction ss with
  | nil => simp [AllWellFormed]
  | cons s ss ih => simp [AllWellFormed, ih]

theorem methodsWellFormed_iff {ms : List Method} :
    MethodsWellFormed ms ↔ ∀ m ∈ ms, MethodsWellFormed [m] := by
  induction ms with
  | nil => simp [MethodsWellFormed]
  | cons m ms ih =>
      cases m
      simp only [MethodsWellFormed, ih, and_true, List.mem_cons, forall_eq_or_imp]

/-! ## Positions -/

mutual

/-- A statement with the same position everywhere. -/
def erase : Statement → Statement
  | binding constant name initializer _ => binding constant name initializer.erase .start
  | function name parameters body _ => function name parameters (eraseAll body) .start
  | classDecl name superclass methods _ => classDecl name superclass (eraseMethods methods) .start
  | conditional condition thenBranch none _ =>
    conditional condition.erase thenBranch.erase none .start
  | conditional condition thenBranch (some elseBranch) _ =>
    conditional condition.erase thenBranch.erase (some elseBranch.erase) .start
  | loop condition body _ => loop condition.erase body.erase .start
  | giveBack none _ => giveBack none .start
  | giveBack (some value) _ => giveBack (some value.erase) .start
  | print value _ => print value.erase .start
  | block statements _ => block (eraseAll statements) .start
  | expression expr _ => expression expr.erase .start
  | empty _ => empty .start
  | importNames names source _ => importNames names source .start
  | exportDecl declaration _ => exportDecl declaration.erase .start
  | exportNames names _ => exportNames names .start

def eraseAll : List Statement → List Statement
  | [] => []
  | s :: ss => s.erase :: eraseAll ss

def eraseMethods : List Method → List Method
  | [] => []
  | .mk access isStatic isConstructor name parameters body _ :: ms =>
    .mk access isStatic isConstructor name parameters (eraseAll body) .start :: eraseMethods ms

end

mutual

/-- Positions are not printed. -/
theorem textAt_erase (depth : Nat) : (t : Statement) → textAt depth t.erase = textAt depth t
  | binding _ _ initializer _ => by rw [erase, textAt, textAt, Expr.text_erase]
  | function _ _ body _ => by rw [erase, textAt, textAt, linesAt_eraseAll _ body]
  | classDecl _ _ methods _ => by
      simp only [erase, textAt, methodLinesAt_eraseMethods _ methods]
  | conditional _ thenBranch none _ => by
      rw [erase, textAt, textAt, Expr.text_erase, textAt_erase depth thenBranch]
  | conditional _ thenBranch (some elseBranch) _ => by
      rw [erase, textAt, textAt, Expr.text_erase, textAt_erase depth thenBranch,
        textAt_erase depth elseBranch]
  | loop _ body _ => by rw [erase, textAt, textAt, Expr.text_erase, textAt_erase depth body]
  | giveBack none _ => rfl
  | giveBack (some _) _ => by rw [erase, textAt, textAt, Expr.text_erase]
  | print _ _ => by rw [erase, textAt, textAt, Expr.text_erase]
  | block statements _ => by rw [erase, textAt, textAt, linesAt_eraseAll _ statements]
  | expression _ _ => by rw [erase, textAt, textAt, Expr.text_erase]
  | empty _ | importNames _ _ _ | exportNames _ _ => rfl
  | exportDecl declaration _ => by rw [erase, textAt, textAt, textAt_erase depth declaration]

theorem linesAt_eraseAll (depth : Nat) : (ss : List Statement) →
    linesAt depth (eraseAll ss) = linesAt depth ss
  | [] => rfl
  | s :: ss => by
      rw [eraseAll, linesAt, linesAt, textAt_erase depth s, linesAt_eraseAll depth ss]

theorem methodLinesAt_eraseMethods (depth : Nat) : (ms : List Method) →
    methodLinesAt depth (eraseMethods ms) = methodLinesAt depth ms
  | [] => rfl
  | .mk _ _ _ _ _ body _ :: ms => by
      rw [eraseMethods, methodLinesAt, methodLinesAt, linesAt_eraseAll _ body,
        methodLinesAt_eraseMethods depth ms]

end

/-- The shapes of statements, where a conditional has an `else` or not and a return a value or
not. -/
@[elab_as_elim]
theorem shapes {motive : Statement → Prop} (t : Statement)
    (binding : ∀ constant name initializer pos, motive (.binding constant name initializer pos))
    (function : ∀ name parameters body pos, motive (.function name parameters body pos))
    (classDecl : ∀ name superclass methods pos, motive (.classDecl name superclass methods pos))
    (conditional : ∀ condition thenBranch pos, motive (.conditional condition thenBranch none pos))
    (alternative : ∀ condition thenBranch elseBranch pos,
      motive (.conditional condition thenBranch (some elseBranch) pos))
    (loop : ∀ condition body pos, motive (.loop condition body pos))
    (giveNothing : ∀ pos, motive (.giveBack none pos))
    (giveBack : ∀ value pos, motive (.giveBack (some value) pos))
    (print : ∀ value pos, motive (.print value pos))
    (block : ∀ statements pos, motive (.block statements pos))
    (expression : ∀ expr pos, motive (.expression expr pos))
    (empty : ∀ pos, motive (.empty pos))
    (importNames : ∀ names source pos, motive (.importNames names source pos))
    (exportDecl : ∀ declaration pos, motive (.exportDecl declaration pos))
    (exportNames : ∀ names pos, motive (.exportNames names pos)) : motive t := by
  rcases t with _ | _ | _ | ⟨_, _, _ | _⟩ | _ | (_ | _) | _ | _ | _ | _ | _ | _ | _
  · exact binding ..
  · exact function ..
  · exact classDecl ..
  · exact conditional ..
  · exact alternative ..
  · exact loop ..
  · exact giveNothing ..
  · exact giveBack ..
  · exact print ..
  · exact block ..
  · exact expression ..
  · exact empty ..
  · exact importNames ..
  · exact exportDecl ..
  · exact exportNames ..

mutual

/-- A well-formed statement agrees with every statement that is the same up to positions. -/
theorem agrees_of_erase : (topLevel : Bool) → (t t' : Statement) → t.WellFormed topLevel →
    t'.erase = t.erase → t.agrees t' = true
  | _, binding _ _ initializer _, t', hwell, h => by
      cases t' using shapes <;> simp only [erase, reduceCtorEq, binding.injEq] at h
      simp [agrees, h, Expr.agrees_of_erase initializer _ hwell.2 h.2.2.1]
  | _, function _ _ body _, t', hwell, h => by
      cases t' using shapes <;> simp only [erase, reduceCtorEq, function.injEq] at h
      simp [agrees, h, agreesAll_of_erase false body _ hwell.2.2 h.2.2.1]
  | _, classDecl _ _ methods _, t', hwell, h => by
      cases t' using shapes <;> simp only [erase, reduceCtorEq, classDecl.injEq] at h
      simp [agrees, h, agreesMethods_of_erase methods _ hwell.2.2 h.2.2.1]
  | _, conditional condition thenBranch none _, t', hwell, h => by
      cases t' using shapes <;> simp only [erase, reduceCtorEq, conditional.injEq] at h
      · simp [agrees, Expr.agrees_of_erase condition _ hwell.1 h.1,
          agrees_of_erase false thenBranch _ hwell.2.1 h.2.1]
      · simp at h
  | _, conditional condition thenBranch (some elseBranch) _, t', hwell, h => by
      cases t' using shapes <;> simp only [erase, reduceCtorEq, conditional.injEq] at h
      · simp at h
      · obtain ⟨⟨hcondition, hthen, _⟩, _, helse⟩ := hwell
        obtain ⟨h₁, h₂, h₃, _⟩ := h
        injection h₃ with h₃
        simp [agrees, Expr.agrees_of_erase condition _ hcondition h₁,
          agrees_of_erase false thenBranch _ hthen h₂, agrees_of_erase false elseBranch _ helse h₃]
  | _, loop condition body _, t', hwell, h => by
      cases t' using shapes <;> simp only [erase, reduceCtorEq, loop.injEq] at h
      simp [agrees, Expr.agrees_of_erase condition _ hwell.1 h.1,
        agrees_of_erase false body _ hwell.2.1 h.2.1]
  | _, giveBack none _, t', _, h => by
      cases t' using shapes <;> simp only [erase, reduceCtorEq, giveBack.injEq] at h
      · rfl
      · simp at h
  | _, giveBack (some value) _, t', hwell, h => by
      cases t' using shapes <;> simp only [erase, reduceCtorEq, giveBack.injEq] at h
      · simp at h
      · obtain ⟨h, _⟩ := h
        injection h with h
        exact Expr.agrees_of_erase value _ hwell h
  | _, print value _, t', hwell, h => by
      cases t' using shapes <;> simp only [erase, reduceCtorEq, print.injEq] at h
      exact Expr.agrees_of_erase value _ hwell h.1
  | _, block statements _, t', hwell, h => by
      cases t' using shapes <;> simp only [erase, reduceCtorEq, block.injEq] at h
      exact agreesAll_of_erase false statements _ hwell h.1
  | _, expression expr _, t', hwell, h => by
      cases t' using shapes <;> simp only [erase, reduceCtorEq, expression.injEq] at h
      exact Expr.agrees_of_erase expr _ hwell h.1
  | _, empty _, t', _, h => by
      cases t' using shapes <;> simp only [erase, reduceCtorEq] at h
      rfl
  | _, importNames _ _ _, t', _, h => by
      cases t' using shapes <;> simp only [erase, reduceCtorEq, importNames.injEq] at h
      simp [agrees, h]
  | _, exportDecl declaration _, t', hwell, h => by
      cases t' using shapes <;> simp only [erase, reduceCtorEq, exportDecl.injEq] at h
      exact agrees_of_erase true declaration _ hwell.2.2 h.1
  | _, exportNames _ _, t', _, h => by
      cases t' using shapes <;> simp only [erase, reduceCtorEq, exportNames.injEq] at h
      simp [agrees, h]

theorem agreesAll_of_erase : (topLevel : Bool) → (ss ss' : List Statement) →
    AllWellFormed topLevel ss → eraseAll ss' = eraseAll ss → agreesAll ss ss' = true
  | _, [], ss', _, h => by
      cases ss' <;> simp only [eraseAll, reduceCtorEq] at h
      rfl
  | topLevel, s :: ss, ss', hwell, h => by
      cases ss' <;> simp only [eraseAll, reduceCtorEq, List.cons.injEq] at h
      simp [agreesAll, agrees_of_erase topLevel s _ hwell.1 h.1,
        agreesAll_of_erase topLevel ss _ hwell.2 h.2]

theorem agreesMethods_of_erase : (ms ms' : List Method) → MethodsWellFormed ms →
    eraseMethods ms' = eraseMethods ms → agreesMethods ms ms' = true
  | [], ms', _, h => by
      cases ms' with
      | nil => rfl
      | cons m ms' =>
          cases m
          simp [eraseMethods] at h
  | .mk _ _ _ _ _ body _ :: ms, ms', hwell, h => by
      cases ms' with
      | nil => simp [eraseMethods] at h
      | cons m ms' =>
          cases m
          simp only [eraseMethods, List.cons.injEq, Method.mk.injEq] at h
          simp [agreesMethods, h, agreesAll_of_erase false body _ hwell.1.2.2 h.1.2.2.2.2.2.1,
            agreesMethods_of_erase ms _ hwell.2 h.2]

end

end Statement

end Lipi
