import Lipi.Proofs.Expr.Grammar
import Lipi.Proofs.Statement.Classes

set_option autoImplicit false

/-! # The grammar of statements

Which tokens spell which statement, said without a reader, in the manner of `Expr.Spells`.
**`Statement.Spells tokens t i j` says that the tokens from the `i`-th up to the `j`-th, in order and
each of them once, are a spelling of `t`.** What the tree leaves out stays free: a semicolon may end a
statement where a boundary would do, one pair of parentheses around a condition is dropped, and
between the methods of a class there may be stray semicolons. Nothing else is skipped, so a text with
an error in it spells no program.
-/

namespace Lipi

open Token (nth breaksLine)

namespace Statement

variable (tokens : Array Token)

/-! ## Names and ends -/

/-- The tokens spell the rest of a list of names, behind one of them. -/
def SpellsMoreNames (closing : Sign) : List String → Nat → Nat → Prop
  | [], i, j => (nth tokens i).kind = .sign closing ∧ j = i + 1
  | x :: xs, i, j =>
    (nth tokens i).kind = .sign .comma ∧ (nth tokens (i + 1)).kind = .identifier x ∧
      SpellsMoreNames closing xs (i + 2) j

/-- The tokens spell names with commas between them, and the closing sign behind them. -/
def SpellsNames (closing : Sign) : List String → Nat → Nat → Prop
  | [], i, j => (nth tokens i).kind = .sign closing ∧ j = i + 1
  | x :: xs, i, j =>
    (nth tokens i).kind = .identifier x ∧ SpellsMoreNames tokens closing xs (i + 1) j

/-- A statement may end in front of the `i`-th token without a semicolon. -/
def Boundary (i : Nat) : Prop :=
  (nth tokens i).kind = .sign .rightBrace ∨ (nth tokens i).kind = .keyword .khatam ∨
    (nth tokens i).kind = .eof ∨ breaksLine tokens i = true

/-- The end of a simple statement: a semicolon, or a boundary. -/
def Ends (i j : Nat) : Prop :=
  ((nth tokens i).kind = .sign .semicolon ∧ j = i + 1) ∨
    ((nth tokens i).kind ≠ .sign .semicolon ∧ Boundary tokens i ∧ j = i)

/-- The tokens spell the expression as a condition, with parentheses of its own or without. -/
def SpellsCondition (condition : Expr) (i j : Nat) : Prop :=
  condition.Spells tokens i j ∨
    ((nth tokens i).kind = .sign .leftParen ∧ ∃ m, condition.Spells tokens (i + 1) m ∧
      (nth tokens m).kind = .sign .rightParen ∧ j = m + 1)

/-- The tokens name the superclass, if there is one. -/
def SpellsSuperclass : Option String → Nat → Nat → Prop
  | none, i, j => (nth tokens i).kind ≠ .keyword .virasat ∧ j = i
  | some name, i, j =>
    (nth tokens i).kind = .keyword .virasat ∧ (nth tokens (i + 1)).kind = .identifier name ∧
      j = i + 2

/-- The `i`-th token is a modifier of a method, and not its name, behind which a parenthesis
stands. -/
def Modifies (k : Keyword) (i : Nat) : Prop :=
  (k = .sabka ∨ k = .niji ∨ k = .surakshit ∨ k = .sthir) ∧
    (nth tokens i).kind = .keyword k ∧ (nth tokens (i + 1)).kind ≠ .sign .leftParen

/-- The tokens spell the modifiers in front of a method, all of them. -/
def SpellsModifiers : List Keyword → Nat → Nat → Prop
  | [], i, j => (∀ k, ¬Modifies tokens k i) ∧ j = i
  | k :: ks, i, j => Modifies tokens k i ∧ SpellsModifiers ks (i + 1) j

/-- The `i`-th token is the keyword for functions in front of the name of a method. -/
def FunctionWord (i : Nat) : Prop :=
  (nth tokens i).kind = .keyword .kaam ∧ (nth tokens (i + 1)).kind ≠ .sign .leftParen

/-- The keyword for functions, if it stands in front of the name of a method. -/
def SpellsFunctionWord (i j : Nat) : Prop :=
  (FunctionWord tokens i ∧ j = i + 1) ∨ (¬FunctionWord tokens i ∧ j = i)

/-- The token names a method: the keyword for constructors a constructor, and any other word a
method of that name. -/
def SpellsMethodName (isConstructor : Bool) (name : String) (i : Nat) : Prop :=
  if isConstructor then (nth tokens i).kind = .keyword .nirmaan ∧ name = Method.constructorName
  else (nth tokens i).kind ≠ .keyword .nirmaan ∧ (nth tokens i).isWord = true ∧
    (nth tokens i).lexeme = name

/-- The tokens from the `i`-th up to the `j`-th are semicolons, and the `j`-th is none. -/
def Semicolons (i j : Nat) : Prop :=
  i ≤ j ∧ (∀ k, i ≤ k → k < j → (nth tokens k).kind = .sign .semicolon) ∧
    (nth tokens j).kind ≠ .sign .semicolon

/-- Between braces the tokens spell what `P` says. -/
def InBraces (P : Nat → Nat → Prop) (i j : Nat) : Prop :=
  (nth tokens i).kind = .sign .leftBrace ∧
    ∃ m, P (i + 1) m ∧ (nth tokens m).kind = .sign .rightBrace ∧ j = m + 1

/-- The tokens spell the parameters of a function or method and its body. -/
def SpellsRoutine (parameters : List String) (body : Nat → Nat → Prop) (i j : Nat) : Prop :=
  (nth tokens i).kind = .sign .leftParen ∧
    ∃ m, SpellsNames tokens .rightParen parameters (i + 1) m ∧ InBraces tokens body m j

/-- The tokens spell what stands in front of the parameters of a method. -/
def SpellsMethodHead (access : Access) (isStatic isConstructor : Bool) (name : String)
    (i j : Nat) : Prop :=
  ∃ modifiers m m', SpellsModifiers tokens modifiers i m ∧
    modifiers.foldl Parser.modify (.sabka, false) = (access, isStatic) ∧
    SpellsFunctionWord tokens m m' ∧ SpellsMethodName tokens isConstructor name m' ∧ j = m' + 1

/-! ## Spelling -/

mutual

/-- The tokens from the `i`-th up to the `j`-th spell the statement. -/
def Spells (tokens : Array Token) : Statement → Nat → Nat → Prop
  | binding constant name initializer _, i, j =>
    (nth tokens i).kind = .keyword (if constant then .pakka else .rakho) ∧
      (nth tokens (i + 1)).kind = .identifier name ∧ (nth tokens (i + 2)).kind = .sign .equal ∧
      ∃ m, initializer.Spells tokens (i + 3) m ∧ Ends tokens m j
  | function name parameters body _, i, j =>
    (nth tokens i).kind = .keyword .kaam ∧ (nth tokens (i + 1)).kind = .identifier name ∧
      SpellsRoutine tokens parameters (SpellsAll tokens body) (i + 2) j
  | classDecl name superclass methods _, i, j =>
    (nth tokens i).kind = .keyword .kaksha ∧ (nth tokens (i + 1)).kind = .identifier name ∧
      ∃ m, SpellsSuperclass tokens superclass (i + 2) m ∧
        InBraces tokens (SpellsMethods tokens methods) m j
  | conditional condition thenBranch none _, i, j =>
    (nth tokens i).kind = .keyword .agar ∧
      ∃ m, SpellsCondition tokens condition (i + 1) m ∧ Spells tokens thenBranch m j
  | conditional condition thenBranch (some elseBranch) _, i, j =>
    (nth tokens i).kind = .keyword .agar ∧
      ∃ m m', SpellsCondition tokens condition (i + 1) m ∧ Spells tokens thenBranch m m' ∧
        (nth tokens m').kind = .keyword .warna ∧ Spells tokens elseBranch (m' + 1) j
  | loop condition body _, i, j =>
    (nth tokens i).kind = .keyword .jabtak ∧
      ∃ m, SpellsCondition tokens condition (i + 1) m ∧ Spells tokens body m j
  | giveBack none _, i, j => (nth tokens i).kind = .keyword .wapas ∧ Ends tokens (i + 1) j
  | giveBack (some value) _, i, j =>
    (nth tokens i).kind = .keyword .wapas ∧
      ∃ m, value.Spells tokens (i + 1) m ∧ Ends tokens m j
  | print value _, i, j =>
    (nth tokens i).kind = .keyword .chaap ∧
      ∃ m, value.Spells tokens (i + 1) m ∧ Ends tokens m j
  | block statements _, i, j => InBraces tokens (SpellsAll tokens statements) i j
  | expression expr _, i, j => ∃ m, expr.Spells tokens i m ∧ Ends tokens m j
  | empty _, i, j => (nth tokens i).kind = .sign .semicolon ∧ j = i + 1
  | importNames names source _, i, j =>
    (nth tokens i).kind = .keyword .lao ∧ (nth tokens (i + 1)).kind = .sign .leftBrace ∧
      ∃ m, SpellsNames tokens .rightBrace names (i + 2) m ∧
        (nth tokens m).kind = .keyword .se ∧ (nth tokens (m + 1)).kind = .string source ∧
        Ends tokens (m + 2) j
  | exportDecl declaration _, i, j =>
    (nth tokens i).kind = .keyword .bhejo ∧ Spells tokens declaration (i + 1) j
  | exportNames names _, i, j =>
    (nth tokens i).kind = .keyword .bhejo ∧ (nth tokens (i + 1)).kind = .sign .leftBrace ∧
      ∃ m, SpellsNames tokens .rightBrace names (i + 2) m ∧ Ends tokens m j

/-- The tokens spell statements, one behind the other. -/
def SpellsAll (tokens : Array Token) : List Statement → Nat → Nat → Prop
  | [], i, j => j = i
  | s :: ss, i, j => ∃ m, Spells tokens s i m ∧ SpellsAll tokens ss m j

/-- The tokens spell methods, with stray semicolons in front of them and behind. -/
def SpellsMethods (tokens : Array Token) : List Method → Nat → Nat → Prop
  | [], i, j => Semicolons tokens i j
  | .mk access isStatic isConstructor name parameters body _ :: ms, i, j =>
    ∃ m m' m'', Semicolons tokens i m ∧
      SpellsMethodHead tokens access isStatic isConstructor name m m' ∧
      SpellsRoutine tokens parameters (SpellsAll tokens body) m' m'' ∧
      SpellsMethods tokens ms m'' j

end

/-- The tokens spell the method. -/
def SpellsMethod (tokens : Array Token) (m : Method) (i j : Nat) : Prop :=
  ∃ k, SpellsMethodHead tokens m.access m.isStatic m.isConstructor m.name i k ∧
    SpellsRoutine tokens m.parameters (SpellsAll tokens m.body) k j

theorem spellsMethods_cons {tokens : Array Token} {m : Method} {ms : List Method} {i j : Nat} :
    SpellsMethods tokens (m :: ms) i j ↔
      ∃ k k', Semicolons tokens i k ∧ SpellsMethod tokens m k k' ∧ SpellsMethods tokens ms k' j := by
  cases m
  constructor
  · rintro ⟨k, k', k'', hsemicolons, hhead, hroutine, hrest⟩
    exact ⟨k, k'', hsemicolons, ⟨k', hhead, hroutine⟩, hrest⟩
  · rintro ⟨k, k'', hsemicolons, ⟨k', hhead, hroutine⟩, hrest⟩
    exact ⟨k, k', k'', hsemicolons, hhead, hroutine, hrest⟩

theorem Semicolons.nil {tokens : Array Token} {i : Nat}
    (h : (nth tokens i).kind ≠ .sign .semicolon) : Semicolons tokens i i :=
  ⟨Nat.le_refl i, fun k hle hlt => absurd hlt (by omega), h⟩

theorem Semicolons.cons {tokens : Array Token} {i j : Nat}
    (h : (nth tokens i).kind = .sign .semicolon) (hrest : Semicolons tokens (i + 1) j) :
    Semicolons tokens i j := by
  obtain ⟨hle, hall, hend⟩ := hrest
  refine ⟨by omega, fun k hk hlt => ?_, hend⟩
  rcases Nat.eq_or_lt_of_le hk with rfl | hk
  · exact h
  · exact hall k hk hlt

/-- A semicolon in front of methods belongs to their spelling. -/
theorem spellsMethods_semicolon {tokens : Array Token} {ms : List Method} {i j : Nat}
    (h : (nth tokens i).kind = .sign .semicolon) (hms : SpellsMethods tokens ms (i + 1) j) :
    SpellsMethods tokens ms i j := by
  cases ms with
  | nil => exact .cons h hms
  | cons m ms =>
      rw [spellsMethods_cons] at hms ⊢
      obtain ⟨k, k', hsemicolons, hrest⟩ := hms
      exact ⟨k, k', hsemicolons.cons h, hrest⟩

end Statement

end Lipi
