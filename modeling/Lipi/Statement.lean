import Lipi.Expr

set_option autoImplicit false

/-! # Statements and programs

The tree of a program. As with expressions, positions are carried along and are not part of what a
statement says (`Statement.agrees`). **Imports and exports stand directly in the body of a program**;
the reader of programs sees to that, not the type.
-/

namespace Lipi

/-- Who may use a method. -/
inductive Access where
  /-- Public: everyone. -/
  | sabka
  /-- Private: methods of the class and of its subclasses. -/
  | niji
  /-- Protected: methods of the class and of its subclasses. -/
  | surakshit
deriving Repr, DecidableEq, Inhabited

mutual

/-- A statement. -/
inductive Statement where
  | binding (constant : Bool) (name : String) (initializer : Expr) (pos : Position)
  | function (name : String) (parameters : List String) (body : List Statement) (pos : Position)
  | classDecl (name : String) (superclass : Option String) (methods : List Method) (pos : Position)
  | conditional (condition : Expr) (thenBranch : Statement) (elseBranch : Option Statement)
      (pos : Position)
  | loop (condition : Expr) (body : Statement) (pos : Position)
  | giveBack (value : Option Expr) (pos : Position)
  | print (value : Expr) (pos : Position)
  | block (statements : List Statement) (pos : Position)
  | expression (expr : Expr) (pos : Position)
  | empty (pos : Position)
  | importNames (names : List String) (source : String) (pos : Position)
  | exportDecl (declaration : Statement) (pos : Position)
  | exportNames (names : List String) (pos : Position)

/-- A method of a class. -/
inductive Method where
  | mk (access : Access) (isStatic isConstructor : Bool) (name : String) (parameters : List String)
      (body : List Statement) (pos : Position)

end

/-- A program: its statements, and whether it stands between markers. -/
structure Program where
  body : List Statement
  markers : Bool

instance : Inhabited Statement := ⟨.empty Position.start⟩
instance : Inhabited Method := ⟨.mk .sabka false false "" [] [] Position.start⟩
instance : Inhabited Program := ⟨⟨[], false⟩⟩

/-! ## Parts of a method -/

namespace Method

/-- The name that a constructor has as a method. -/
def constructorName : String := "constructor"

def access : Method → Access
  | mk access _ _ _ _ _ _ => access

def isStatic : Method → Bool
  | mk _ isStatic _ _ _ _ _ => isStatic

def isConstructor : Method → Bool
  | mk _ _ isConstructor _ _ _ _ => isConstructor

def name : Method → String
  | mk _ _ _ name _ _ _ => name

def parameters : Method → List String
  | mk _ _ _ _ parameters _ _ => parameters

def body : Method → List Statement
  | mk _ _ _ _ _ body _ => body

end Method

namespace Statement

/-- The position of a statement: its first token, or the name of a function. -/
def position : Statement → Position
  | binding _ _ _ pos => pos
  | function _ _ _ pos => pos
  | classDecl _ _ _ pos => pos
  | conditional _ _ _ pos => pos
  | loop _ _ pos => pos
  | giveBack _ pos => pos
  | print _ pos => pos
  | block _ pos => pos
  | expression _ pos => pos
  | empty pos => pos
  | importNames _ _ pos => pos
  | exportDecl _ pos => pos
  | exportNames _ pos => pos

/-- The name that a declaration declares. -/
def declaredName? : Statement → Option String
  | binding _ name _ _ => some name
  | function name _ _ _ => some name
  | classDecl name _ _ _ => some name
  | _ => none

/-! ## Depth -/

mutual

/-- How deep the tree is, methods and function bodies included. -/
def depth : Statement → Nat
  | binding _ _ initializer _ => initializer.depth + 1
  | function _ _ body _ => depthAll body + 1
  | classDecl _ _ methods _ => depthMethods methods + 1
  | conditional condition thenBranch none _ => max condition.depth thenBranch.depth + 1
  | conditional condition thenBranch (some elseBranch) _ =>
    max condition.depth (max thenBranch.depth elseBranch.depth) + 1
  | loop condition body _ => max condition.depth body.depth + 1
  | giveBack none _ => 1
  | giveBack (some value) _ => value.depth + 1
  | print value _ => value.depth + 1
  | block statements _ => depthAll statements + 1
  | expression expr _ => expr.depth + 1
  | empty _ => 1
  | importNames _ _ _ => 1
  | exportDecl declaration _ => declaration.depth + 1
  | exportNames _ _ => 1

/-- The depth of the deepest statement of a list. -/
def depthAll : List Statement → Nat
  | [] => 0
  | s :: ss => max s.depth (depthAll ss)

/-- The depth of the deepest body of a list of methods. -/
def depthMethods : List Method → Nat
  | [] => 0
  | .mk _ _ _ _ _ body _ :: ms => max (depthAll body) (depthMethods ms)

end

theorem depth_pos (s : Statement) : 0 < s.depth := by
  rcases s with _ | _ | _ | ⟨_, _, _ | _⟩ | _ | (_ | _) | _ | _ | _ | _ | _ | _ | _ <;> simp [depth]

theorem depth_le_depthAll {s : Statement} {ss : List Statement} (h : s ∈ ss) :
    s.depth ≤ depthAll ss := by
  induction ss with
  | nil => simp at h
  | cons s' ss ih =>
    rw [depthAll]
    rcases List.mem_cons.mp h with rfl | h
    · exact Nat.le_max_left _ _
    · exact Nat.le_trans (ih h) (Nat.le_max_right _ _)

theorem depthAll_le_depthMethods {m : Method} {ms : List Method} (h : m ∈ ms) :
    depthAll m.body ≤ depthMethods ms := by
  induction ms with
  | nil => simp at h
  | cons m' ms ih =>
    obtain ⟨_, _, _, _, _, body, _⟩ := m'
    rw [depthMethods]
    rcases List.mem_cons.mp h with rfl | h
    · exact Nat.le_max_left _ _
    · exact Nat.le_trans (ih h) (Nat.le_max_right _ _)

/-! ## Agreement up to positions -/

/-- Whether two optional expressions are the same apart from positions. -/
def agreesValue : Option Expr → Option Expr → Bool
  | none, none => true
  | some e, some e' => e.agrees e'
  | _, _ => false

mutual

/-- Whether two statements are the same apart from positions. -/
def agrees : Statement → Statement → Bool
  | binding c x e _, binding c' x' e' _ => c == c' && x == x' && e.agrees e'
  | function f ps b _, function f' ps' b' _ => f == f' && ps == ps' && agreesAll b b'
  | classDecl c sup ms _, classDecl c' sup' ms' _ => c == c' && sup == sup' && agreesMethods ms ms'
  | conditional c t none _, conditional c' t' none _ => c.agrees c' && agrees t t'
  | conditional c t (some e) _, conditional c' t' (some e') _ =>
    c.agrees c' && agrees t t' && agrees e e'
  | loop c b _, loop c' b' _ => c.agrees c' && agrees b b'
  | giveBack v _, giveBack v' _ => agreesValue v v'
  | print e _, print e' _ => e.agrees e'
  | block ss _, block ss' _ => agreesAll ss ss'
  | expression e _, expression e' _ => e.agrees e'
  | empty _, empty _ => true
  | importNames ns src _, importNames ns' src' _ => ns == ns' && src == src'
  | exportDecl d _, exportDecl d' _ => agrees d d'
  | exportNames ns _, exportNames ns' _ => ns == ns'
  | _, _ => false

/-- Whether two lists of statements are the same apart from positions. -/
def agreesAll : List Statement → List Statement → Bool
  | [], [] => true
  | s :: ss, s' :: ss' => agrees s s' && agreesAll ss ss'
  | _, _ => false

/-- Whether two lists of methods are the same apart from positions. -/
def agreesMethods : List Method → List Method → Bool
  | [], [] => true
  | .mk a st co x ps b _ :: ms, .mk a' st' co' x' ps' b' _ :: ms' =>
    a == a' && st == st' && co == co' && x == x' && ps == ps' && agreesAll b b'
      && agreesMethods ms ms'
  | _, _ => false

end

end Statement

namespace Program

/-- How deep the tree of a program is. -/
def depth (p : Program) : Nat :=
  Statement.depthAll p.body

/-- Whether two programs are the same apart from positions. -/
def agrees (p q : Program) : Bool :=
  p.markers == q.markers && Statement.agreesAll p.body q.body

end Program

end Lipi
