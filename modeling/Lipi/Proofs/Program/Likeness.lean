import Lipi.Statement
import Mathlib.Data.List.Forall2

set_option autoImplicit false

/-! # Trees of the same shape

Two trees are alike if they are made of the same constructs with the same names, and differ only in
their literals and positions. How far they may differ there is a `Likeness`. At one end stands
equality; at the other the agreement of two programs, which **does not look at positions and takes
the two zeros for equal** (`Statement.like_of_agrees`). A tree is always like itself, also where it
holds an undefined number, which agrees with nothing.
-/

namespace Lipi

/-- How far two trees of the same shape may differ. -/
structure Likeness where
  literal : Literal → Literal → Prop
  position : Position → Position → Prop
  literal_refl : ∀ v, literal v v
  position_refl : ∀ p, position p p

/-- No difference at all. -/
def Likeness.same : Likeness where
  literal := Eq
  position := Eq
  literal_refl _ := rfl
  position_refl _ := rfl

/-- Literals that are the same or compare as equal, and any positions. -/
def Likeness.agreement : Likeness where
  literal v w := v = w ∨ (v == w) = true
  position _ _ := True
  literal_refl _ := .inl rfl
  position_refl _ := trivial

/-! ## Expressions -/

/-- Two expressions have the same shape. -/
inductive Expr.Like (k : Likeness) : Expr → Expr → Prop where
  | literal {v w : Literal} {p q : Position} :
    k.literal v w → k.position p q → Like k (.literal v p) (.literal w q)
  | identifier {name : String} {p q : Position} :
    k.position p q → Like k (.identifier name p) (.identifier name q)
  | unary {op : UnaryOp} {e e' : Expr} {p q : Position} :
    Like k e e' → k.position p q → Like k (.unary op e p) (.unary op e' q)
  | binary {op : BinaryOp} {l l' r r' : Expr} {p q : Position} :
    Like k l l' → Like k r r' → k.position p q → Like k (.binary op l r p) (.binary op l' r' q)
  | assign {t t' v v' : Expr} {p q : Position} :
    Like k t t' → Like k v v' → k.position p q → Like k (.assign t v p) (.assign t' v' q)
  | call {c c' : Expr} {es es' : List Expr} {p q : Position} :
    Like k c c' → List.Forall₂ (Like k) es es' → k.position p q →
    Like k (.call c es p) (.call c' es' q)
  | member {o o' : Expr} {name : String} {p q : Position} :
    Like k o o' → k.position p q → Like k (.member o name p) (.member o' name q)
  | index {o o' i i' : Expr} {p q : Position} :
    Like k o o' → Like k i i' → k.position p q → Like k (.index o i p) (.index o' i' q)
  | array {es es' : List Expr} {p q : Position} :
    List.Forall₂ (Like k) es es' → k.position p q → Like k (.array es p) (.array es' q)
  | receiver {p q : Position} : k.position p q → Like k (.receiver p) (.receiver q)
  | super {p q : Position} : k.position p q → Like k (.super p) (.super q)
  | new {name : String} {es es' : List Expr} {p q : Position} :
    List.Forall₂ (Like k) es es' → k.position p q → Like k (.new name es p) (.new name es' q)
  | grouping {e e' : Expr} {p q : Position} :
    Like k e e' → k.position p q → Like k (.grouping e p) (.grouping e' q)

namespace Expr

section Reflexive

variable (k : Likeness)

mutual

theorem like_refl : (e : Expr) → Like k e e
  | .literal v p => .literal (k.literal_refl v) (k.position_refl p)
  | .identifier _ p => .identifier (k.position_refl p)
  | .unary _ operand p => .unary (like_refl operand) (k.position_refl p)
  | .binary _ left right p => .binary (like_refl left) (like_refl right) (k.position_refl p)
  | .assign target value p => .assign (like_refl target) (like_refl value) (k.position_refl p)
  | .call callee arguments p => .call (like_refl callee) (likeAll_refl arguments) (k.position_refl p)
  | .member object _ p => .member (like_refl object) (k.position_refl p)
  | .index object key p => .index (like_refl object) (like_refl key) (k.position_refl p)
  | .array elements p => .array (likeAll_refl elements) (k.position_refl p)
  | .receiver p => .receiver (k.position_refl p)
  | .super p => .super (k.position_refl p)
  | .new _ arguments p => .new (likeAll_refl arguments) (k.position_refl p)
  | .grouping inner p => .grouping (like_refl inner) (k.position_refl p)

theorem likeAll_refl : (es : List Expr) → List.Forall₂ (Like k) es es
  | [] => .nil
  | e :: es => .cons (like_refl e) (likeAll_refl es)

end

end Reflexive

mutual

/-- Expressions that agree are alike. -/
theorem like_of_agrees : (e e' : Expr) → e.agrees e' = true → Like .agreement e e'
  | .literal _ _, e', h => by
      cases e' <;> simp only [agrees, Bool.false_eq_true] at h
      exact .literal (.inr h) trivial
  | .identifier _ _, e', h => by
      cases e' <;> simp only [agrees, Bool.false_eq_true, beq_iff_eq] at h
      subst h
      exact .identifier trivial
  | .unary op operand _, e', h => by
      cases e' <;> simp only [agrees, Bool.false_eq_true, Bool.and_eq_true, beq_iff_eq] at h
      obtain ⟨rfl, h⟩ := h
      exact .unary (like_of_agrees operand _ h) trivial
  | .binary op left right _, e', h => by
      cases e' <;> simp only [agrees, Bool.false_eq_true, Bool.and_eq_true, beq_iff_eq] at h
      obtain ⟨⟨rfl, hl⟩, hr⟩ := h
      exact .binary (like_of_agrees left _ hl) (like_of_agrees right _ hr) trivial
  | .assign target value _, e', h => by
      cases e' <;> simp only [agrees, Bool.false_eq_true, Bool.and_eq_true] at h
      exact .assign (like_of_agrees target _ h.1) (like_of_agrees value _ h.2) trivial
  | .call callee arguments _, e', h => by
      cases e' <;> simp only [agrees, Bool.false_eq_true, Bool.and_eq_true] at h
      exact .call (like_of_agrees callee _ h.1) (likeAll_of_agrees arguments _ h.2) trivial
  | .member object name _, e', h => by
      cases e' <;> simp only [agrees, Bool.false_eq_true, Bool.and_eq_true, beq_iff_eq] at h
      obtain ⟨h, rfl⟩ := h
      exact .member (like_of_agrees object _ h) trivial
  | .index object key _, e', h => by
      cases e' <;> simp only [agrees, Bool.false_eq_true, Bool.and_eq_true] at h
      exact .index (like_of_agrees object _ h.1) (like_of_agrees key _ h.2) trivial
  | .array elements _, e', h => by
      cases e' <;> simp only [agrees, Bool.false_eq_true] at h
      exact .array (likeAll_of_agrees elements _ h) trivial
  | .receiver _, e', h => by
      cases e' <;> simp only [agrees, Bool.false_eq_true] at h
      exact .receiver trivial
  | .super _, e', h => by
      cases e' <;> simp only [agrees, Bool.false_eq_true] at h
      exact .super trivial
  | .new className arguments _, e', h => by
      cases e' <;> simp only [agrees, Bool.false_eq_true, Bool.and_eq_true, beq_iff_eq] at h
      obtain ⟨rfl, h⟩ := h
      exact .new (likeAll_of_agrees arguments _ h) trivial
  | .grouping inner _, e', h => by
      cases e' <;> simp only [agrees, Bool.false_eq_true] at h
      exact .grouping (like_of_agrees inner _ h) trivial

theorem likeAll_of_agrees :
    (es es' : List Expr) → agreesAll es es' = true → List.Forall₂ (Like .agreement) es es'
  | [], es', h => by
      cases es' <;> simp only [agreesAll, Bool.false_eq_true] at h
      exact .nil
  | e :: es, es', h => by
      cases es' <;> simp only [agreesAll, Bool.false_eq_true, Bool.and_eq_true] at h
      exact .cons (like_of_agrees e _ h.1) (likeAll_of_agrees es _ h.2)

end

mutual

/-- Expressions that do not differ at all are the same. -/
theorem eq_of_like : (e e' : Expr) → Like .same e e' → e' = e
  | .literal _ _, _, .literal hv hp => congrArg₂ literal hv.symm hp.symm
  | .identifier name _, _, .identifier hp => congrArg (identifier name) hp.symm
  | .unary op operand _, _, .unary he hp => congrArg₂ (unary op) (eq_of_like operand _ he) hp.symm
  | .binary op left right _, _, .binary hl hr hp => by
      rw [eq_of_like left _ hl, eq_of_like right _ hr, ← show _ = _ from hp]
  | .assign target value _, _, .assign ht hv hp => by
      rw [eq_of_like target _ ht, eq_of_like value _ hv, ← show _ = _ from hp]
  | .call callee arguments _, _, .call hc hes hp => by
      rw [eq_of_like callee _ hc, eqAll_of_like arguments _ hes, ← show _ = _ from hp]
  | .member object name _, _, .member ho hp => by
      rw [eq_of_like object _ ho, ← show _ = _ from hp]
  | .index object key _, _, .index ho hi hp => by
      rw [eq_of_like object _ ho, eq_of_like key _ hi, ← show _ = _ from hp]
  | .array elements _, _, .array hes hp => congrArg₂ array (eqAll_of_like elements _ hes) hp.symm
  | .receiver _, _, .receiver hp => congrArg receiver hp.symm
  | .super _, _, .super hp => congrArg Expr.super hp.symm
  | .new name arguments _, _, .new hes hp =>
    congrArg₂ (new name) (eqAll_of_like arguments _ hes) hp.symm
  | .grouping inner _, _, .grouping he hp => congrArg₂ grouping (eq_of_like inner _ he) hp.symm

theorem eqAll_of_like : (es es' : List Expr) → List.Forall₂ (Like .same) es es' → es' = es
  | [], _, .nil => rfl
  | e :: es, _, .cons he hes => congrArg₂ List.cons (eq_of_like e _ he) (eqAll_of_like es _ hes)

end

end Expr

/-! ## Statements -/

mutual

/-- Two statements have the same shape. -/
inductive Statement.Like (k : Likeness) : Statement → Statement → Prop where
  | binding {constant : Bool} {name : String} {e e' : Expr} {p q : Position} :
    e.Like k e' → k.position p q →
    Statement.Like k (.binding constant name e p) (.binding constant name e' q)
  | function {name : String} {parameters : List String} {body body' : List Statement}
    {p q : Position} :
    List.Forall₂ (Statement.Like k) body body' → k.position p q →
    Statement.Like k (.function name parameters body p) (.function name parameters body' q)
  | classDecl {name : String} {superclass : Option String} {methods methods' : List Method}
    {p q : Position} :
    List.Forall₂ (Method.Like k) methods methods' → k.position p q →
    Statement.Like k (.classDecl name superclass methods p) (.classDecl name superclass methods' q)
  | onlyIf {c c' : Expr} {t t' : Statement} {p q : Position} :
    c.Like k c' → Statement.Like k t t' → k.position p q →
    Statement.Like k (.conditional c t none p) (.conditional c' t' none q)
  | ifElse {c c' : Expr} {t t' e e' : Statement} {p q : Position} :
    c.Like k c' → Statement.Like k t t' → Statement.Like k e e' → k.position p q →
    Statement.Like k (.conditional c t (some e) p) (.conditional c' t' (some e') q)
  | loop {c c' : Expr} {body body' : Statement} {p q : Position} :
    c.Like k c' → Statement.Like k body body' → k.position p q →
    Statement.Like k (.loop c body p) (.loop c' body' q)
  | giveBackNothing {p q : Position} :
    k.position p q → Statement.Like k (.giveBack none p) (.giveBack none q)
  | giveBack {e e' : Expr} {p q : Position} :
    e.Like k e' → k.position p q → Statement.Like k (.giveBack (some e) p) (.giveBack (some e') q)
  | print {e e' : Expr} {p q : Position} :
    e.Like k e' → k.position p q → Statement.Like k (.print e p) (.print e' q)
  | block {ss ss' : List Statement} {p q : Position} :
    List.Forall₂ (Statement.Like k) ss ss' → k.position p q →
    Statement.Like k (.block ss p) (.block ss' q)
  | expression {e e' : Expr} {p q : Position} :
    e.Like k e' → k.position p q → Statement.Like k (.expression e p) (.expression e' q)
  | empty {p q : Position} : k.position p q → Statement.Like k (.empty p) (.empty q)
  | importNames {names : List String} {source : String} {p q : Position} :
    k.position p q → Statement.Like k (.importNames names source p) (.importNames names source q)
  | exportDecl {s s' : Statement} {p q : Position} :
    Statement.Like k s s' → k.position p q →
    Statement.Like k (.exportDecl s p) (.exportDecl s' q)
  | exportNames {names : List String} {p q : Position} :
    k.position p q → Statement.Like k (.exportNames names p) (.exportNames names q)

/-- Two methods have the same shape. -/
inductive Method.Like (k : Likeness) : Method → Method → Prop where
  | mk {access : Access} {isStatic isConstructor : Bool} {name : String}
    {parameters : List String} {body body' : List Statement} {p q : Position} :
    List.Forall₂ (Statement.Like k) body body' → k.position p q →
    Method.Like k (.mk access isStatic isConstructor name parameters body p)
      (.mk access isStatic isConstructor name parameters body' q)

end

section Methods

variable {k : Likeness} {m m' : Method}

theorem Method.Like.name (h : Method.Like k m m') : m'.name = m.name := by
  cases h
  rfl

theorem Method.Like.isStatic (h : Method.Like k m m') : m'.isStatic = m.isStatic := by
  cases h
  rfl

end Methods

namespace Statement

theorem Like.declaredName? {k : Likeness} {s s' : Statement} (h : s.Like k s') :
    s'.declaredName? = s.declaredName? := by
  cases h <;> rfl

section Reflexive

variable (k : Likeness)

mutual

theorem like_refl : (s : Statement) → Like k s s
  | .binding _ _ initializer p => .binding (initializer.like_refl k) (k.position_refl p)
  | .function _ _ body p => .function (likeAll_refl body) (k.position_refl p)
  | .classDecl _ _ methods p => .classDecl (likeMethods_refl methods) (k.position_refl p)
  | .conditional condition thenBranch none p =>
    .onlyIf (condition.like_refl k) (like_refl thenBranch) (k.position_refl p)
  | .conditional condition thenBranch (some elseBranch) p =>
    .ifElse (condition.like_refl k) (like_refl thenBranch) (like_refl elseBranch)
      (k.position_refl p)
  | .loop condition body p => .loop (condition.like_refl k) (like_refl body) (k.position_refl p)
  | .giveBack none p => .giveBackNothing (k.position_refl p)
  | .giveBack (some value) p => .giveBack (value.like_refl k) (k.position_refl p)
  | .print value p => .print (value.like_refl k) (k.position_refl p)
  | .block statements p => .block (likeAll_refl statements) (k.position_refl p)
  | .expression expr p => .expression (expr.like_refl k) (k.position_refl p)
  | .empty p => .empty (k.position_refl p)
  | .importNames _ _ p => .importNames (k.position_refl p)
  | .exportDecl declaration p => .exportDecl (like_refl declaration) (k.position_refl p)
  | .exportNames _ p => .exportNames (k.position_refl p)

theorem likeAll_refl : (ss : List Statement) → List.Forall₂ (Like k) ss ss
  | [] => .nil
  | s :: ss => .cons (like_refl s) (likeAll_refl ss)

theorem likeMethods_refl : (ms : List Method) → List.Forall₂ (Method.Like k) ms ms
  | [] => .nil
  | .mk _ _ _ _ _ body p :: ms =>
    .cons (.mk (likeAll_refl body) (k.position_refl p)) (likeMethods_refl ms)

end

end Reflexive

mutual

/-- **Statements that agree are alike.** -/
theorem like_of_agrees : (s s' : Statement) → s.agrees s' = true → Like .agreement s s'
  | .binding constant name initializer _, s', h => by
      cases s' <;> simp only [agrees, Bool.false_eq_true, Bool.and_eq_true, beq_iff_eq] at h
      obtain ⟨⟨rfl, rfl⟩, h⟩ := h
      exact .binding (initializer.like_of_agrees _ h) trivial
  | .function name parameters body _, s', h => by
      cases s' <;> simp only [agrees, Bool.false_eq_true, Bool.and_eq_true, beq_iff_eq] at h
      obtain ⟨⟨rfl, rfl⟩, h⟩ := h
      exact .function (likeAll_of_agrees body _ h) trivial
  | .classDecl name superclass methods _, s', h => by
      cases s' <;> simp only [agrees, Bool.false_eq_true, Bool.and_eq_true, beq_iff_eq] at h
      obtain ⟨⟨rfl, rfl⟩, h⟩ := h
      exact .classDecl (likeMethods_of_agrees methods _ h) trivial
  | .conditional condition thenBranch elseBranch _, s', h => by
      cases s' with
      | conditional condition' thenBranch' elseBranch' _ =>
          match elseBranch, elseBranch', h with
          | none, none, h =>
              simp only [agrees, Bool.and_eq_true] at h
              exact .onlyIf (condition.like_of_agrees _ h.1) (like_of_agrees thenBranch _ h.2)
                trivial
          | some elseBranch, some elseBranch', h =>
              simp only [agrees, Bool.and_eq_true] at h
              exact .ifElse (condition.like_of_agrees _ h.1.1)
                (like_of_agrees thenBranch _ h.1.2) (like_of_agrees elseBranch _ h.2) trivial
      | _ => cases elseBranch <;> cases h
  | .loop condition body _, s', h => by
      cases s' <;> simp only [agrees, Bool.false_eq_true, Bool.and_eq_true] at h
      exact .loop (condition.like_of_agrees _ h.1) (like_of_agrees body _ h.2) trivial
  | .giveBack value _, s', h => by
      cases s' <;> simp only [agrees, Bool.false_eq_true] at h
      rename_i value' _
      match value, value', h with
      | none, none, _ => exact .giveBackNothing trivial
      | some value, some value', h => exact .giveBack (value.like_of_agrees _ h) trivial
  | .print value _, s', h => by
      cases s' <;> simp only [agrees, Bool.false_eq_true] at h
      exact .print (value.like_of_agrees _ h) trivial
  | .block statements _, s', h => by
      cases s' <;> simp only [agrees, Bool.false_eq_true] at h
      exact .block (likeAll_of_agrees statements _ h) trivial
  | .expression expr _, s', h => by
      cases s' <;> simp only [agrees, Bool.false_eq_true] at h
      exact .expression (expr.like_of_agrees _ h) trivial
  | .empty _, s', h => by
      cases s' <;> simp only [agrees, Bool.false_eq_true] at h
      exact .empty trivial
  | .importNames names source _, s', h => by
      cases s' <;> simp only [agrees, Bool.false_eq_true, Bool.and_eq_true, beq_iff_eq] at h
      obtain ⟨rfl, rfl⟩ := h
      exact .importNames trivial
  | .exportDecl declaration _, s', h => by
      cases s' <;> simp only [agrees, Bool.false_eq_true] at h
      exact .exportDecl (like_of_agrees declaration _ h) trivial
  | .exportNames names _, s', h => by
      cases s' <;> simp only [agrees, Bool.false_eq_true, beq_iff_eq] at h
      subst h
      exact .exportNames trivial

theorem likeAll_of_agrees :
    (ss ss' : List Statement) → agreesAll ss ss' = true → List.Forall₂ (Like .agreement) ss ss'
  | [], ss', h => by
      cases ss' <;> simp only [agreesAll, Bool.false_eq_true] at h
      exact .nil
  | s :: ss, ss', h => by
      cases ss' <;> simp only [agreesAll, Bool.false_eq_true, Bool.and_eq_true] at h
      exact .cons (like_of_agrees s _ h.1) (likeAll_of_agrees ss _ h.2)

theorem likeMethods_of_agrees : (ms ms' : List Method) → agreesMethods ms ms' = true →
    List.Forall₂ (Method.Like .agreement) ms ms'
  | [], ms', h => by
      cases ms' <;> simp only [agreesMethods, Bool.false_eq_true] at h
      exact .nil
  | .mk access isStatic isConstructor name parameters body _ :: ms, ms', h => by
      cases ms' with
      | nil => simp only [agreesMethods, Bool.false_eq_true] at h
      | cons m' ms' =>
          obtain ⟨access', isStatic', isConstructor', name', parameters', body', _⟩ := m'
          simp only [agreesMethods, Bool.and_eq_true, beq_iff_eq] at h
          obtain ⟨⟨⟨⟨⟨⟨rfl, rfl⟩, rfl⟩, rfl⟩, rfl⟩, hbody⟩, hrest⟩ := h
          exact .cons (.mk (likeAll_of_agrees body _ hbody) trivial) (likeMethods_of_agrees ms _ hrest)

end

mutual

/-- Statements that do not differ at all are the same. -/
theorem eq_of_like : (s s' : Statement) → Like .same s s' → s' = s
  | .binding constant name initializer _, _, .binding he hp =>
    congrArg₂ (binding constant name) (initializer.eq_of_like _ he) hp.symm
  | .function name parameters body _, _, .function hbody hp =>
    congrArg₂ (function name parameters) (eqAll_of_like body _ hbody) hp.symm
  | .classDecl name superclass methods _, _, .classDecl hms hp =>
    congrArg₂ (classDecl name superclass) (eqMethods_of_like methods _ hms) hp.symm
  | .conditional condition thenBranch none _, _, .onlyIf hc ht hp => by
      rw [condition.eq_of_like _ hc, eq_of_like thenBranch _ ht, ← show _ = _ from hp]
  | .conditional condition thenBranch (some elseBranch) _, _, .ifElse hc ht he hp => by
      rw [condition.eq_of_like _ hc, eq_of_like thenBranch _ ht, eq_of_like elseBranch _ he,
        ← show _ = _ from hp]
  | .loop condition body _, _, .loop hc hbody hp => by
      rw [condition.eq_of_like _ hc, eq_of_like body _ hbody, ← show _ = _ from hp]
  | .giveBack none _, _, .giveBackNothing hp => congrArg (giveBack none) hp.symm
  | .giveBack (some value) _, _, .giveBack he hp => by
      rw [value.eq_of_like _ he, ← show _ = _ from hp]
  | .print value _, _, .print he hp => congrArg₂ print (value.eq_of_like _ he) hp.symm
  | .block statements _, _, .block hss hp => congrArg₂ block (eqAll_of_like statements _ hss) hp.symm
  | .expression expr _, _, .expression he hp => congrArg₂ expression (expr.eq_of_like _ he) hp.symm
  | .empty _, _, .empty hp => congrArg empty hp.symm
  | .importNames names source _, _, .importNames hp => congrArg (importNames names source) hp.symm
  | .exportDecl declaration _, _, .exportDecl hs hp =>
    congrArg₂ exportDecl (eq_of_like declaration _ hs) hp.symm
  | .exportNames names _, _, .exportNames hp => congrArg (exportNames names) hp.symm

theorem eqAll_of_like : (ss ss' : List Statement) → List.Forall₂ (Like .same) ss ss' → ss' = ss
  | [], _, .nil => rfl
  | s :: ss, _, .cons hs hss => congrArg₂ List.cons (eq_of_like s _ hs) (eqAll_of_like ss _ hss)

theorem eqMethods_of_like :
    (ms ms' : List Method) → List.Forall₂ (Method.Like .same) ms ms' → ms' = ms
  | [], _, .nil => rfl
  | .mk _ _ _ _ _ body _ :: ms, _, .cons (.mk hbody hp) hms => by
      rw [eqAll_of_like body _ hbody, eqMethods_of_like ms _ hms, ← show _ = _ from hp]

end

end Statement

end Lipi
