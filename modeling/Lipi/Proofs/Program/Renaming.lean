import Lipi.Proofs.Statement.WellFormed
import Mathlib.Data.List.Forall2

set_option autoImplicit false

/-! # Trees with other names for members

The names of members and methods are the only words that a tree keeps as they are written, so they
are all that two readings of the same tokens can differ in. Two trees are `Renamed` by a relation of
names if they are the same up to positions and these names, and the names are related, **one by one
and in the same order** (`Statement.Renamed.memberNames`). With the same names they are the same up to
positions (`Statement.erase_of_renamed`).
-/

namespace Lipi

/-! ## Expressions -/

/-- Two expressions are the same up to positions and the names of members, which are related. -/
inductive Expr.Renamed (r : String → String → Prop) : Expr → Expr → Prop where
  | literal {v : Literal} {p q : Position} : Renamed r (.literal v p) (.literal v q)
  | identifier {name : String} {p q : Position} : Renamed r (.identifier name p) (.identifier name q)
  | unary {op : UnaryOp} {e e' : Expr} {p q : Position} :
    Renamed r e e' → Renamed r (.unary op e p) (.unary op e' q)
  | binary {op : BinaryOp} {left left' right right' : Expr} {p q : Position} :
    Renamed r left left' → Renamed r right right' →
    Renamed r (.binary op left right p) (.binary op left' right' q)
  | assign {target target' value value' : Expr} {p q : Position} :
    Renamed r target target' → Renamed r value value' →
    Renamed r (.assign target value p) (.assign target' value' q)
  | call {callee callee' : Expr} {es es' : List Expr} {p q : Position} :
    Renamed r callee callee' → List.Forall₂ (Renamed r) es es' →
    Renamed r (.call callee es p) (.call callee' es' q)
  | member {object object' : Expr} {name name' : String} {p q : Position} :
    Renamed r object object' → r name name' →
    Renamed r (.member object name p) (.member object' name' q)
  | index {object object' key key' : Expr} {p q : Position} :
    Renamed r object object' → Renamed r key key' →
    Renamed r (.index object key p) (.index object' key' q)
  | array {es es' : List Expr} {p q : Position} :
    List.Forall₂ (Renamed r) es es' → Renamed r (.array es p) (.array es' q)
  | receiver {p q : Position} : Renamed r (.receiver p) (.receiver q)
  | super {p q : Position} : Renamed r (.super p) (.super q)
  | new {name : String} {es es' : List Expr} {p q : Position} :
    List.Forall₂ (Renamed r) es es' → Renamed r (.new name es p) (.new name es' q)
  | grouping {e e' : Expr} {p q : Position} :
    Renamed r e e' → Renamed r (.grouping e p) (.grouping e' q)

namespace Expr

mutual

/-- The names of members in an expression, from left to right. -/
def memberNames : Expr → List String
  | literal _ _ | identifier _ _ | receiver _ | super _ => []
  | unary _ operand _ => operand.memberNames
  | binary _ left right _ => left.memberNames ++ right.memberNames
  | assign target value _ => target.memberNames ++ value.memberNames
  | call callee arguments _ => callee.memberNames ++ memberNamesAll arguments
  | member object name _ => object.memberNames ++ [name]
  | index object key _ => object.memberNames ++ key.memberNames
  | array elements _ => memberNamesAll elements
  | new _ arguments _ => memberNamesAll arguments
  | grouping inner _ => inner.memberNames

def memberNamesAll : List Expr → List String
  | [] => []
  | e :: es => e.memberNames ++ memberNamesAll es

end

variable {r : String → String → Prop}

mutual

theorem renamed_refl (hrefl : ∀ name, r name name) : (e : Expr) → e.Renamed r e
  | literal _ _ => .literal
  | identifier _ _ => .identifier
  | unary _ operand _ => .unary (renamed_refl hrefl operand)
  | binary _ left right _ => .binary (renamed_refl hrefl left) (renamed_refl hrefl right)
  | assign target value _ => .assign (renamed_refl hrefl target) (renamed_refl hrefl value)
  | call callee arguments _ => .call (renamed_refl hrefl callee) (renamedAll_refl hrefl arguments)
  | member object name _ => .member (renamed_refl hrefl object) (hrefl name)
  | index object key _ => .index (renamed_refl hrefl object) (renamed_refl hrefl key)
  | array elements _ => .array (renamedAll_refl hrefl elements)
  | receiver _ => .receiver
  | super _ => .super
  | new _ arguments _ => .new (renamedAll_refl hrefl arguments)
  | grouping inner _ => .grouping (renamed_refl hrefl inner)

theorem renamedAll_refl (hrefl : ∀ name, r name name) :
    (es : List Expr) → List.Forall₂ (Renamed r) es es
  | [] => .nil
  | e :: es => .cons (renamed_refl hrefl e) (renamedAll_refl hrefl es)

end

mutual

/-- The names in the one expression are related to the names in the other. -/
theorem Renamed.memberNames : {e e' : Expr} → e.Renamed r e' →
    List.Forall₂ r e.memberNames e'.memberNames
  | _, _, .literal | _, _, .identifier | _, _, .receiver | _, _, .super => .nil
  | _, _, .unary he => he.memberNames
  | _, _, .binary hl hr => List.rel_append hl.memberNames hr.memberNames
  | _, _, .assign ht hv => List.rel_append ht.memberNames hv.memberNames
  | _, _, .call hc hes => List.rel_append hc.memberNames (memberNamesAll_of_renamed hes)
  | _, _, .member ho hname => List.rel_append ho.memberNames (.cons hname .nil)
  | _, _, .index ho hk => List.rel_append ho.memberNames hk.memberNames
  | _, _, .array hes => memberNamesAll_of_renamed hes
  | _, _, .new hes => memberNamesAll_of_renamed hes
  | _, _, .grouping he => he.memberNames

theorem memberNamesAll_of_renamed : {es es' : List Expr} → List.Forall₂ (Renamed r) es es' →
    List.Forall₂ r (memberNamesAll es) (memberNamesAll es')
  | _, _, .nil => .nil
  | _, _, .cons he hes => List.rel_append he.memberNames (memberNamesAll_of_renamed hes)

end

mutual

/-- Expressions with the same names are the same up to positions. -/
theorem erase_of_renamed : {e e' : Expr} → e.Renamed r e' → e.memberNames = e'.memberNames →
    e'.erase = e.erase
  | _, _, .literal, _ | _, _, .identifier, _ | _, _, .receiver, _ | _, _, .super, _ => rfl
  | _, _, .unary he, h => by rw [erase, erase, erase_of_renamed he h]
  | _, _, .binary hl hr, h => by
      obtain ⟨h₁, h₂⟩ := List.append_inj h hl.memberNames.length_eq
      rw [erase, erase, erase_of_renamed hl h₁, erase_of_renamed hr h₂]
  | _, _, .assign ht hv, h => by
      obtain ⟨h₁, h₂⟩ := List.append_inj h ht.memberNames.length_eq
      rw [erase, erase, erase_of_renamed ht h₁, erase_of_renamed hv h₂]
  | _, _, .call hc hes, h => by
      obtain ⟨h₁, h₂⟩ := List.append_inj h hc.memberNames.length_eq
      rw [erase, erase, erase_of_renamed hc h₁, eraseAll_of_renamed hes h₂]
  | _, _, .member ho _, h => by
      obtain ⟨h₁, h₂⟩ := List.append_inj h ho.memberNames.length_eq
      rw [erase, erase, erase_of_renamed ho h₁, List.singleton_inj.mp h₂]
  | _, _, .index ho hk, h => by
      obtain ⟨h₁, h₂⟩ := List.append_inj h ho.memberNames.length_eq
      rw [erase, erase, erase_of_renamed ho h₁, erase_of_renamed hk h₂]
  | _, _, .array hes, h => by rw [erase, erase, eraseAll_of_renamed hes h]
  | _, _, .new hes, h => by rw [erase, erase, eraseAll_of_renamed hes h]
  | _, _, .grouping he, h => by rw [erase, erase, erase_of_renamed he h]

theorem eraseAll_of_renamed : {es es' : List Expr} → List.Forall₂ (Renamed r) es es' →
    memberNamesAll es = memberNamesAll es' → eraseAll es' = eraseAll es
  | _, _, .nil, _ => rfl
  | _, _, .cons he hes, h => by
      obtain ⟨h₁, h₂⟩ := List.append_inj h he.memberNames.length_eq
      rw [eraseAll, eraseAll, erase_of_renamed he h₁, eraseAll_of_renamed hes h₂]

end

end Expr

/-! ## Statements -/

mutual

/-- Two statements are the same up to positions and the names of members and methods, which are
related. -/
inductive Statement.Renamed (r : String → String → Prop) : Statement → Statement → Prop where
  | binding {constant : Bool} {name : String} {e e' : Expr} {p q : Position} :
    e.Renamed r e' → Statement.Renamed r (.binding constant name e p) (.binding constant name e' q)
  | function {name : String} {parameters : List String} {body body' : List Statement}
    {p q : Position} :
    List.Forall₂ (Statement.Renamed r) body body' →
    Statement.Renamed r (.function name parameters body p) (.function name parameters body' q)
  | classDecl {name : String} {superclass : Option String} {methods methods' : List Method}
    {p q : Position} :
    List.Forall₂ (Method.Renamed r) methods methods' →
    Statement.Renamed r (.classDecl name superclass methods p)
      (.classDecl name superclass methods' q)
  | onlyIf {c c' : Expr} {t t' : Statement} {p q : Position} :
    c.Renamed r c' → Statement.Renamed r t t' →
    Statement.Renamed r (.conditional c t none p) (.conditional c' t' none q)
  | ifElse {c c' : Expr} {t t' e e' : Statement} {p q : Position} :
    c.Renamed r c' → Statement.Renamed r t t' → Statement.Renamed r e e' →
    Statement.Renamed r (.conditional c t (some e) p) (.conditional c' t' (some e') q)
  | loop {c c' : Expr} {body body' : Statement} {p q : Position} :
    c.Renamed r c' → Statement.Renamed r body body' →
    Statement.Renamed r (.loop c body p) (.loop c' body' q)
  | giveBackNothing {p q : Position} : Statement.Renamed r (.giveBack none p) (.giveBack none q)
  | giveBack {e e' : Expr} {p q : Position} :
    e.Renamed r e' → Statement.Renamed r (.giveBack (some e) p) (.giveBack (some e') q)
  | print {e e' : Expr} {p q : Position} :
    e.Renamed r e' → Statement.Renamed r (.print e p) (.print e' q)
  | block {ss ss' : List Statement} {p q : Position} :
    List.Forall₂ (Statement.Renamed r) ss ss' → Statement.Renamed r (.block ss p) (.block ss' q)
  | expression {e e' : Expr} {p q : Position} :
    e.Renamed r e' → Statement.Renamed r (.expression e p) (.expression e' q)
  | empty {p q : Position} : Statement.Renamed r (.empty p) (.empty q)
  | importNames {names : List String} {source : String} {p q : Position} :
    Statement.Renamed r (.importNames names source p) (.importNames names source q)
  | exportDecl {s s' : Statement} {p q : Position} :
    Statement.Renamed r s s' → Statement.Renamed r (.exportDecl s p) (.exportDecl s' q)
  | exportNames {names : List String} {p q : Position} :
    Statement.Renamed r (.exportNames names p) (.exportNames names q)

/-- Two methods are the same up to positions and names. A constructor has no name of its own. -/
inductive Method.Renamed (r : String → String → Prop) : Method → Method → Prop where
  | constructor {access : Access} {isStatic : Bool} {name : String} {parameters : List String}
    {body body' : List Statement} {p q : Position} :
    List.Forall₂ (Statement.Renamed r) body body' →
    Method.Renamed r (.mk access isStatic true name parameters body p)
      (.mk access isStatic true name parameters body' q)
  | method {access : Access} {isStatic : Bool} {name name' : String} {parameters : List String}
    {body body' : List Statement} {p q : Position} :
    r name name' → List.Forall₂ (Statement.Renamed r) body body' →
    Method.Renamed r (.mk access isStatic false name parameters body p)
      (.mk access isStatic false name' parameters body' q)

end

namespace Statement

mutual

/-- The names of members and methods in a statement, from left to right. -/
def memberNames : Statement → List String
  | binding _ _ initializer _ => initializer.memberNames
  | function _ _ body _ => memberNamesAll body
  | classDecl _ _ methods _ => memberNamesMethods methods
  | conditional condition thenBranch none _ => condition.memberNames ++ thenBranch.memberNames
  | conditional condition thenBranch (some elseBranch) _ =>
    condition.memberNames ++ (thenBranch.memberNames ++ elseBranch.memberNames)
  | loop condition body _ => condition.memberNames ++ body.memberNames
  | giveBack none _ => []
  | giveBack (some value) _ => value.memberNames
  | print value _ => value.memberNames
  | block statements _ => memberNamesAll statements
  | expression expr _ => expr.memberNames
  | empty _ | importNames _ _ _ | exportNames _ _ => []
  | exportDecl declaration _ => declaration.memberNames

def memberNamesAll : List Statement → List String
  | [] => []
  | s :: ss => s.memberNames ++ memberNamesAll ss

def memberNamesMethods : List Method → List String
  | [] => []
  | .mk _ _ true _ _ body _ :: ms => memberNamesAll body ++ memberNamesMethods ms
  | .mk _ _ false name _ body _ :: ms => name :: (memberNamesAll body ++ memberNamesMethods ms)

end

variable {r : String → String → Prop}

mutual

theorem renamed_refl (hrefl : ∀ name, r name name) : (t : Statement) → t.Renamed r t
  | binding _ _ initializer _ => .binding (Expr.renamed_refl hrefl initializer)
  | function _ _ body _ => .function (renamedAll_refl hrefl body)
  | classDecl _ _ methods _ => .classDecl (renamedMethods_refl hrefl methods)
  | conditional condition thenBranch none _ =>
    .onlyIf (Expr.renamed_refl hrefl condition) (renamed_refl hrefl thenBranch)
  | conditional condition thenBranch (some elseBranch) _ =>
    .ifElse (Expr.renamed_refl hrefl condition) (renamed_refl hrefl thenBranch)
      (renamed_refl hrefl elseBranch)
  | loop condition body _ => .loop (Expr.renamed_refl hrefl condition) (renamed_refl hrefl body)
  | giveBack none _ => .giveBackNothing
  | giveBack (some value) _ => .giveBack (Expr.renamed_refl hrefl value)
  | print value _ => .print (Expr.renamed_refl hrefl value)
  | block statements _ => .block (renamedAll_refl hrefl statements)
  | expression expr _ => .expression (Expr.renamed_refl hrefl expr)
  | empty _ => .empty
  | importNames _ _ _ => .importNames
  | exportDecl declaration _ => .exportDecl (renamed_refl hrefl declaration)
  | exportNames _ _ => .exportNames

theorem renamedAll_refl (hrefl : ∀ name, r name name) :
    (ss : List Statement) → List.Forall₂ (Renamed r) ss ss
  | [] => .nil
  | s :: ss => .cons (renamed_refl hrefl s) (renamedAll_refl hrefl ss)

theorem renamedMethods_refl (hrefl : ∀ name, r name name) :
    (ms : List Method) → List.Forall₂ (Method.Renamed r) ms ms
  | [] => .nil
  | .mk _ _ true _ _ body _ :: ms =>
    .cons (.constructor (renamedAll_refl hrefl body)) (renamedMethods_refl hrefl ms)
  | .mk _ _ false name _ body _ :: ms =>
    .cons (.method (hrefl name) (renamedAll_refl hrefl body)) (renamedMethods_refl hrefl ms)

end

mutual

/-- The names in the one statement are related to the names in the other. -/
theorem Renamed.memberNames : {t t' : Statement} → t.Renamed r t' →
    List.Forall₂ r t.memberNames t'.memberNames
  | _, _, .binding he => he.memberNames
  | _, _, .function hbody => memberNamesAll_of_renamed hbody
  | _, _, .classDecl hmethods => memberNamesMethods_of_renamed hmethods
  | _, _, .onlyIf hc ht => List.rel_append hc.memberNames ht.memberNames
  | _, _, .ifElse hc ht he =>
    List.rel_append hc.memberNames (List.rel_append ht.memberNames he.memberNames)
  | _, _, .loop hc hbody => List.rel_append hc.memberNames hbody.memberNames
  | _, _, .giveBackNothing => .nil
  | _, _, .giveBack he => he.memberNames
  | _, _, .print he => he.memberNames
  | _, _, .block hss => memberNamesAll_of_renamed hss
  | _, _, .expression he => he.memberNames
  | _, _, .empty | _, _, .importNames | _, _, .exportNames => .nil
  | _, _, .exportDecl ht => ht.memberNames

theorem memberNamesAll_of_renamed : {ss ss' : List Statement} → List.Forall₂ (Renamed r) ss ss' →
    List.Forall₂ r (memberNamesAll ss) (memberNamesAll ss')
  | _, _, .nil => .nil
  | _, _, .cons ht hss => List.rel_append ht.memberNames (memberNamesAll_of_renamed hss)

theorem memberNamesMethods_of_renamed :
    {ms ms' : List Method} → List.Forall₂ (Method.Renamed r) ms ms' →
    List.Forall₂ r (memberNamesMethods ms) (memberNamesMethods ms')
  | _, _, .nil => .nil
  | _, _, .cons (.constructor hbody) hms =>
    List.rel_append (memberNamesAll_of_renamed hbody) (memberNamesMethods_of_renamed hms)
  | _, _, .cons (.method hname hbody) hms =>
    .cons hname
      (List.rel_append (memberNamesAll_of_renamed hbody) (memberNamesMethods_of_renamed hms))

end

mutual

/-- **Statements with the same names are the same up to positions.** -/
theorem erase_of_renamed : {t t' : Statement} → t.Renamed r t' → t.memberNames = t'.memberNames →
    t'.erase = t.erase
  | _, _, .binding he, h => by rw [erase, erase, Expr.erase_of_renamed he h]
  | _, _, .function hbody, h => by rw [erase, erase, eraseAll_of_renamed hbody h]
  | _, _, .classDecl hmethods, h => by rw [erase, erase, eraseMethods_of_renamed hmethods h]
  | _, _, .onlyIf hc ht, h => by
      obtain ⟨h₁, h₂⟩ := List.append_inj h hc.memberNames.length_eq
      rw [erase, erase, Expr.erase_of_renamed hc h₁, erase_of_renamed ht h₂]
  | _, _, .ifElse hc ht he, h => by
      obtain ⟨h₁, h₂⟩ := List.append_inj h hc.memberNames.length_eq
      obtain ⟨h₂, h₃⟩ := List.append_inj h₂ ht.memberNames.length_eq
      rw [erase, erase, Expr.erase_of_renamed hc h₁, erase_of_renamed ht h₂, erase_of_renamed he h₃]
  | _, _, .loop hc hbody, h => by
      obtain ⟨h₁, h₂⟩ := List.append_inj h hc.memberNames.length_eq
      rw [erase, erase, Expr.erase_of_renamed hc h₁, erase_of_renamed hbody h₂]
  | _, _, .giveBackNothing, _ => rfl
  | _, _, .giveBack he, h => by rw [erase, erase, Expr.erase_of_renamed he h]
  | _, _, .print he, h => by rw [erase, erase, Expr.erase_of_renamed he h]
  | _, _, .block hss, h => by rw [erase, erase, eraseAll_of_renamed hss h]
  | _, _, .expression he, h => by rw [erase, erase, Expr.erase_of_renamed he h]
  | _, _, .empty, _ | _, _, .importNames, _ | _, _, .exportNames, _ => rfl
  | _, _, .exportDecl ht, h => by rw [erase, erase, erase_of_renamed ht h]

theorem eraseAll_of_renamed : {ss ss' : List Statement} → List.Forall₂ (Renamed r) ss ss' →
    memberNamesAll ss = memberNamesAll ss' → eraseAll ss' = eraseAll ss
  | _, _, .nil, _ => rfl
  | _, _, .cons ht hss, h => by
      obtain ⟨h₁, h₂⟩ := List.append_inj h ht.memberNames.length_eq
      rw [eraseAll, eraseAll, erase_of_renamed ht h₁, eraseAll_of_renamed hss h₂]

theorem eraseMethods_of_renamed : {ms ms' : List Method} → List.Forall₂ (Method.Renamed r) ms ms' →
    memberNamesMethods ms = memberNamesMethods ms' → eraseMethods ms' = eraseMethods ms
  | _, _, .nil, _ => rfl
  | _, _, .cons (.constructor hbody) hms, h => by
      obtain ⟨h₁, h₂⟩ := List.append_inj h (memberNamesAll_of_renamed hbody).length_eq
      rw [eraseMethods, eraseMethods, eraseAll_of_renamed hbody h₁, eraseMethods_of_renamed hms h₂]
  | _, _, .cons (.method _ hbody) hms, h => by
      obtain ⟨hname, hrest⟩ := List.cons.inj h
      obtain ⟨h₁, h₂⟩ := List.append_inj hrest (memberNamesAll_of_renamed hbody).length_eq
      rw [eraseMethods, eraseMethods, hname, eraseAll_of_renamed hbody h₁,
        eraseMethods_of_renamed hms h₂]

end

end Statement

/-! ## Programs -/

namespace Program

/-- The names of members and methods in a program, from left to right. -/
def memberNames (p : Program) : List String :=
  Statement.memberNamesAll p.body

/-- Programs that are the same up to names, and in names, are the same up to positions. -/
theorem agrees_of_renamed {r : String → String → Prop} {p q : Program}
    (hwell : Statement.AllWellFormed true p.body) (hmarkers : q.markers = p.markers)
    (hbody : List.Forall₂ (Statement.Renamed r) p.body q.body)
    (hnames : p.memberNames = q.memberNames) : p.agrees q = true := by
  have herase := Statement.eraseAll_of_renamed hbody hnames
  unfold agrees
  rw [hmarkers, beq_self_eq_true, Bool.true_and]
  exact Statement.agreesAll_of_erase true p.body q.body hwell herase

end Program

end Lipi
