import Lipi.Proofs.Machine.Parts

set_option autoImplicit false

/-! # Relations between computations

What is proved about whole runs always takes the same walk over the constructs of the language. It
is made once, here. An `EvalRelation` relates computations and is **respected by every elementary
step of a run**; `ExprRelation.expression` and `EvalRelation.statement` say that then every
construct respects it, if two runners respect it on the parts of the construct. Expressions take
fewer steps than statements: they bind no names. `ExprRelation` asks for these steps only.

Five things are left to each relation. Calls, loops and imports are not made of smaller parts of the
tree: they run the body of an object of the heap, the same parts again, or another program.
Assignments to computed members can abort a run. Printing concerns only those who look at the
output.
-/

namespace Lipi

/-! ## Relations -/

/-- A relation between computations with the clauses that expressions need. -/
structure ExprRelation where
  rel : {α : Type} → Eval α → Eval α → Prop
  pure : ∀ {α : Type} (a : α), rel (pure a) (pure a)
  bind : ∀ {α β : Type} {x y : Eval α} {f g : α → Eval β},
    rel x y → (∀ a, rel (f a) (g a)) → rel (x >>= f) (y >>= g)
  /-- A computation may depend on the heap, the current scope, the innermost frame and the number of
  active calls. -/
  ask : ∀ {α : Type} {f g : Heap → ScopeRef → Option Frame → Nat → Eval α},
    (∀ h s frame depth, rel (f h s frame depth) (g h s frame depth)) →
    rel (fun m => f m.heap m.environment m.frame? m.callDepth m)
      (fun m => g m.heap m.environment m.frame? m.callDepth m)
  fail : ∀ {α : Type} (cause : RuntimeError.Cause) (pos : Position), cause.isCircular = false →
    rel (Eval.fail cause pos : Eval α) (Eval.fail cause pos)
  getMember : ∀ (target : Value) (key : Key) (pos : Position),
    rel (Eval.getMember target key pos) (Eval.getMember target key pos)
  newArray : ∀ elements : Array Value,
    rel (Eval.alloc (·.newArray elements)) (Eval.alloc (·.newArray elements))
  newInstance : ∀ c : ClassRef, rel (Eval.alloc (·.newInstance c)) (Eval.alloc (·.newInstance c))
  assign : ∀ (name : String) (value : Value) (pos : Position),
    rel (Eval.assign name value pos) (Eval.assign name value pos)
  setField : ∀ (target : Value) (name : String) (value : Value) (pos : Position),
    rel (Eval.setMember target (.name name) value pos)
      (Eval.setMember target (.name name) value pos)

/-- A relation between computations with the clauses that all constructs need. `fits` restricts the
depth of the bodies of functions and methods that a run may declare. -/
structure EvalRelation extends ExprRelation where
  fits : Nat → Prop
  fits_mono : ∀ {a b : Nat}, a ≤ b → fits b → fits a
  newFunction : ∀ (routine : Routine) (closure : ScopeRef),
    fits (Statement.depthAll routine.body) →
    rel (Eval.alloc (·.newFunction ⟨routine, closure⟩))
      (Eval.alloc (·.newFunction ⟨routine, closure⟩))
  declareClass : ∀ (name : String) (superclass : Option ClassRef) (methods : List Method)
    (closure : ScopeRef), fits (Statement.depthMethods methods) →
    rel (Eval.alloc (·.declareClass name superclass methods closure))
      (Eval.alloc (·.declareClass name superclass methods closure))
  declare : ∀ (name : String) (value : Value) (constant : Bool) (pos : Position),
    rel (Eval.declare name value constant pos) (Eval.declare name value constant pos)
  noteExports : ∀ names : List String, rel (Runner.noteExports names) (Runner.noteExports names)
  inNewScope : ∀ {α : Type} (bindings : Dict Binding) (parent : ScopeRef) {x y : Eval α},
    rel x y → rel (Eval.inNewScope bindings parent x) (Eval.inNewScope bindings parent y)

/-- Two runners respect a relation on expressions that are less than `d` deep, and on calls. -/
structure ExprRelation.RespectsParts (R : ExprRelation) (d : Nat) (run run' : Runner) : Prop where
  evaluate : ∀ e : Expr, e.depth < d → R.rel (run.evaluate e) (run'.evaluate e)
  callValue : ∀ (callee : Value) (arguments : List Value) (pos : Position),
    R.rel (run.callValue callee arguments pos) (run'.callValue callee arguments pos)
  callMethod : ∀ (receiver : Option InstanceRef) (method : MethodRef) (home : ClassRef)
    (arguments : List Value) (pos : Position),
    R.rel (run.callMethod receiver method home arguments pos)
      (run'.callMethod receiver method home arguments pos)

/-- Two runners respect a relation inside one module: on trees that are less than `d` deep, on the
loops that are made of such trees, and on calls. -/
structure EvalRelation.RespectsInside (R : EvalRelation) (d : Nat) (run run' : Runner) : Prop
    extends R.toExprRelation.RespectsParts d run run' where
  execute : ∀ s : Statement, s.depth < d → R.rel (run.execute s) (run'.execute s)
  loop : ∀ (condition : Expr) (body : Statement) (pos : Position),
    condition.depth < d → body.depth < d →
    R.rel (fun m => run.loop condition body pos m.limits.maxIterations m)
      (fun m => run'.loop condition body pos m.limits.maxIterations m)

/-- Two runners respect a relation, also where a module reaches outside: when it prints and when it
loads another module. -/
structure EvalRelation.Respects (R : EvalRelation) (d : Nat) (run run' : Runner) : Prop
    extends R.RespectsInside d run run' where
  print : ∀ line : String, R.rel (Eval.print line) (Eval.print line)
  loadModule : ∀ (specifier : String) (pos : Position),
    R.rel (run.loadModule specifier pos) (run'.loadModule specifier pos)

namespace ExprRelation

variable (R : ExprRelation)

/-! ## Steps that read -/

/-- `ask` for one computation on both sides. -/
theorem look {α : Type} (f : Heap → ScopeRef → Option Frame → Nat → Eval α)
    (hf : ∀ h s frame depth, R.rel (f h s frame depth) (f h s frame depth)) :
    R.rel (fun m => f m.heap m.environment m.frame? m.callDepth m)
      (fun m => f m.heap m.environment m.frame? m.callDepth m) :=
  R.ask hf

theorem map {α β : Type} {x y : Eval α} (f : α → β) (h : R.rel x y) :
    R.rel (f <$> x) (f <$> y) := by
  rw [map_eq_pure_bind, map_eq_pure_bind]
  exact R.bind h fun a => R.pure (f a)

theorem lift {α : Type} (pos : Position) {result : Except RuntimeError.Cause α}
    (hresult : RuntimeError.Inside result) :
    R.rel (Eval.lift pos result) (Eval.lift pos result) := by
  cases result with
  | ok a => exact R.pure a
  | error cause => exact R.fail cause pos (hresult cause rfl)

theorem orFail {α : Type} {cause : RuntimeError.Cause} (hcause : cause.isCircular = false)
    (pos : Position) (a : Option α) :
    R.rel (Eval.orFail cause pos a) (Eval.orFail cause pos a) := by
  cases a with
  | some a => exact R.pure a
  | none => exact R.fail cause pos hcause

theorem lookup (name : String) (pos : Position) :
    R.rel (Eval.lookup name pos) (Eval.lookup name pos) := by
  have key : Eval.lookup name pos = fun m =>
      Eval.orFail (.undefinedVariable name) pos (m.heap.lookup? m.environment name) m := by
    funext m
    unfold Eval.lookup
    cases m.heap.lookup? m.environment name <;> rfl
  rw [key]
  exact R.look (fun h s _ _ => Eval.orFail (.undefinedVariable name) pos (h.lookup? s name))
    fun h s _ _ => R.orFail rfl pos _

theorem methodFrame {outside : RuntimeError.Cause} (houtside : outside.isCircular = false)
    (pos : Position) :
    R.rel (Eval.methodFrame outside pos) (Eval.methodFrame outside pos) := by
  have key : Eval.methodFrame outside pos = fun m => Eval.orFail outside pos m.frame? m := by
    funext m
    unfold Eval.methodFrame
    cases m.frame? <;> rfl
  rw [key]
  exact R.look (fun _ _ frame _ => Eval.orFail outside pos frame)
    fun _ _ _ _ => R.orFail houtside pos _

theorem receiver (pos : Position) : R.rel (Eval.receiver pos) (Eval.receiver pos) := by
  refine R.bind (R.methodFrame rfl pos) fun frame => ?_
  cases frame.receiver with
  | some o => exact R.pure _
  | none => exact R.fail _ pos rfl

theorem superTarget (pos : Position) : R.rel (Eval.superTarget pos) (Eval.superTarget pos) := by
  refine R.bind (R.methodFrame rfl pos) fun frame => ?_
  refine R.look (fun h _ _ _ => Eval.superOf frame pos h) fun h _ _ _ => ?_
  unfold Eval.superOf
  cases (h.classObject frame.home).superclass with
  | some parent => exact R.pure _
  | none => exact R.fail _ pos rfl

theorem superMember (name : String) (pos : Position) :
    R.rel (Eval.superMember name pos) (Eval.superMember name pos) := by
  refine R.bind (R.superTarget pos) fun target => ?_
  refine R.look (fun h _ _ _ => Eval.superMethod target name pos h) fun h _ _ _ => ?_
  unfold Eval.superMethod
  cases h.findMethod? target.2 (Eval.superTable target.1) name with
  | some found => exact R.pure _
  | none => exact R.fail _ pos rfl

theorem classNamed (name : String) (pos : Position) :
    R.rel (Eval.classNamed name pos) (Eval.classNamed name pos) := by
  refine R.bind (R.lookup name pos) fun value => ?_
  cases value with
  | ofClass c => exact R.pure c
  | _ => exact R.fail _ pos rfl

theorem superclassNamed (name : Option String) (pos : Position) :
    R.rel (Eval.superclassNamed name pos) (Eval.superclassNamed name pos) := by
  cases name with
  | some name => exact R.map some (R.classNamed name pos)
  | none => exact R.pure none

/-! ## Lists of parts -/

section Lists

variable {R}
variable (run run' : Runner)

/-- What all calls of routines respect, all calls of methods respect. -/
theorem callMethod
    (hcall : ∀ (routine : Routine) (closure : ScopeRef) (arguments : List Value)
      (frame : Option Frame) (pos : Position),
      R.rel (run.callRoutine routine closure arguments frame pos)
        (run'.callRoutine routine closure arguments frame pos))
    (receiver : Option InstanceRef) (method : MethodRef) (home : ClassRef) (arguments : List Value)
    (pos : Position) :
    R.rel (run.callMethod receiver method home arguments pos)
      (run'.callMethod receiver method home arguments pos) :=
  R.ask fun heap _ _ _ => hcall (heap.method method).routine (heap.classObject home).closure
    arguments (some ⟨receiver, home⟩) pos

/-- What all calls of routines respect, all calls of values respect. -/
theorem callValue
    (hcall : ∀ (routine : Routine) (closure : ScopeRef) (arguments : List Value)
      (frame : Option Frame) (pos : Position),
      R.rel (run.callRoutine routine closure arguments frame pos)
        (run'.callRoutine routine closure arguments frame pos))
    (callee : Value) (arguments : List Value) (pos : Position) :
    R.rel (run.callValue callee arguments pos) (run'.callValue callee arguments pos) := by
  cases callee with
  | function f =>
      exact R.ask fun heap _ _ _ => hcall (heap.function f).routine (heap.function f).closure
        arguments none pos
  | bound receiver method home => exact callMethod run run' hcall receiver method home arguments pos
  | ofClass c =>
      exact R.look (fun heap _ _ _ =>
        Eval.fail (.classCalledWithoutNew (heap.classObject c).name) pos)
        fun _ _ _ _ => R.fail _ pos rfl
  | _ =>
      exact R.look (fun heap _ _ _ => Eval.fail (.notCallable (Runner.calleeText heap _)) pos)
        fun _ _ _ _ => R.fail _ pos rfl

theorem evaluateAll (es : List Expr)
    (he : ∀ e ∈ es, R.rel (run.evaluate e) (run'.evaluate e)) :
    R.rel (run.evaluateAll es) (run'.evaluateAll es) := by
  induction es with
  | nil => exact R.pure []
  | cons e es ih =>
      have htail := ih fun e' he' => he e' (List.mem_cons_of_mem _ he')
      exact R.bind (he e List.mem_cons_self) fun v => R.bind htail fun vs => R.pure (v :: vs)

end Lists

/-! ## Expressions -/

section Constructs

variable {R}
variable {run run' : Runner} {d : Nat}

theorem RespectsParts.evaluateAll (h : R.RespectsParts d run run') {es : List Expr}
    (hes : Expr.depthAll es < d) : R.rel (run.evaluateAll es) (run'.evaluateAll es) :=
  ExprRelation.evaluateAll run run' es fun e he =>
    h.evaluate e (Nat.lt_of_le_of_lt (Expr.depth_le_depthAll he) hes)

theorem RespectsParts.construct (h : R.RespectsParts d run run') (receiver : Option InstanceRef)
    (c : ClassRef) (arguments : List Value) (pos : Position) :
    R.rel (run.construct receiver c arguments pos) (run'.construct receiver c arguments pos) := by
  refine R.ask (f := fun heap _ _ _ =>
      run.constructBy receiver arguments pos (heap.findConstructor? c))
    (g := fun heap _ _ _ =>
      run'.constructBy receiver arguments pos (heap.findConstructor? c)) fun heap _ _ _ => ?_
  cases heap.findConstructor? c with
  | some found => exact R.bind (h.callMethod receiver _ _ arguments pos) fun _ => R.pure ()
  | none => exact R.pure ()

theorem RespectsParts.newInstance (h : R.RespectsParts d run run') {className : String}
    {arguments : List Expr} {pos : Position} (ha : Expr.depthAll arguments < d) :
    R.rel (run.newInstance className arguments pos) (run'.newInstance className arguments pos) := by
  refine R.bind (R.classNamed className pos) fun c => ?_
  refine R.bind (h.evaluateAll ha) fun vs => ?_
  refine R.bind (R.newInstance c) fun o => ?_
  exact R.bind (h.construct (some o) c vs pos) fun _ => R.pure _

theorem RespectsParts.callSuper (h : R.RespectsParts d run run') (arguments : List Value)
    (pos : Position) :
    R.rel (run.callSuper arguments pos) (run'.callSuper arguments pos) := by
  refine R.bind (R.superTarget pos) fun target => ?_
  exact R.bind (h.construct target.1.receiver target.2 arguments pos) fun _ => R.pure _

theorem RespectsParts.logic (h : R.RespectsParts d run run') (isAnd : Bool) {left right : Expr}
    (hl : left.depth < d) (hr : right.depth < d) :
    R.rel (run.logic isAnd left right) (run'.logic isAnd left right) := by
  refine R.bind (h.evaluate left hl) fun l => ?_
  dsimp only
  split
  · exact R.bind (h.evaluate right hr) fun r => R.pure _
  · exact R.pure _

theorem RespectsParts.binary (h : R.RespectsParts d run run') (op : BinaryOp) {left right : Expr}
    {pos : Position} (hl : left.depth < d) (hr : right.depth < d) :
    R.rel (run.binary op left right pos) (run'.binary op left right pos) := by
  have hplain : R.rel (do
        let l ← run.evaluate left
        let r ← run.evaluate right
        Eval.lift pos (op.apply (← get).heap l r))
      (do
        let l ← run'.evaluate left
        let r ← run'.evaluate right
        Eval.lift pos (op.apply (← get).heap l r)) := by
    refine R.bind (h.evaluate left hl) fun l => R.bind (h.evaluate right hr) fun r => ?_
    exact R.look (fun heap _ _ _ => Eval.lift pos (op.apply heap l r))
      fun heap _ _ _ => R.lift pos (RuntimeError.inside_binary heap op l r)
  cases op with
  | and => exact h.logic true hl hr
  | or => exact h.logic false hl hr
  | _ => exact hplain

theorem RespectsParts.assign (h : R.RespectsParts d run run') {target value : Expr} {pos : Position}
    (hd : (Expr.assign target value pos).depth ≤ d)
    (hindex : ∀ object key keyPos, target = .index object key keyPos →
      R.rel (run.assign target value pos) (run'.assign target value pos)) :
    R.rel (run.assign target value pos) (run'.assign target value pos) := by
  have hv : value.depth < d := by simp only [Expr.depth] at hd; omega
  cases target with
  | identifier name namePos =>
      refine R.bind (h.evaluate value hv) fun v => ?_
      exact R.bind (R.assign name v namePos) fun _ => R.pure v
  | member object name _ =>
      have ho : object.depth < d := by simp only [Expr.depth] at hd; omega
      refine R.bind (h.evaluate object ho) fun o => R.bind (h.evaluate value hv) fun v => ?_
      exact R.bind (R.setField o name v pos) fun _ => R.pure v
  | index object key keyPos => exact hindex object key keyPos rfl
  | _ => exact R.fail _ pos rfl

theorem RespectsParts.call (h : R.RespectsParts d run run') {callee : Expr} {arguments : List Expr}
    {pos : Position} (hc : callee.depth < d) (ha : Expr.depthAll arguments < d) :
    R.rel (run.call callee arguments pos) (run'.call callee arguments pos) := by
  have hplain : R.rel (do
        let f ← run.evaluate callee
        let vs ← run.evaluateAll arguments
        run.callValue f vs pos)
      (do
        let f ← run'.evaluate callee
        let vs ← run'.evaluateAll arguments
        run'.callValue f vs pos) := by
    refine R.bind (h.evaluate callee hc) fun f => R.bind (h.evaluateAll ha) fun vs => ?_
    exact h.callValue f vs pos
  -- constructors and methods of the superclass are found without evaluating a callee
  cases callee with
  | super superPos => exact R.bind (h.evaluateAll ha) fun vs => h.callSuper vs superPos
  | member object name memberPos =>
      cases object with
      | super _ =>
          refine R.bind (R.superMember name memberPos) fun f => R.bind (h.evaluateAll ha) fun vs => ?_
          exact h.callValue f vs pos
      | _ => exact hplain
  | _ => exact hplain

/-- **Every expression respects the relation** if the runners do on its parts, and on the
expression itself if that is an assignment to a computed member. -/
theorem expression {e : Expr} (h : R.RespectsParts e.depth run run')
    (hindex : ∀ object key keyPos value pos, e = .assign (.index object key keyPos) value pos →
      R.rel (run.assign (.index object key keyPos) value pos)
        (run'.assign (.index object key keyPos) value pos)) :
    R.rel (run.expression e) (run'.expression e) := by
  cases e with
  | literal value _ => exact R.pure _
  | identifier name pos => exact R.lookup name pos
  | grouping inner _ => exact h.evaluate inner (by simp only [Expr.depth]; omega)
  | unary op operand pos =>
      refine R.bind (h.evaluate operand (by simp only [Expr.depth]; omega)) fun v => ?_
      exact R.lift pos (RuntimeError.inside_unary op v)
  | binary op left right pos =>
      exact h.binary op (by simp only [Expr.depth]; omega) (by simp only [Expr.depth]; omega)
  | assign target value pos =>
      refine h.assign (Nat.le_refl _) fun object key keyPos htarget => ?_
      subst htarget
      exact hindex object key keyPos value pos rfl
  | call callee arguments pos =>
      exact h.call (by simp only [Expr.depth]; omega) (by simp only [Expr.depth]; omega)
  | member object name pos =>
      have hplain : R.rel (do
            let o ← run.evaluate object
            Eval.getMember o (.name name) pos)
          (do
            let o ← run'.evaluate object
            Eval.getMember o (.name name) pos) :=
        R.bind (h.evaluate object (by simp only [Expr.depth]; omega)) fun o =>
          R.getMember o (.name name) pos
      cases object with
      | super _ => exact R.superMember name pos
      | _ => exact hplain
  | index object key pos =>
      refine R.bind (h.evaluate object (by simp only [Expr.depth]; omega)) fun o => ?_
      refine R.bind (h.evaluate key (by simp only [Expr.depth]; omega)) fun k => ?_
      exact R.getMember o (.computed k) pos
  | array elements _ =>
      refine R.bind (h.evaluateAll (by simp only [Expr.depth]; omega)) fun vs => ?_
      exact R.bind (R.newArray vs.toArray) fun a => R.pure _
  | receiver pos => exact R.receiver pos
  | super pos => exact R.bind (R.methodFrame rfl pos) fun _ => R.fail _ pos rfl
  | new className arguments pos => exact h.newInstance (by simp only [Expr.depth]; omega)

/-- `expression` for a relation that setting a computed member respects. -/
theorem expression_of_setMember {e : Expr} (h : R.RespectsParts e.depth run run')
    (hset : ∀ (o k v : Value) (pos : Position),
      R.rel (Eval.setMember o (.computed k) v pos) (Eval.setMember o (.computed k) v pos)) :
    R.rel (run.expression e) (run'.expression e) := by
  refine expression h fun object key keyPos value pos he => ?_
  subst he
  refine R.bind (h.evaluate object (by simp only [Expr.depth]; omega)) fun o => ?_
  refine R.bind (h.evaluate key (by simp only [Expr.depth]; omega)) fun k => ?_
  refine R.bind (h.evaluate value (by simp only [Expr.depth]; omega)) fun v => ?_
  exact R.bind (hset o k v pos) fun _ => R.pure v

end Constructs

end ExprRelation

namespace EvalRelation

variable (R : EvalRelation)

/-! ## Declarations -/

theorem declareClassNamed (name : String) (superclass : Option String) (methods : List Method)
    (pos : Position) (hfit : R.fits (Statement.depthMethods methods)) :
    R.rel (Eval.declareClass name superclass methods pos)
      (Eval.declareClass name superclass methods pos) := by
  refine R.bind (R.superclassNamed superclass pos) fun parent => ?_
  refine R.look (fun _ closure _ _ => do
    let c ← Eval.alloc (·.declareClass name parent methods closure)
    Eval.declare name (.ofClass c) true pos) fun _ closure _ _ => ?_
  exact R.bind (R.declareClass name parent methods closure hfit) fun c => R.declare name _ true pos

theorem bindImports (specifier : String) (exports : Exports) (pos : Position)
    (names : List String) :
    R.rel (Eval.bindImports specifier exports pos names)
      (Eval.bindImports specifier exports pos names) := by
  induction names with
  | nil => exact R.pure ()
  | cons name names ih =>
      rw [Eval.bindImports]
      cases exports.get? name with
      | none => exact R.fail _ pos rfl
      | some value => exact R.bind (R.declare name value true pos) fun _ => ih

/-! ## Lists of statements -/

section Lists

variable {R}
variable (run run' : Runner)

theorem executeAll (ss : List Statement)
    (hs : ∀ s ∈ ss, R.rel (run.execute s) (run'.execute s)) :
    R.rel (run.executeAll ss) (run'.executeAll ss) := by
  induction ss with
  | nil => exact R.pure Completion.normal
  | cons s ss ih =>
      refine R.bind (hs s List.mem_cons_self) fun completion => ?_
      cases completion with
      | normal => exact ih fun s' hs' => hs s' (List.mem_cons_of_mem _ hs')
      | returned value => exact R.pure _

theorem executeProgram (ss : List Statement)
    (hs : ∀ s ∈ ss, R.rel (run.execute s) (run'.execute s)) :
    R.rel (run.executeProgram ss) (run'.executeProgram ss) := by
  induction ss with
  | nil => exact R.pure ()
  | cons s ss ih =>
      exact R.bind (hs s List.mem_cons_self) fun _ =>
        ih fun s' hs' => hs s' (List.mem_cons_of_mem _ hs')

theorem loop {condition : Expr} {body : Statement} {pos : Position} (n : Nat)
    (hlimit : R.rel
      (fun m => (Eval.fail (.loopLimit m.limits.maxIterations) pos : Eval Completion) m)
      (fun m => (Eval.fail (.loopLimit m.limits.maxIterations) pos : Eval Completion) m))
    (hc : R.rel (run.evaluate condition) (run'.evaluate condition))
    (hb : R.rel (run.execute body) (run'.execute body)) :
    R.rel (run.loop condition body pos n) (run'.loop condition body pos n) := by
  induction n with
  | zero =>
      -- the rounds are used up: the loop fails if its condition still holds
      refine R.bind hc fun v => ?_
      cases v.isTruthy with
      | true => exact hlimit
      | false => exact R.pure _
  | succ n ih =>
      refine R.bind hc fun v => ?_
      cases v.isTruthy with
      | false => exact R.pure _
      | true =>
          refine R.bind hb fun completion => ?_
          cases completion with
          | normal => exact ih
          | returned value => exact R.pure _

theorem activate {routine : Routine} {closure : ScopeRef} {arguments : List Value}
    {frame : Option Frame}
    (hcall : ∀ (bindings : Dict Binding) {x y : Eval Completion}, R.rel x y →
      R.rel (Eval.inNewCall frame bindings closure x) (Eval.inNewCall frame bindings closure y))
    (hs : ∀ s ∈ routine.body, R.rel (run.execute s) (run'.execute s)) :
    R.rel (run.activate routine closure arguments frame)
      (run'.activate routine closure arguments frame) := by
  rw [Runner.activate_eq, Runner.activate_eq]
  refine R.bind (hcall _ (executeAll run run' _ hs)) fun completion => ?_
  cases completion with
  | returned value => exact R.pure value
  | normal => exact R.pure _

end Lists

/-! ## Statements -/

section Constructs

variable {R}
variable {run run' : Runner} {d : Nat}

theorem RespectsInside.giveBack (h : R.RespectsInside d run run') {value : Option Expr}
    {pos : Position} (hv : ∀ e, value = some e → e.depth < d) :
    R.rel (run.giveBack value pos) (run'.giveBack value pos) := by
  cases value with
  | some e =>
      refine R.ask (f := fun _ _ _ depth =>
          if depth = 0 then Eval.fail .returnOutsideFunction pos
          else do return Completion.returned (← run.evaluate e))
        (g := fun _ _ _ depth =>
          if depth = 0 then Eval.fail .returnOutsideFunction pos
          else do return Completion.returned (← run'.evaluate e)) fun _ _ _ depth => ?_
      split
      · exact R.fail _ pos rfl
      · exact R.bind (h.evaluate e (hv e rfl)) fun v => R.pure _
  | none =>
      refine R.look (fun _ _ _ depth =>
        if depth = 0 then Eval.fail .returnOutsideFunction pos
        else return Completion.returned .null) fun _ _ _ depth => ?_
      split
      · exact R.fail _ pos rfl
      · exact R.pure _

theorem Respects.importNames (h : R.Respects d run run') (names : List String) (specifier : String)
    (pos : Position) :
    R.rel (run.importNames names specifier pos) (run'.importNames names specifier pos) :=
  R.bind (h.loadModule specifier pos) fun exports => R.bindImports specifier exports pos names

/-- **Every statement respects the relation** if the runners do on its parts, and on the statement
itself if that prints or imports. -/
theorem statement_inside {s : Statement} (hfit : R.fits s.depth)
    (h : R.RespectsInside s.depth run run')
    (hprint : ∀ value pos, s = .print value pos →
      R.rel (run.statement (.print value pos)) (run'.statement (.print value pos)))
    (himport : ∀ names source pos, s = .importNames names source pos →
      R.rel (run.statement (.importNames names source pos))
        (run'.statement (.importNames names source pos))) :
    R.rel (run.statement s) (run'.statement s) := by
  cases s with
  | binding constant name initializer pos =>
      refine R.bind (h.evaluate initializer (by simp only [Statement.depth]; omega)) fun v => ?_
      exact R.bind (R.declare name v constant pos) fun _ => R.pure _
  | function name parameters body pos =>
      have hbody : R.fits (Statement.depthAll body) :=
        R.fits_mono (by simp only [Statement.depth]; omega) hfit
      refine R.look (fun _ closure _ _ => do
        let f ← Eval.alloc (·.newFunction ⟨⟨name, parameters, body⟩, closure⟩)
        Eval.declare name (.function f) false pos
        return Completion.normal) fun _ closure _ _ => ?_
      refine R.bind (R.newFunction ⟨name, parameters, body⟩ closure hbody) fun f => ?_
      exact R.bind (R.declare name _ false pos) fun _ => R.pure _
  | classDecl name superclass methods pos =>
      have hmethods : R.fits (Statement.depthMethods methods) :=
        R.fits_mono (by simp only [Statement.depth]; omega) hfit
      exact R.bind (R.declareClassNamed name superclass methods pos hmethods) fun _ => R.pure _
  | conditional condition thenBranch elseBranch pos =>
      have hparts : condition.depth < (Statement.conditional condition thenBranch elseBranch pos).depth
          ∧ thenBranch.depth < (Statement.conditional condition thenBranch elseBranch pos).depth := by
        cases elseBranch <;> simp only [Statement.depth] <;> omega
      refine R.bind (h.evaluate condition hparts.1) fun v => ?_
      cases v.isTruthy with
      | true => exact h.execute thenBranch hparts.2
      | false =>
          cases elseBranch with
          | some elseBranch => exact h.execute elseBranch (by simp only [Statement.depth]; omega)
          | none => exact R.pure _
  | loop condition body pos =>
      exact h.loop condition body pos (by simp only [Statement.depth]; omega)
        (by simp only [Statement.depth]; omega)
  | giveBack value pos =>
      refine h.giveBack fun e he => ?_
      subst he
      simp only [Statement.depth]
      omega
  | print value pos => exact hprint value pos rfl
  | block statements _ =>
      have hall : R.rel (run.executeAll statements) (run'.executeAll statements) := by
        refine executeAll run run' statements fun s hs => h.execute s ?_
        have := Statement.depth_le_depthAll hs
        simp only [Statement.depth]
        omega
      -- the new scope is a child of the scope in which the block stands
      exact R.ask (f := fun _ parent _ _ =>
          Eval.inNewScope .empty parent (run.executeAll statements))
        (g := fun _ parent _ _ =>
          Eval.inNewScope .empty parent (run'.executeAll statements))
        fun _ parent _ _ => R.inNewScope .empty parent hall
  | expression e _ =>
      exact R.bind (h.evaluate e (by simp only [Statement.depth]; omega)) fun _ => R.pure _
  | empty _ => exact R.pure _
  | importNames names source pos => exact himport names source pos rfl
  | exportDecl declaration _ =>
      refine R.bind (h.execute declaration (by simp only [Statement.depth]; omega)) fun c => ?_
      exact R.bind (R.noteExports _) fun _ => R.pure c
  | exportNames names _ => exact R.bind (R.noteExports names) fun _ => R.pure _

/-- `statement_inside` for runners that respect the relation where they print and load modules. -/
theorem statement {s : Statement} (hfit : R.fits s.depth) (h : R.Respects s.depth run run') :
    R.rel (run.statement s) (run'.statement s) := by
  refine statement_inside hfit h.toRespectsInside (fun value pos hs => ?_)
    fun names source pos hs => ?_
  · subst hs
    refine R.bind (h.evaluate value (by simp only [Statement.depth]; omega)) fun v => ?_
    refine R.look (fun heap _ _ _ => do
      Eval.print (heap.text v)
      return Completion.normal) fun heap _ _ _ => ?_
    exact R.bind (h.print _) fun _ => R.pure _
  · exact R.bind (h.importNames names source pos) fun _ => R.pure _

end Constructs

end EvalRelation

end Lipi
