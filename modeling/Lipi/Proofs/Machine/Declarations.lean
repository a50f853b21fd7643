import Lipi.Proofs.Heap.Lawful
import Lipi.Proofs.Machine.Oblivious

set_option autoImplicit false

/-! # Declarations stay in their scope

Which names a scope binds, and which of them as constants, is changed by declarations only, and
**a declaration binds in the scope in which it runs**. Expressions do not declare. They assign, but
to names that are bound already and not as constants, and they call; the body of a call runs in a
new scope, and so does a block or a module. Hence of the scopes that are there already, a statement
can change what its own scope binds, and an expression, a block or a call can change nothing of the
kind (`declarations_stay_in_scope`).

The two parts lean on each other: expressions call routines, whose bodies are statements. They are
two relations, one on expressions (`KeepsAll`) and one on all computations (`KeepsOthers`), and
`keepsAll_inNewScope` leads from the second back to the first.
-/

namespace Lipi

namespace Heap

/-- Whether a scope binds a name as a constant; nothing if it does not bind the name. -/
def constancy? (h : Heap) (s : ScopeRef) (name : String) : Option Bool :=
  (h.bindingAt? s name).map (·.constant)

/-- All scopes of a heap are still there, and those that are to be kept bind the same names as
before, the same of them as constants. -/
structure KeepsNames (kept : ScopeRef → Prop) (h h' : Heap) : Prop where
  size : h.scopes.size ≤ h'.scopes.size
  names : ∀ s, s.index < h.scopes.size → kept s → ∀ name,
    h'.constancy? s name = h.constancy? s name

section Names

variable {kept : ScopeRef → Prop} {h h' h'' : Heap}

theorem keepsNames_of_scopes (hscopes : h'.scopes = h.scopes) : h.KeepsNames kept h' := by
  refine ⟨Nat.le_of_eq (by rw [hscopes]), fun s _ _ name => ?_⟩
  unfold constancy? bindingAt? scope?
  rw [hscopes]

theorem KeepsNames.trans (hfirst : h.KeepsNames kept h') (hsecond : h'.KeepsNames kept h'') :
    h.KeepsNames kept h'' := by
  refine ⟨Nat.le_trans hfirst.size hsecond.size, fun s hs hkept name => ?_⟩
  rw [hsecond.names s (Nat.lt_of_lt_of_le hs hfirst.size) hkept, hfirst.names s hs hkept]

theorem KeepsNames.mono {kept' : ScopeRef → Prop} (hkept : ∀ s, kept' s → kept s)
    (hnames : h.KeepsNames kept h') : h.KeepsNames kept' h' :=
  ⟨hnames.size, fun s hs hs' => hnames.names s hs (hkept s hs')⟩

/-- What happens in a new scope keeps the names of all scopes that were there before it. -/
theorem KeepsNames.ofNewScope {scope : Scope}
    (hinside : (h.newScope scope).2.KeepsNames (· ≠ (h.newScope scope).1) h') :
    h.KeepsNames (fun _ => True) h' := by
  have hsize : (h.newScope scope).2.scopes.size = h.scopes.size + 1 := Array.size_push _
  have hgrown := hinside.size
  refine ⟨by omega, fun s hs _ name => ?_⟩
  have hother : s ≠ (h.newScope scope).1 := by
    intro heq
    have hindex : s.index = h.scopes.size := congrArg ScopeRef.index heq
    omega
  have hbefore : (h.newScope scope).2.constancy? s name = h.constancy? s name := by
    unfold constancy? bindingAt? scope? newScope
    rw [Array.getElem?_push_lt hs, ← Array.getElem?_eq_getElem hs]
  rw [hinside.names s (by omega) hother, hbefore]

/-- A binding keeps the names of all other scopes. -/
theorem keepsNames_setBinding (d : ScopeRef) (name : String) (b : Binding) :
    h.KeepsNames (· ≠ d) (h.setBinding d name b) := by
  refine ⟨Nat.le_of_eq (Array.size_modify).symm, fun s _ hother name' => ?_⟩
  unfold constancy?
  rw [bindingAt?_setBinding, if_neg fun hsame => hother hsame.1]

/-- A name that is bound already, as a variable, stays so if it is bound again. -/
theorem keepsNames_rebind {d : ScopeRef} {name : String} (hbound : h.constancy? d name = some false)
    (v : Value) : h.KeepsNames kept (h.setBinding d name ⟨v, false⟩) := by
  refine ⟨Nat.le_of_eq (Array.size_modify).symm, fun s _ _ name' => ?_⟩
  unfold constancy? at hbound ⊢
  rw [bindingAt?_setBinding]
  by_cases hsame : s = d ∧ name' = name
  · obtain ⟨rfl, rfl⟩ := hsame
    rw [if_pos ⟨rfl, rfl⟩, hbound]
    cases hscope : h.scope? s with
    | some scope => rfl
    | none =>
        unfold bindingAt? at hbound
        rw [hscope] at hbound
        cases hbound
  · rw [if_neg hsame]

/-- The nearest scope that binds a name does bind it. -/
theorem bindingAt?_of_binder? {s d : ScopeRef} {name : String} (hbinder : h.binder? s name = some d) :
    ∃ b, h.bindingAt? d name = some b := by
  fun_induction h.binder? s name with
  | case1 s hscope => cases hbinder
  | case2 s scope hscope hcontains =>
      cases hbinder
      unfold bindingAt?
      rw [hscope]
      exact Option.isSome_iff_exists.mp hcontains
  | case3 s scope hscope hcontains hparent => cases hbinder
  | case4 s scope hscope hcontains p hparent hlt ih => exact ih hbinder
  | case5 s scope hscope hcontains p hparent hlt => cases hbinder

/-- An assignment is made where the name is bound as a variable. -/
theorem constancy?_of_assignTarget {s d : ScopeRef} {name : String}
    (htarget : h.assignTarget s name = .ok d) : h.constancy? d name = some false := by
  obtain ⟨hbinder, hvariable⟩ := binder?_of_assignTarget htarget
  obtain ⟨b, hb⟩ := bindingAt?_of_binder? hbinder
  unfold isConstantAt at hvariable
  unfold constancy?
  rw [hb] at hvariable ⊢
  exact congrArg some hvariable

end Names

end Heap

namespace Declarations

open Restoration

/-! ## Computations that keep names -/

/-- A computation keeps the names of all scopes. -/
def KeepsAll {α : Type} (x : Eval α) : Prop :=
  ∀ m : Machine, m.heap.KeepsNames (fun _ => True) (x.final m).heap

/-- A computation keeps the names of all scopes but the current one. -/
def KeepsOthers {α : Type} (x : Eval α) : Prop :=
  Restores x ∧ ∀ m : Machine, m.heap.KeepsNames (· ≠ m.environment) (x.final m).heap

section Steps

variable {α β : Type}

theorem keepsAll_of_scopes {x : Eval α} (hx : ∀ m, (x.final m).heap.scopes = m.heap.scopes) :
    KeepsAll x :=
  fun m => Heap.keepsNames_of_scopes (hx m)

theorem KeepsAll.others {x : Eval α} (hx : KeepsAll x) (hrestores : Restores x) : KeepsOthers x :=
  ⟨hrestores, fun m => (hx m).mono fun _ _ => trivial⟩

theorem keepsAll_bind {x : Eval α} {f : α → Eval β} (hx : KeepsAll x) (hf : ∀ a, KeepsAll (f a)) :
    KeepsAll (x >>= f) := by
  intro m
  rcases Eval.final_bind x f m with ⟨a, h⟩ | h
  · rw [h]
    exact (hx m).trans (hf a _)
  · rw [h]
    exact hx m

theorem keepsOthers_bind {x : Eval α} {f : α → Eval β} (hx : KeepsOthers x)
    (hf : ∀ a, KeepsOthers (f a)) : KeepsOthers (x >>= f) := by
  refine ⟨restores_bind hx.1 fun a => (hf a).1, fun m => ?_⟩
  rcases Eval.final_bind x f m with ⟨a, h⟩ | h
  · rw [h]
    -- the second computation starts in the scope in which the first one started
    have hsecond := (hf a).2 (x.final m)
    rw [(hx.1 m).environment] at hsecond
    exact (hx.2 m).trans hsecond
  · rw [h]
    exact hx.2 m

theorem keepsAll_getMember (target : Value) (key : Key) (pos : Position) :
    KeepsAll (Eval.getMember target key pos) := by
  rw [Eval.getMember_eq_search]
  exact fun m =>
    Eval.heap_search (Heap.keepsNames_of_scopes rfl) fun _ _ => Heap.keepsNames_of_scopes rfl

theorem keepsAll_setMember (target : Value) (key : Key) (value : Value) (pos : Position) :
    KeepsAll (Eval.setMember target key value pos) := by
  intro m
  refine Eval.heap_setMember (Heap.keepsNames_of_scopes rfl) (fun place => ?_) target key pos
  cases place <;> exact Heap.keepsNames_of_scopes rfl

theorem keepsAll_assign (name : String) (value : Value) (pos : Position) :
    KeepsAll (Eval.assign name value pos) := by
  intro m
  rw [Eval.assign_eq_search]
  exact Eval.heap_search (Heap.keepsNames_of_scopes rfl) fun d htarget =>
    Heap.keepsNames_rebind (Heap.constancy?_of_assignTarget htarget) value

theorem keepsAll_collectExports : KeepsAll Eval.collectExports := by
  rw [Eval.collectExports_eq_search]
  exact fun m =>
    Eval.heap_search (Heap.keepsNames_of_scopes rfl) fun _ _ => Heap.keepsNames_of_scopes rfl

/-- A declaration binds in the current scope, or is refused. -/
theorem keepsOthers_declare (name : String) (value : Value) (constant : Bool) (pos : Position) :
    KeepsOthers (Eval.declare name value constant pos) := by
  refine ⟨relation.declare name value constant pos, fun m => ?_⟩
  rw [Eval.declare_eq_search]
  refine Eval.heap_search (Heap.keepsNames_of_scopes rfl) fun d htarget => ?_
  obtain ⟨rfl, _⟩ := Heap.eq_of_defineTarget htarget
  exact Heap.keepsNames_setBinding m.environment name _

/-! ## New scopes -/

/-- What runs in a new scope can only change the names of that scope, which was not there
before. -/
theorem keepsAll_inNewScope (bindings : Dict Binding) (parent : ScopeRef) {x : Eval α}
    (hx : KeepsOthers x) : KeepsAll (Eval.inNewScope bindings parent x) := by
  intro m
  have hinside := hx.2 (m.enterScope bindings parent)
  unfold Eval.final at hinside ⊢
  rw [Eval.inNewScope_apply, Eval.machineOf_onMachine]
  exact Heap.KeepsNames.ofNewScope hinside

theorem keepsAll_inNewCall (frame : Option Frame) (bindings : Dict Binding) (closure : ScopeRef)
    {x : Eval α} (hx : KeepsOthers x) : KeepsAll (Eval.inNewCall frame bindings closure x) := by
  intro m
  have hinside := hx.2 (m.enterCall frame bindings closure)
  unfold Eval.final at hinside ⊢
  rw [Eval.inNewCall_apply, Eval.machineOf_onMachine]
  exact Heap.KeepsNames.ofNewScope hinside

end Steps

/-- Keeping all names as a relation on expressions, which looks at the left computation only. -/
def keepingAll : ExprRelation where
  rel x _ := KeepsAll x
  pure _ := keepsAll_of_scopes fun _ => rfl
  bind hx hf := keepsAll_bind hx hf
  ask hf m := hf m.heap m.environment m.frame? m.callDepth m
  fail _ _ _ := keepsAll_of_scopes fun _ => rfl
  getMember := keepsAll_getMember
  newArray _ := keepsAll_of_scopes fun _ => rfl
  newInstance _ := keepsAll_of_scopes fun _ => rfl
  assign := keepsAll_assign
  setField target name := keepsAll_setMember target (.name name)

/-- Keeping the names of other scopes as a relation, which looks at the left computation only. -/
def keepingOthers : EvalRelation where
  rel x _ := KeepsOthers x
  fits _ := True
  fits_mono _ _ := trivial
  pure a := (keepingAll.pure a).others (relation.pure a)
  bind hx hf := keepsOthers_bind hx hf
  ask hf := ⟨fun m => (hf m.heap m.environment m.frame? m.callDepth).1 m,
    fun m => (hf m.heap m.environment m.frame? m.callDepth).2 m⟩
  fail cause pos h := KeepsAll.others (keepingAll.fail cause pos h) (relation.fail cause pos h)
  getMember target key pos :=
    (keepsAll_getMember target key pos).others (relation.getMember target key pos)
  newArray elements := (keepingAll.newArray elements).others (restores_alloc _)
  newInstance c := (keepingAll.newInstance c).others (restores_alloc _)
  newFunction _ _ _ := KeepsAll.others (keepsAll_of_scopes fun _ => rfl) (restores_alloc _)
  declareClass name superclass methods closure _ := KeepsAll.others
    (keepsAll_of_scopes fun m => m.heap.scopes_declareClass name superclass methods closure)
    (restores_alloc _)
  declare := keepsOthers_declare
  assign name value pos := (keepsAll_assign name value pos).others (relation.assign name value pos)
  setField target name value pos := (keepsAll_setMember target (.name name) value pos).others
    (restores_setMember target (.name name) value pos)
  noteExports names :=
    KeepsAll.others (keepsAll_of_scopes fun _ => rfl) (relation.noteExports names)
  inNewScope bindings parent _ y hx := (keepsAll_inNewScope bindings parent hx).others
    (relation.inNewScope bindings parent (y := y) hx.1)

/-! ## Calls and imports -/

section Runners

variable {run : Runner} (hs : ∀ s, KeepsOthers (run.execute s))
include hs

theorem keepsAll_callRoutine (routine : Routine) (closure : ScopeRef) (arguments : List Value)
    (frame : Option Frame) (pos : Position) :
    KeepsAll (run.callRoutine routine closure arguments frame pos) := by
  have hbody : KeepsOthers (run.executeAll routine.body) :=
    EvalRelation.executeAll (R := keepingOthers) run run routine.body fun s _ => hs s
  have hactive : KeepsAll (run.activate routine closure arguments frame) := by
    rw [Runner.activate_eq]
    refine keepsAll_bind (keepsAll_inNewCall frame _ closure hbody) fun completion => ?_
    cases completion <;> exact keepingAll.pure _
  intro m
  have hm := hactive m
  unfold Eval.final at hm ⊢
  rw [Runner.callRoutine_eq]
  by_cases hdeep : m.limits.maxCallDepth ≤ m.callDepth
  · rw [if_pos hdeep]
    exact Heap.keepsNames_of_scopes rfl
  · rw [if_neg hdeep]
    exact hm

theorem keepsAll_loadModule (specifier : String) (pos : Position) :
    KeepsAll (run.loadModule specifier pos) := by
  have hprogram : ∀ program : Program, KeepsOthers (run.runModule program) := by
    intro program
    rw [Runner.runModule_eq]
    exact keepsOthers_bind
      (EvalRelation.executeProgram (R := keepingOthers) run run _ fun s _ => hs s)
      fun _ => keepsAll_collectExports.others restores_collectExports
  intro m
  unfold Eval.final
  rcases Runner.loadModule_cases specifier pos m.modules m.moduleId with
    ⟨cause, hfail⟩ | ⟨exports, hdone⟩ | ⟨id, _, program, _, _, _, hrun⟩
  · rw [hfail run m rfl rfl]
    exact Heap.keepsNames_of_scopes rfl
  · rw [hdone run m rfl rfl]
    exact Heap.keepsNames_of_scopes rfl
  · -- the module runs in a new outermost scope, on the heap of the importer
    have hinside := (hprogram program).2 (m.startModule id)
    have hkept : m.heap.KeepsNames (fun _ => True)
        ((run.runModule program).final (m.startModule id)).heap :=
      Heap.KeepsNames.ofNewScope hinside
    unfold Eval.final at hkept
    rw [hrun run m rfl rfl, Runner.importProgram_eq]
    cases hresult : run.runModule program (m.startModule id) with
    | ok exports ended =>
        rw [hresult] at hkept
        exact hkept
    | error halt ended =>
        rw [hresult] at hkept
        exact hkept

theorem respectsParts (he : ∀ e, KeepsAll (run.evaluate e)) (d : Nat) :
    keepingAll.RespectsParts d run run where
  evaluate e _ := he e
  callValue := ExprRelation.callValue run run (keepsAll_callRoutine hs)
  callMethod := ExprRelation.callMethod run run (keepsAll_callRoutine hs)

theorem respects (he : ∀ e, KeepsAll (run.evaluate e)) (hrestores : ∀ e, Restores (run.evaluate e))
    (d : Nat) : keepingOthers.Respects d run run where
  evaluate e _ := (he e).others (hrestores e)
  execute s _ := hs s
  callValue callee arguments pos :=
    ((respectsParts hs he d).callValue callee arguments pos).others
      (restores_callValue (fun s => (hs s).1) callee arguments pos)
  callMethod receiver method home arguments pos :=
    ((respectsParts hs he d).callMethod receiver method home arguments pos).others
      (restores_callMethod (fun s => (hs s).1) receiver method home arguments pos)
  loop condition body pos _ _ := by
    have hlimit : KeepsOthers fun m =>
        (Eval.fail (.loopLimit m.limits.maxIterations) pos : Eval Completion) m :=
      KeepsAll.others (keepsAll_of_scopes fun _ => rfl) fun m => .refl m
    have hloop : ∀ n, KeepsOthers (run.loop condition body pos n) := fun n =>
      EvalRelation.loop (R := keepingOthers) run run n hlimit
        ((he condition).others (hrestores condition)) (hs body)
    exact ⟨fun m => (hloop m.limits.maxIterations).1 m, fun m => (hloop m.limits.maxIterations).2 m⟩
  print _ := KeepsAll.others (keepsAll_of_scopes fun _ => rfl)
    fun _ => ⟨rfl, rfl, rfl, rfl, rfl, rfl, rfl⟩
  loadModule specifier pos := (keepsAll_loadModule hs specifier pos).others
    (restores_loadModule (fun s => (hs s).1) specifier pos)

end Runners

/-! ## Whole runs -/

theorem keeps_within (n : Nat) :
    (∀ e, KeepsAll (evaluate n e)) ∧ (∀ s, KeepsOthers (execute n s)) := by
  induction n with
  | zero =>
      exact ⟨fun _ => keepsAll_of_scopes fun _ => rfl,
        fun _ => KeepsAll.others (keepsAll_of_scopes fun _ => rfl) fun m => .refl m⟩
  | succ n ih =>
      have hrun : ∀ d, keepingOthers.Respects d (Runner.within n) (Runner.within n) :=
        respects ih.2 ih.1 (restores_within n).1
      have hparts : ∀ d, keepingAll.RespectsParts d (Runner.within n) (Runner.within n) :=
        respectsParts ih.2 ih.1
      refine ⟨fun e => ?_, fun s => EvalRelation.statement trivial (hrun s.depth)⟩
      exact ExprRelation.expression_of_setMember (hparts e.depth) fun o k v pos =>
        keepsAll_setMember o (.computed k) v pos

theorem keepsAll_block (n : Nat) (statements : List Statement) (pos : Position) :
    KeepsAll (execute n (.block statements pos)) := by
  cases n with
  | zero => exact keepsAll_of_scopes fun _ => rfl
  | succ n =>
      have hall : KeepsOthers ((Runner.within n).executeAll statements) :=
        EvalRelation.executeAll (R := keepingOthers) _ (Runner.within n) statements fun s _ =>
          (keeps_within n).2 s
      exact fun m => keepsAll_inNewScope .empty m.environment hall m

end Declarations

open Declarations in
/-- **Declarations never escape their scope.** Evaluating an expression, executing a block and
calling a function, a method or a constructor leave the names of all scopes that are there as they
are, and which of them are constants; a statement does so for all scopes but the one in which it is
executed. It makes no difference whether the computation succeeds or fails. -/
theorem declarations_stay_in_scope (n : Nat) (m : Machine) :
    (∀ e, m.heap.KeepsNames (fun _ => True) ((evaluate n e).final m).heap) ∧
    (∀ statements pos,
      m.heap.KeepsNames (fun _ => True) ((execute n (.block statements pos)).final m).heap) ∧
    (∀ callee arguments pos, m.heap.KeepsNames (fun _ => True)
      (((Runner.within n).callValue callee arguments pos).final m).heap) ∧
    (∀ receiver method home arguments pos, m.heap.KeepsNames (fun _ => True)
      (((Runner.within n).callMethod receiver method home arguments pos).final m).heap) ∧
    (∀ receiver c arguments pos, m.heap.KeepsNames (fun _ => True)
      (((Runner.within n).construct receiver c arguments pos).final m).heap) ∧
    (∀ s, m.heap.KeepsNames (· ≠ m.environment) ((execute n s).final m).heap) := by
  obtain ⟨he, hs⟩ := keeps_within n
  have hparts : keepingAll.RespectsParts 0 (Runner.within n) (Runner.within n) :=
    respectsParts hs he 0
  refine ⟨fun e => he e m, fun statements pos => keepsAll_block n statements pos m,
    fun callee arguments pos => hparts.callValue callee arguments pos m,
    fun receiver method home arguments pos =>
      hparts.callMethod receiver method home arguments pos m,
    fun receiver c arguments pos => hparts.construct receiver c arguments pos m,
    fun s => (hs s).2 m⟩

end Lipi
