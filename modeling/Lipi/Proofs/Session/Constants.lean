import Lipi.Module.Memory
import Lipi.Proofs.Session.Inspecting

set_option autoImplicit false

/-! # Constants

**A name that a scope binds as a constant stays bound to its value** in all later machines of a run,
whatever calls, closures, classes, modules and failing statements come after (`Grows.constants`), and
every attempt to bind it again is refused and changes nothing that is bound anywhere.
-/

namespace Lipi

open scoped Classical in
/-- Inspects that a scope that has once bound a name as a constant to a value does so still. -/
noncomputable def Inspection.constant (s : ScopeRef) (name : String) (v : Value) : Inspection where
  note m _ := if m.heap.bindingAt? s name = some ⟨v, true⟩ then some name else none
  asks journal m _ := name ∈ journal → m.heap.bindingAt? s name = some ⟨v, true⟩

theorem Inspection.sound_constant {limits : Limits} (s : ScopeRef) (name : String) (v : Value) :
    (constant s name v).Sound limits := by
  intro past m sight _ _ _ _ hpast hnoted
  obtain ⟨⟨earlier, seen⟩, hmem, hnote⟩ := List.mem_filterMap.mp hnoted
  by_cases hbound : earlier.heap.bindingAt? s name = some ⟨v, true⟩
  · exact (hpast _ hmem).grows.constants s name v hbound
  · rw [show (constant s name v).note earlier seen = none from if_neg hbound] at hnote
    cases hnote

/-! ## Attempts to bind a constant -/

/-- An attempt has been refused at this machine. -/
def Eval.refused {α : Type} (name : String) (p : Position) (m : Machine) :
    EStateM.Result Halt Machine α :=
  .error (.failed ⟨.constantReassignment name, some p⟩) m

/-- An attempt has been refused at a machine on which all scopes are as they are here. -/
def Machine.Refuses {α : Type} (m : Machine) (name : String) (p : Position)
    (r : EStateM.Result Halt Machine α) : Prop :=
  ∃ m', r = Eval.refused name p m' ∧ m'.heap.scopes = m.heap.scopes

/-- Every way to bind a name in a scope is refused at a machine, whatever runs the expressions and
statements inside it. -/
structure Machine.Protects (m : Machine) (s : ScopeRef) (name : String) : Prop where
  /-- A declaration in the scope, once its value has been found. -/
  declaration : m.environment = s → ∀ (run : Runner) (constant : Bool) (e : Expr) (w : Value)
    (p : Position) (before : Machine), run.evaluate e before = .ok w m →
    run.statement (.binding constant name e p) before = Eval.refused name p m
  /-- A declaration of a function in the scope. -/
  function : m.environment = s → ∀ (run : Runner) (parameters : List String)
    (body : List Statement) (p : Position),
    m.Refuses name p (run.statement (.function name parameters body p) m)
  /-- A declaration of a class in the scope, once its superclass has been found. -/
  classDecl : m.environment = s → ∀ (run : Runner) (superclass : Option String)
    (c : Option ClassRef) (methods : List Method) (p : Position),
    Eval.superclassNamed superclass p m = .ok c m →
    m.Refuses name p (run.statement (.classDecl name superclass methods p) m)
  /-- An import into the scope, once the module has been loaded. -/
  importName : m.environment = s → ∀ (specifier : String) (exports : Exports) (w : Value)
    (names : List String) (p : Position), exports.get? name = some w →
    Eval.bindImports specifier exports p (name :: names) m = Eval.refused name p m
  /-- An assignment from where the name stands for the constant, once its value has been found. -/
  assignment : m.heap.binder? m.environment name = some s → ∀ (run : Runner) (e : Expr) (w : Value)
    (namePos p : Position) (before : Machine), run.evaluate e before = .ok w m →
    run.assign (.identifier name namePos) e p before = Eval.refused name namePos m

section Refusal

variable {m : Machine} {s : ScopeRef} {name : String} {v : Value}

theorem Eval.declare_refused (hconstant : m.heap.isConstantAt m.environment name = true)
    (w : Value) (constant : Bool) (p : Position) :
    Eval.declare name w constant p m = Eval.refused name p m := by
  rw [Eval.declare_eq]
  unfold Eval.update Heap.defineTarget
  dsimp only
  rw [if_pos hconstant]
  rfl

theorem Eval.assign_refused (hbinder : m.heap.binder? m.environment name = some s)
    (hconstant : m.heap.isConstantAt s name = true) (w : Value) (p : Position) :
    Eval.assign name w p m = Eval.refused name p m := by
  rw [Eval.assign_eq]
  unfold Eval.update Heap.assignTarget
  dsimp only
  rw [hbinder]
  dsimp only
  rw [if_pos hconstant]
  rfl

/-- An object is made, which changes no scope, and cannot be bound to the name. -/
theorem Eval.declare_made_refused {α : Type} (make : Heap → α × Heap)
    (hscopes : (make m.heap).2.scopes = m.heap.scopes)
    (hconstant : m.heap.isConstantAt m.environment name = true) (value : α → Value)
    (constant : Bool) (p : Position) :
    (Eval.alloc make >>= fun a => Eval.declare name (value a) constant p) m =
      Eval.refused name p { m with heap := (make m.heap).2 } := by
  have hconstant' : (make m.heap).2.isConstantAt m.environment name = true := by
    unfold Heap.isConstantAt Heap.bindingAt? Heap.scope? at hconstant ⊢
    rw [hscopes]
    exact hconstant
  exact Eval.declare_refused (m := { m with heap := (make m.heap).2 }) hconstant' _ constant p

/-- **A constant is protected.** -/
theorem Machine.protects (hbound : m.heap.bindingAt? s name = some ⟨v, true⟩) :
    m.Protects s name := by
  have hconstant : m.heap.isConstantAt s name = true := by
    unfold Heap.isConstantAt
    rw [hbound]
    rfl
  refine ⟨?_, ?_, ?_, ?_, ?_⟩
  -- a variable or a constant is refused once its value has been found
  · intro hscope run constant e w p before he
    rw [← hscope] at hconstant
    have hrefused := Eval.declare_refused hconstant w constant p
    show (run.evaluate e >>= fun w => Eval.declare name w constant p >>= fun _ =>
      pure Completion.normal) before = _
    rw [Eval.bind_ok _ he, Eval.bind_error _ hrefused]
    rfl
  -- a function or a class is made before its name is refused, and no scope shows it
  · intro hscope run parameters body p
    rw [← hscope] at hconstant
    have hrefused := Eval.declare_made_refused
      (·.newFunction ⟨⟨name, parameters, body⟩, m.environment⟩) rfl hconstant .function false p
    refine ⟨{ m with heap := (m.heap.newFunction
      ⟨⟨name, parameters, body⟩, m.environment⟩).2 }, ?_, rfl⟩
    show ((Eval.alloc (·.newFunction ⟨⟨name, parameters, body⟩, m.environment⟩) >>= fun f =>
      Eval.declare name (.function f) false p) >>= fun _ => pure Completion.normal) m = _
    rw [Eval.bind_error _ hrefused]
    rfl
  · intro hscope run superclass c methods p hsuper
    rw [← hscope] at hconstant
    have hscopes := m.heap.scopes_declareClass name c methods m.environment
    have hrefused := Eval.declare_made_refused
      (·.declareClass name c methods m.environment) hscopes hconstant .ofClass true p
    have hdeclare : Eval.declareClass name superclass methods p m =
        Eval.refused name p { m with heap := (m.heap.declareClass name c methods m.environment).2 } := by
      unfold Eval.declareClass
      rw [Eval.bind_ok _ hsuper]
      exact hrefused
    refine ⟨{ m with heap := (m.heap.declareClass name c methods m.environment).2 }, ?_, hscopes⟩
    show (Eval.declareClass name superclass methods p >>= fun _ => pure Completion.normal) m = _
    rw [Eval.bind_error _ hdeclare]
    rfl
  -- a name that is imported
  · intro hscope specifier exports w names p hget
    rw [← hscope] at hconstant
    have hrefused := Eval.declare_refused hconstant w true p
    rw [Eval.bindImports, hget]
    dsimp only
    rw [Eval.bind_error _ hrefused]
    rfl
  -- an assignment, wherever the name is bound
  · intro hbinder run e w namePos p before he
    have hrefused := Eval.assign_refused hbinder hconstant w namePos
    show (run.evaluate e >>= fun w => Eval.assign name w namePos >>= fun _ => pure w) before = _
    rw [Eval.bind_ok _ he, Eval.bind_error _ hrefused]
    rfl

end Refusal

namespace Session

/-- **Constants never change.** -/
theorem constants_stay (session : Session) (programs : List Program) :
    (∀ s name v, session.Throughout programs (.constant s name v)) ∧
    ∀ (m : Machine) (s : ScopeRef) (name : String) (v : Value),
      m.heap.bindingAt? s name = some ⟨v, true⟩ → m.Protects s name :=
  ⟨fun s name v => session.throughout_of_sound programs (Inspection.sound_constant s name v),
    fun _ _ _ _ hbound => Machine.protects hbound⟩

/-- A global constant is protected. -/
theorem constants_stay_global :
    let session : Session := ⟨.standard, MemoryModules.empty.loader, none⟩
    let m := { session.machine with
      heap := session.machine.heap.setBinding ⟨0⟩ "x" ⟨.null, true⟩ }
    m.heap.bindingAt? ⟨0⟩ "x" = some ⟨.null, true⟩ ∧ m.Protects ⟨0⟩ "x" :=
  ⟨rfl, (constants_stay ⟨.standard, MemoryModules.empty.loader, none⟩ []).2 _ _ _ .null rfl⟩

end Session

end Lipi
