import Lipi.Proofs.Machine.Relation

set_option autoImplicit false

/-! # What every run restores

A run changes scope and active calls all the time, and an import runs a whole program on a machine
of its own. **Afterwards the machine stands where it stood**: in the same scope, with the same
active calls, globals, limits and identity, and with the same modules being loaded, whether the run
gave a result, returned or failed at whatever depth (`run_restores`).

The reason is local. The three constructs that change one of these parts of the machine, namely
blocks, calls and imports, put it back on both ways out; nothing else touches them.
-/

namespace Lipi

/-- The machine of a result. -/
def Eval.machineOf {α : Type} : EStateM.Result Halt Machine α → Machine
  | .ok _ m => m
  | .error _ m => m

theorem Eval.machineOf_onMachine {α : Type} (change : Machine → Machine)
    (r : EStateM.Result Halt Machine α) :
    Eval.machineOf (Eval.onMachine change r) = change (Eval.machineOf r) := by
  cases r <;> rfl

/-- The machine at which a computation ends, well or not. -/
def Eval.final {α : Type} (x : Eval α) (m : Machine) : Machine :=
  Eval.machineOf (x m)

/-- A sequence goes on where its first part ends, or halts there. -/
theorem Eval.final_bind {α β : Type} (x : Eval α) (f : α → Eval β) (m : Machine) :
    (∃ a, (x >>= f).final m = (f a).final (x.final m)) ∨ (x >>= f).final m = x.final m := by
  unfold final
  cases hxm : x m with
  | ok a m' => exact Or.inl ⟨a, by rw [bind_ok f hxm]; rfl⟩
  | error halt m' => exact Or.inr (by rw [bind_error f hxm]; rfl)

theorem Eval.final_inScope {α : Type} (scope : ScopeRef) (x : Eval α) (m : Machine) :
    (inScope scope x).final m =
      { x.final { m with environment := scope } with environment := m.environment } := by
  rw [final, inScope_apply, machineOf_onMachine]
  rfl

theorem Eval.final_inCall {α : Type} (frame : Option Frame) (x : Eval α) (m : Machine) :
    (inCall frame x).final m =
      let m' := x.final { m with frames := frame :: m.frames }
      { m' with frames := m'.frames.tail } := by
  rw [final, inCall_apply, machineOf_onMachine]
  rfl

/-- The heap after a step is related to the one before it if every heap is that is made of what the
step finds. -/
theorem Eval.heap_search {α β : Type} {R : Heap → Heap → Prop} {pos : Option Position}
    {find : Machine → Except RuntimeError.Cause β} {make : β → Heap → α × Heap} {m : Machine}
    (hsame : R m.heap m.heap) (hmake : ∀ b, find m = .ok b → R m.heap (make b m.heap).2) :
    R m.heap ((search pos find make).final m).heap := by
  unfold final
  rcases search_cases pos find make m with ⟨b, hfind, h⟩ | ⟨cause, _, h⟩
  · rw [h]
    exact hmake b hfind
  · rw [h]
    exact hsame

theorem Eval.heap_setMember {R : Heap → Heap → Prop} {value : Value} {m : Machine}
    (hsame : R m.heap m.heap) (hwrite : ∀ place : MemberPlace, R m.heap (place.write value m.heap))
    (target : Value) (key : Key) (pos : Position) :
    R m.heap ((setMember target key value pos).final m).heap := by
  unfold final
  cases hconflict : Machine.conflicts m.heap target key with
  | true =>
      rw [setMember_conflict hconflict]
      exact hsame
  | false =>
      rw [setMember_free hconflict, update_eq_search]
      exact heap_search hsame fun place _ => hwrite place

/-- A machine stands where another one stood; heap, output, exports and finished modules may have
changed. -/
structure Machine.Restored (m m' : Machine) : Prop where
  environment : m'.environment = m.environment
  frames : m'.frames = m.frames
  globals : m'.globals = m.globals
  limits : m'.limits = m.limits
  moduleId : m'.moduleId = m.moduleId
  loading : m'.modules.loading = m.modules.loading
  loader : m'.modules.loader = m.modules.loader

namespace Machine.Restored

theorem refl (m : Machine) : m.Restored m :=
  ⟨rfl, rfl, rfl, rfl, rfl, rfl, rfl⟩

theorem trans {a b c : Machine} (hab : a.Restored b) (hbc : b.Restored c) : a.Restored c where
  environment := hbc.environment.trans hab.environment
  frames := hbc.frames.trans hab.frames
  globals := hbc.globals.trans hab.globals
  limits := hbc.limits.trans hab.limits
  moduleId := hbc.moduleId.trans hab.moduleId
  loading := hbc.loading.trans hab.loading
  loader := hbc.loader.trans hab.loader

/-- Leaving a scope restores the one outside it. -/
theorem leaveScope {m m' : Machine} {scope : ScopeRef}
    (h : Restored { m with environment := scope } m') :
    m.Restored { m' with environment := m.environment } :=
  ⟨rfl, h.frames, h.globals, h.limits, h.moduleId, h.loading, h.loader⟩

/-- Leaving a call restores the calls around it. -/
theorem leaveCall {m m' : Machine} {frame : Option Frame}
    (h : Restored { m with frames := frame :: m.frames } m') :
    m.Restored { m' with frames := m'.frames.tail } :=
  ⟨h.environment, by rw [h.frames]; rfl, h.globals, h.limits, h.moduleId, h.loading, h.loader⟩

/-- A module that has ended is no longer being loaded. That it was not being loaded before is what
`Runner.loadModule` tests; otherwise the mark of the outer load would be lost. -/
theorem leaveModule {m m' : Machine} {id : ModuleId} (hid : m.modules.isLoading id = false)
    (h : Restored (m.startModule id) m') : m.Restored (m.resume m' id) where
  environment := rfl
  frames := rfl
  globals := rfl
  limits := rfl
  moduleId := rfl
  loading := by
    have hload : m'.modules.loading = m.modules.loading ++ [id] := h.loading
    have hkeep : m.modules.loading.filter (· != id) = m.modules.loading := by
      refine List.filter_eq_self.mpr fun other hother => ?_
      have hmem : id ∉ m.modules.loading := by simpa [Modules.isLoading] using hid
      exact bne_iff_ne.mpr fun heq => hmem (heq ▸ hother)
    show m'.modules.loading.filter (· != id) = m.modules.loading
    rw [hload, List.filter_append, hkeep]
    simp
  loader := h.loader

end Machine.Restored

namespace Restoration

/-- A computation restores the machine from wherever it starts. -/
def Restores {α : Type} (x : Eval α) : Prop :=
  ∀ m : Machine, m.Restored (x.final m)

/-- A result is given at a restored machine. -/
theorem Restores.of_ok {α : Type} {x : Eval α} (hx : Restores x) {m m' : Machine} {a : α}
    (hm : x m = .ok a m') : m.Restored m' := by
  have hfinal := hx m
  unfold Eval.final at hfinal
  rwa [hm] at hfinal

theorem restores_bind {α β : Type} {x : Eval α} {f : α → Eval β} (hx : Restores x)
    (hf : ∀ a, Restores (f a)) : Restores (x >>= f) := by
  intro m
  rcases Eval.final_bind x f m with ⟨a, h⟩ | h
  · rw [h]
    exact (hx m).trans (hf a _)
  · rw [h]
    exact hx m

/-- An elementary step changes the heap at most. -/
theorem Restores.of_elementary {α : Type} {x : Eval α} (hx : x.Elementary) : Restores x := by
  intro m
  have hends := hx m
  unfold Eval.final
  generalize x m = r at hends
  cases hends with
  | gives a heap => exact ⟨rfl, rfl, rfl, rfl, rfl, rfl, rfl⟩
  | fails e => exact .refl m

theorem restores_alloc {α : Type} (make : Heap → α × Heap) : Restores (Eval.alloc make) :=
  .of_elementary (Eval.elementary_alloc make)

theorem restores_setMember (target : Value) (key : Key) (value : Value) (pos : Position) :
    Restores (Eval.setMember target key value pos) := by
  intro m
  unfold Eval.final
  cases hconflict : Machine.conflicts m.heap target key with
  | true =>
      rw [Eval.setMember_conflict hconflict]
      exact .refl m
  | false =>
      rw [Eval.setMember_free hconflict]
      exact Restores.of_elementary (Eval.elementary_update pos _ _) m

theorem restores_collectExports : Restores Eval.collectExports :=
  .of_elementary Eval.elementary_collectExports

theorem restores_inScope {α : Type} (scope : ScopeRef) {x : Eval α} (hx : Restores x) :
    Restores (Eval.inScope scope x) := by
  intro m
  rw [Eval.final_inScope]
  exact (hx { m with environment := scope }).leaveScope

theorem restores_inCall {α : Type} (frame : Option Frame) {x : Eval α} (hx : Restores x) :
    Restores (Eval.inCall frame x) := by
  intro m
  rw [Eval.final_inCall]
  exact (hx { m with frames := frame :: m.frames }).leaveCall

theorem restores_inNewCall {α : Type} {frame : Option Frame} {bindings : Dict Binding}
    {closure : ScopeRef} {x : Eval α} (hx : Restores x) :
    Restores (Eval.inNewCall frame bindings closure x) :=
  restores_bind (restores_alloc _) fun scope => restores_inCall frame (restores_inScope scope hx)

/-- Restoring as a relation, which looks at the left computation only. -/
def relation : EvalRelation where
  rel x _ := Restores x
  fits _ := True
  fits_mono _ _ := trivial
  pure _ m := .refl m
  bind hx hf := restores_bind hx hf
  ask hf m := hf m.heap m.environment m.frame? m.callDepth m
  fail _ _ _ m := .refl m
  getMember target key pos := .of_elementary (Eval.elementary_getMember target key pos)
  newArray _ := restores_alloc _
  newInstance _ := restores_alloc _
  newFunction _ _ _ := restores_alloc _
  declareClass _ _ _ _ _ := restores_alloc _
  declare name value constant pos :=
    .of_elementary (Eval.elementary_declare name value constant pos)
  assign name value pos := .of_elementary (Eval.elementary_assign name value pos)
  setField target _ value pos := restores_setMember target _ value pos
  noteExports _ _ := ⟨rfl, rfl, rfl, rfl, rfl, rfl, rfl⟩
  inNewScope _ _ _ _ hx :=
    restores_bind (restores_alloc _) fun scope => restores_inScope scope hx

/-! ## Calls and imports -/

section Runners

variable {run : Runner}

theorem restores_callRoutine (hs : ∀ s, Restores (run.execute s)) (routine : Routine)
    (closure : ScopeRef) (arguments : List Value) (frame : Option Frame) (pos : Position) :
    Restores (run.callRoutine routine closure arguments frame pos) := by
  intro m
  have hbody : Restores (run.activate routine closure arguments frame) :=
    EvalRelation.activate (R := relation) run run (fun _ _ _ hx => restores_inNewCall hx) fun s _ => hs s
  have hm := hbody m
  unfold Eval.final at hm ⊢
  rw [Runner.callRoutine_eq]
  -- a call beyond the limit fails where it stands; another one ends in its own frame
  by_cases hdeep : m.limits.maxCallDepth ≤ m.callDepth
  · rw [if_pos hdeep]
    exact .refl m
  · rw [if_neg hdeep]
    exact hm

theorem restores_callMethod (hs : ∀ s, Restores (run.execute s)) (receiver : Option InstanceRef)
    (method : MethodRef) (home : ClassRef) (arguments : List Value) (pos : Position) :
    Restores (run.callMethod receiver method home arguments pos) :=
  ExprRelation.callMethod (R := relation.toExprRelation) run run (restores_callRoutine hs) receiver method home
    arguments pos

theorem restores_callValue (hs : ∀ s, Restores (run.execute s)) (callee : Value)
    (arguments : List Value) (pos : Position) : Restores (run.callValue callee arguments pos) :=
  ExprRelation.callValue (R := relation.toExprRelation) run run (restores_callRoutine hs) callee
    arguments pos

theorem restores_runModule (hs : ∀ s, Restores (run.execute s)) (program : Program) :
    Restores (run.runModule program) := by
  rw [Runner.runModule_eq]
  exact restores_bind (EvalRelation.executeProgram (R := relation) run run _ fun s _ => hs s)
    fun _ => restores_collectExports

/-- The import of a module that is not being loaded restores the machine. -/
theorem importProgram_restored (hs : ∀ s, Restores (run.execute s)) (specifier : String)
    {id : ModuleId} (program : Program) (pos : Position) {m : Machine}
    (hid : m.modules.isLoading id = false) :
    m.Restored ((run.importProgram specifier id program pos).final m) := by
  have hended := restores_runModule hs program (m.startModule id)
  unfold Eval.final at hended ⊢
  unfold Runner.importProgram
  -- whether the module ends well or not, it is taken off the modules that are loading
  cases hr : run.runModule program (m.startModule id) with
  | ok exports ended =>
      rw [hr] at hended
      have hleft := Machine.Restored.leaveModule hid hended
      exact hleft.trans ⟨rfl, rfl, rfl, rfl, rfl, rfl, rfl⟩
  | error halt ended =>
      rw [hr] at hended
      have hleft := Machine.Restored.leaveModule hid hended
      cases halt <;> exact hleft

theorem restores_loadModule (hs : ∀ s, Restores (run.execute s)) (specifier : String)
    (pos : Position) : Restores (run.loadModule specifier pos) := by
  intro m
  unfold Eval.final
  rcases Runner.loadModule_cases specifier pos m.modules m.moduleId with
    ⟨cause, hfail⟩ | ⟨exports, hdone⟩ | ⟨id, _, program, hid, _, _, hrun⟩
  · rw [hfail run m rfl rfl]
    exact .refl m
  · rw [hdone run m rfl rfl]
    exact .refl m
  · rw [hrun run m rfl rfl]
    exact importProgram_restored hs specifier program pos hid

end Runners

/-! ## Whole runs -/

/-- What holds of a runner's trees holds of everything that is made of them. -/
theorem respects (run : Runner) (he : ∀ e, Restores (run.evaluate e))
    (hs : ∀ s, Restores (run.execute s)) (d : Nat) : relation.Respects d run run where
  evaluate e _ := he e
  execute s _ := hs s
  callValue := restores_callValue hs
  callMethod := restores_callMethod hs
  loop condition body _ _ _ m :=
    EvalRelation.loop (R := relation) run run m.limits.maxIterations
      (fun m => .refl m) (he condition) (hs body) m
  print _ _ := ⟨rfl, rfl, rfl, rfl, rfl, rfl, rfl⟩
  loadModule specifier pos := restores_loadModule hs specifier pos

theorem restores_within (n : Nat) :
    (∀ e, Restores (evaluate n e)) ∧ (∀ s, Restores (execute n s)) := by
  induction n with
  | zero => exact ⟨fun _ m => .refl m, fun _ m => .refl m⟩
  | succ n ih =>
      have hrun := respects ⟨evaluate n, execute n⟩ ih.1 ih.2
      exact ⟨fun e => ExprRelation.expression_of_setMember (hrun e.depth).toRespectsParts
          fun o k v pos => restores_setMember o (.computed k) v pos,
        fun s => EvalRelation.statement trivial (hrun s.depth)⟩

end Restoration

/-- **A run leaves the machine where it found it.** An expression, a statement, a call or an import
ends, well or not, in the scope and with the active calls, globals, limits, identity and loading
modules with which it started. -/
theorem run_restores (n : Nat) (m : Machine) :
    (∀ e, m.Restored ((evaluate n e).final m)) ∧
    (∀ s, m.Restored ((execute n s).final m)) ∧
    (∀ callee arguments pos,
      m.Restored (((Runner.within n).callValue callee arguments pos).final m)) ∧
    (∀ names specifier pos,
      m.Restored (((Runner.within n).importNames names specifier pos).final m)) := by
  obtain ⟨he, hs⟩ := Restoration.restores_within n
  have hrun := Restoration.respects (Runner.within n) he hs
  refine ⟨fun e => he e m, fun s => hs s m, fun callee arguments pos => ?_,
    fun names specifier pos => ?_⟩
  · exact (hrun 0).callValue callee arguments pos m
  · exact (hrun 0).importNames names specifier pos m

end Lipi
