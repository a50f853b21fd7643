import Lipi.Machine.Run

set_option autoImplicit false

/-! # The parts of a run

The computations of a run, cut where a proof cuts them. A step that runs nothing else is **a search,
and then a value and a heap made of what has been found** (`Eval.search`); so it changes the heap at
most, or fails where it stands (`Eval.Elementary`). A step that looks at the heap and goes on is its
continuation, applied to what it finds; a call is **the body of a routine, in an active call
and a new scope**; an import looks for a module, reads its program, runs it on a machine of its own
and makes something of the result. Each computation equals the composition of its parts.
-/

namespace Lipi

/-! ## Sequences -/

section Sequences

variable {α β : Type} {x : Eval α} {m m' : Machine}

theorem Eval.bind_ok {a : α} (f : α → Eval β) (h : x m = .ok a m') : (x >>= f) m = f a m' := by
  show EStateM.bind x f m = f a m'
  unfold EStateM.bind
  rw [h]

theorem Eval.bind_error {halt : Halt} (f : α → Eval β) (h : x m = .error halt m') :
    (x >>= f) m = .error halt m' := by
  show EStateM.bind x f m = .error halt m'
  unfold EStateM.bind
  rw [h]

/-- What a sequence does at a machine depends on what its first part does there. -/
theorem Eval.bind_congr {y : Eval α} (f : α → Eval β) (h : x m = y m') :
    (x >>= f) m = (y >>= f) m' := by
  show EStateM.bind x f m = EStateM.bind y f m'
  unfold EStateM.bind
  rw [h]

end Sequences

/-! ## Elementary steps

A step that runs nothing else looks for something first. If it is not there the step fails where it
stands; otherwise it gives a value and changes the heap at most. -/

/-- How an elementary step ends that starts at a machine. -/
inductive Eval.EndsStep {α : Type} (m : Machine) : EStateM.Result Halt Machine α → Prop where
  | gives (a : α) (heap : Heap) : EndsStep m (.ok a { m with heap })
  | fails (e : RuntimeError) : EndsStep m (.error (.failed e) m)

/-- A computation is an elementary step. -/
def Eval.Elementary {α : Type} (x : Eval α) : Prop :=
  ∀ m : Machine, EndsStep m (x m)

namespace Eval

section Search

variable {α β : Type} (pos : Option Position) (find : Machine → Except RuntimeError.Cause β)
  (make : β → Heap → α × Heap)

/-- Looks for something on the machine, and fails if it is not there; makes a value and the next
heap of what has been found. -/
def search : Eval α :=
  fun m =>
    match find m with
    | .ok b => .ok (make b m.heap).1 { m with heap := (make b m.heap).2 }
    | .error cause => .error (.failed ⟨cause, pos⟩) m

theorem search_cases (m : Machine) :
    (∃ b, find m = .ok b ∧
      search pos find make m = .ok (make b m.heap).1 { m with heap := (make b m.heap).2 }) ∨
    ∃ cause, find m = .error cause ∧
      search pos find make m = .error (.failed ⟨cause, pos⟩) m := by
  unfold search
  cases find m with
  | ok b => exact Or.inl ⟨b, rfl, rfl⟩
  | error cause => exact Or.inr ⟨cause, rfl, rfl⟩

theorem elementary_search : (search pos find make).Elementary := by
  intro m
  rcases search_cases pos find make m with ⟨b, _, h⟩ | ⟨cause, _, h⟩
  · rw [h]
    exact .gives _ _
  · rw [h]
    exact .fails _

end Search

theorem update_eq_search {α : Type} (pos : Position) (find : Heap → Except RuntimeError.Cause α)
    (change : α → Heap → Heap) :
    update pos find change =
      search (some pos) (fun m => find m.heap) fun place h => ((), change place h) := by
  funext m
  cases hfind : find m.heap with
  | ok place => simp only [update, search, hfind]
  | error cause => simp only [update, search, hfind]

theorem declare_eq_search (name : String) (value : Value) (constant : Bool) (pos : Position) :
    declare name value constant pos =
      search (some pos) (fun m => m.heap.defineTarget m.environment name)
        fun d h => ((), h.setBinding d name ⟨value, constant⟩) := by
  funext m
  exact congrFun (update_eq_search pos (·.defineTarget m.environment name)
    fun d h => h.setBinding d name ⟨value, constant⟩) m

theorem assign_eq_search (name : String) (value : Value) (pos : Position) :
    assign name value pos =
      search (some pos) (fun m => m.heap.assignTarget m.environment name)
        fun d h => ((), h.setBinding d name ⟨value, false⟩) := by
  funext m
  exact congrFun (update_eq_search pos (·.assignTarget m.environment name)
    fun d h => h.setBinding d name ⟨value, false⟩) m

theorem getMember_eq_search (target : Value) (key : Key) (pos : Position) :
    getMember target key pos =
      search (some pos) (·.getMember target key) fun value h => (value, h) := by
  funext m
  cases hfind : m.getMember target key with
  | ok value => simp only [getMember, search, hfind]
  | error cause => simp only [getMember, search, hfind]

theorem elementary_pure {α : Type} (a : α) : (pure a : Eval α).Elementary :=
  fun m => .gives a m.heap

theorem elementary_fail {α : Type} (cause : RuntimeError.Cause) (pos : Position) :
    (fail cause pos : Eval α).Elementary :=
  fun _ => .fails _

theorem elementary_alloc {α : Type} (make : Heap → α × Heap) : (alloc make).Elementary :=
  fun m => .gives (make m.heap).1 (make m.heap).2

theorem elementary_update {α : Type} (pos : Position) (find : Heap → Except RuntimeError.Cause α)
    (change : α → Heap → Heap) : (update pos find change).Elementary := by
  rw [update_eq_search]
  exact elementary_search _ _ _

theorem elementary_declare (name : String) (value : Value) (constant : Bool) (pos : Position) :
    (declare name value constant pos).Elementary := by
  rw [declare_eq_search]
  exact elementary_search _ _ _

theorem elementary_assign (name : String) (value : Value) (pos : Position) :
    (assign name value pos).Elementary := by
  rw [assign_eq_search]
  exact elementary_search _ _ _

theorem elementary_getMember (target : Value) (key : Key) (pos : Position) :
    (getMember target key pos).Elementary := by
  rw [getMember_eq_search]
  exact elementary_search _ _ _

/-! Setting a member is elementary, except that a conflict aborts the run before anything is
changed. -/

theorem setMember_conflict {target : Value} {key : Key} {m : Machine}
    (h : Machine.conflicts m.heap target key = true) (value : Value) (pos : Position) :
    setMember target key value pos m = .error .conflict m :=
  if_pos h

theorem setMember_free {target : Value} {key : Key} {m : Machine}
    (h : Machine.conflicts m.heap target key = false) (value : Value) (pos : Position) :
    setMember target key value pos m =
      update pos (Machine.memberPlace · target key) (MemberPlace.write value) m :=
  if_neg (ne_true_of_eq_false h)

end Eval

/-! ## Steps that look at the heap

These are the parts of steps that come after looking at the heap, as functions of what is found. -/

namespace Eval

/-- Gives what there is, or fails. -/
def orFail {α : Type} (cause : RuntimeError.Cause) (pos : Position) : Option α → Eval α
  | some a => pure a
  | none => fail cause pos

/-- The superclass of the class that declares the running method. -/
def superOf (frame : Frame) (pos : Position) (h : Heap) : Eval (Frame × ClassRef) :=
  match (h.classObject frame.home).superclass with
  | some parent => pure (frame, parent)
  | none => fail (.noSuperclass (h.classObject frame.home).name) pos

/-- The table in which a running method looks for the methods of the superclass. -/
def superTable (frame : Frame) : MethodTable :=
  if frame.receiver.isSome then .ofInstances else .ofClass

/-- The method of a name of the superclass, bound to the receiver of the running method. -/
def superMethod (target : Frame × ClassRef) (name : String) (pos : Position) (h : Heap) :
    Eval Value :=
  match h.findMethod? target.2 (superTable target.1) name with
  | some (home, method) => pure (.bound target.1.receiver method home)
  | none =>
    fail (.undefinedProperty name ("<class " ++ (h.classObject target.2).name ++ ">")) pos

end Eval

/-- Runs a constructor on an instance, if there is one. -/
def Runner.constructBy (run : Runner) (receiver : Option InstanceRef) (arguments : List Value)
    (pos : Position) : Option (ClassRef × MethodRef) → Eval Unit
  | some (home, constructor) => do
    let _ ← run.callMethod receiver constructor home arguments pos
  | none => return ()

/-! ## Circular imports

Every failure comes from a step inside one module, except one. -/

/-- Whether a cause says that an import is circular. -/
def RuntimeError.Cause.isCircular : RuntimeError.Cause → Bool
  | .circularImport _ => true
  | _ => false

/-- A pure step fails, if it does, for a cause inside one module. -/
def RuntimeError.Inside {α : Type} (r : Except RuntimeError.Cause α) : Prop :=
  ∀ cause, r = .error cause → cause.isCircular = false

namespace RuntimeError

theorem inside_ok {α : Type} (a : α) : Inside (.ok a) := by
  intro cause h
  cases h

theorem inside_error {α : Type} {cause : RuntimeError.Cause} (h : cause.isCircular = false) :
    Inside (.error cause : Except RuntimeError.Cause α) := by
  intro other hother
  cases hother
  exact h

theorem inside_unary (op : UnaryOp) (v : Value) : Inside (op.apply v) := by
  unfold UnaryOp.apply
  split
  · exact inside_ok _
  · exact inside_error rfl
  · exact inside_ok _

theorem inside_arithmetic (op : BinaryOp) (x y : Float) : Inside (op.arithmetic x y) := by
  unfold BinaryOp.arithmetic
  split
  case h_4 | h_5 =>
    split
    · exact inside_error rfl
    · exact inside_ok _
  case h_6 => exact inside_error rfl
  all_goals exact inside_ok _

theorem inside_binary (h : Heap) (op : BinaryOp) (l r : Value) : Inside (op.apply h l r) := by
  have harithmetic : Inside (op.applyArithmetic h l r) := by
    unfold BinaryOp.applyArithmetic
    split
    · exact inside_ok _
    · exact inside_ok _
    · exact inside_arithmetic _ _ _
    · exact inside_error rfl
  have hcomparison : Inside (op.applyComparison l r) := by
    unfold BinaryOp.applyComparison
    split
    case h_5 => exact inside_error rfl
    all_goals exact inside_ok _
  cases op with
  | and | or => exact inside_ok _
  | add | sub | mul | div | mod => exact harithmetic
  | less | greater | lessEqual | greaterEqual | equal | notEqual => exact hcomparison

end RuntimeError

/-! ## Results

What is done with the result of a computation that runs in another scope, another call or another
module. -/

namespace Eval

/-- A result with its machine changed. -/
def onMachine {α : Type} (change : Machine → Machine) :
    EStateM.Result Halt Machine α → EStateM.Result Halt Machine α
  | .ok a m => .ok a (change m)
  | .error halt m => .error halt (change m)

/-- A computation in another scope comes back to the current one. -/
theorem inScope_apply {α : Type} (scope : ScopeRef) (action : Eval α) (m : Machine) :
    inScope scope action m =
      onMachine ({ · with environment := m.environment })
        (action { m with environment := scope }) := by
  cases haction : action { m with environment := scope } with
  | ok a m' => simp only [inScope, onMachine, haction]
  | error halt m' => simp only [inScope, onMachine, haction]

/-- A computation in an active call leaves the call. -/
theorem inCall_apply {α : Type} (frame : Option Frame) (action : Eval α) (m : Machine) :
    inCall frame action m =
      onMachine (fun m' => { m' with frames := m'.frames.tail })
        (action { m with frames := frame :: m.frames }) := by
  cases haction : action { m with frames := frame :: m.frames } with
  | ok a m' => simp only [inCall, onMachine, haction]
  | error halt m' => simp only [inCall, onMachine, haction]

/-- Why the importer of a module that has halted halts. -/
def importerHalt (specifier : String) (pos : Position) : Halt → Halt
  | .failed e => .failed (e.ofModule specifier pos)
  | halt => halt

/-- What the importer makes of the result of a module; it comes back to the machine that `leave`
makes of the one on which the module has ended. -/
def ofModule (specifier : String) (id : ModuleId) (pos : Position) (leave : Machine → Machine) :
    EStateM.Result Halt Machine Exports → EStateM.Result Halt Machine Exports
  | .ok exports ended =>
    let m := leave ended
    .ok exports { m with modules := m.modules.store id exports }
  | .error halt ended => .error (importerHalt specifier pos halt) (leave ended)

end Eval

/-! ## Calls and imports, step by step -/

/-- The machine in a new scope. -/
def Machine.enterScope (m : Machine) (bindings : Dict Binding) (parent : ScopeRef) : Machine :=
  let (environment, heap) := m.heap.newScope ⟨bindings, some parent⟩
  { m with heap, environment }

/-- Runs a computation in a new scope. -/
def Eval.inNewScope {α : Type} (bindings : Dict Binding) (parent : ScopeRef) (action : Eval α) :
    Eval α := do
  let scope ← Eval.alloc (·.newScope ⟨bindings, some parent⟩)
  Eval.inScope scope action

/-- A computation in a new scope comes back to the scope outside. -/
theorem Eval.inNewScope_apply {α : Type} (bindings : Dict Binding) (parent : ScopeRef)
    (action : Eval α) (m : Machine) :
    inNewScope bindings parent action m =
      onMachine ({ · with environment := m.environment })
        (action (m.enterScope bindings parent)) :=
  inScope_apply ⟨m.heap.scopes.size⟩ action
    { m with heap := (m.heap.newScope ⟨bindings, some parent⟩).2 }

/-- The machine inside a call and in a new scope. -/
def Machine.enterCall (m : Machine) (frame : Option Frame) (bindings : Dict Binding)
    (closure : ScopeRef) : Machine :=
  { m.enterScope bindings closure with frames := frame :: m.frames }

/-- Runs a computation in an active call and a new scope. -/
def Eval.inNewCall {α : Type} (frame : Option Frame) (bindings : Dict Binding) (closure : ScopeRef)
    (action : Eval α) : Eval α := do
  let scope ← Eval.alloc (·.newScope ⟨bindings, some closure⟩)
  Eval.inCall frame (Eval.inScope scope action)

/-- A computation inside a call comes back to the scope of the caller, with the call left. -/
theorem Eval.inNewCall_apply {α : Type} (frame : Option Frame) (bindings : Dict Binding)
    (closure : ScopeRef) (action : Eval α) (m : Machine) :
    inNewCall frame bindings closure action m =
      onMachine (fun m' => { m' with environment := m.environment, frames := m'.frames.tail })
        (action (m.enterCall frame bindings closure)) := by
  show inCall frame (inScope ⟨m.heap.scopes.size⟩ action) _ = _
  rw [inCall_apply, inScope_apply]
  show onMachine _ (onMachine _ (action (m.enterCall frame bindings closure))) = _
  cases action (m.enterCall frame bindings closure) <;> rfl

/-- What a call gives when its body has run. -/
def Eval.callResult : Completion → Eval Value
  | .returned value => pure value
  | .normal => pure .null

/-- Runs the body of a routine in an active call; what a call does below the limit on calls. -/
def Runner.activate (run : Runner) (routine : Routine) (closure : ScopeRef)
    (arguments : List Value) (frame : Option Frame) : Eval Value := do
  let bindings := Heap.parameterBindings routine.parameters arguments .empty
  let scope ← Eval.alloc (·.newScope ⟨bindings, some closure⟩)
  let completion ← Eval.inCall frame (run.executeBlock routine.body scope)
  Eval.callResult completion

theorem Runner.activate_eq (run : Runner) (routine : Routine) (closure : ScopeRef)
    (arguments : List Value) (frame : Option Frame) :
    run.activate routine closure arguments frame =
      Eval.inNewCall frame (Heap.parameterBindings routine.parameters arguments .empty) closure
        (run.executeAll routine.body) >>= Eval.callResult :=
  rfl

theorem Runner.callRoutine_eq (run : Runner) (routine : Routine) (closure : ScopeRef)
    (arguments : List Value) (frame : Option Frame) (pos : Position) (m : Machine) :
    run.callRoutine routine closure arguments frame pos m =
      if m.limits.maxCallDepth ≤ m.callDepth then
        .error (.failed ⟨.recursionLimit m.limits.maxCallDepth, some pos⟩) m
      else run.activate routine closure arguments frame m := by
  show (if m.limits.maxCallDepth ≤ m.callDepth then _ else _ : Eval Value) m = _
  split <;> rfl

/-- Gives the exports of the program that has run. -/
def Eval.collectExports : Eval Exports :=
  fun m =>
    match m.collectExports with
    | .ok exports => .ok exports m
    | .error cause => .error (.failed ⟨cause, none⟩) m

theorem Eval.collectExports_eq_search :
    collectExports = search none (·.collectExports) fun exports h => (exports, h) := by
  funext m
  cases hfind : m.collectExports with
  | ok exports => simp only [collectExports, search, hfind]
  | error cause => simp only [collectExports, search, hfind]

theorem Eval.elementary_collectExports : collectExports.Elementary := by
  rw [collectExports_eq_search]
  exact elementary_search _ _ _

theorem Runner.runModule_eq (run : Runner) (program : Program) :
    run.runModule program = run.executeProgram program.body >>= fun _ => Eval.collectExports := by
  unfold Runner.runModule
  congr 1
  funext _ m
  show (match m.collectExports with
    | .ok exports => pure exports
    | .error cause => throw (.failed ⟨cause, none⟩) : Eval Exports) m = Eval.collectExports m
  unfold Eval.collectExports
  cases m.collectExports <;> rfl

theorem Runner.importProgram_eq (run : Runner) (specifier : String) (id : ModuleId)
    (program : Program) (pos : Position) (m : Machine) :
    run.importProgram specifier id program pos m =
      Eval.ofModule specifier id pos (m.resume · id) (run.runModule program (m.startModule id)) := by
  unfold Runner.importProgram
  cases run.runModule program (m.startModule id) with
  | ok exports ended => rfl
  | error halt ended => cases halt <;> rfl

/-- Looks for a module that has been run. One that has not been run and is not being loaded is read
by `read`. -/
def Eval.findModule (specifier : String) (pos : Position) (read : ModuleId → Eval Exports) :
    Eval Exports := do
  let m ← get
  match m.modules.loader.resolve specifier m.moduleId with
  | .error e => fail (.moduleLoad specifier e.message) pos
  | .ok id =>
    match m.modules.cached? id with
    | some exports => return exports
    | none =>
      if m.modules.isLoading id then fail (.circularImport specifier) pos else read id

theorem Eval.findModule_apply (specifier : String) (pos : Position) (read : ModuleId → Eval Exports)
    (m : Machine) :
    findModule specifier pos read m =
      (match m.modules.loader.resolve specifier m.moduleId with
        | .error e => fail (.moduleLoad specifier e.message) pos
        | .ok id =>
          match m.modules.cached? id with
          | some exports => pure exports
          | none =>
            if m.modules.isLoading id then fail (.circularImport specifier) pos
            else read id : Eval Exports) m :=
  rfl

/-- Reads the program of a module and runs it by `run`. -/
def Eval.readProgram (specifier : String) (id : ModuleId) (pos : Position)
    (run : Program → Eval Exports) : Eval Exports := do
  match (← get).modules.loader.read id with
  | .error e => fail (.moduleLoad specifier e.message) pos
  | .ok text =>
    match Program.ofText text with
    | .error errors => fail (.moduleLoad specifier (CompileError.report errors)) pos
    | .ok program => run program

theorem Eval.readProgram_apply (specifier : String) (id : ModuleId) (pos : Position)
    (run : Program → Eval Exports) (m : Machine) :
    readProgram specifier id pos run m =
      (match m.modules.loader.read id with
        | .error e => fail (.moduleLoad specifier e.message) pos
        | .ok text =>
          match Program.ofText text with
          | .error errors => fail (.moduleLoad specifier (CompileError.report errors)) pos
          | .ok program => run program : Eval Exports) m :=
  rfl

theorem Runner.loadModule_eq (run : Runner) (specifier : String) (pos : Position) :
    run.loadModule specifier pos = Eval.findModule specifier pos fun id =>
      Eval.readProgram specifier id pos fun program =>
        run.importProgram specifier id program pos :=
  rfl

/-- The three ways in which the search for a module goes, whatever reads it. An import is circular
only if it names a module that is being loaded. -/
theorem Eval.findModule_cases (specifier : String) (pos : Position) (modules : Modules)
    (importer : Option ModuleId) :
    (∃ cause, (cause.isCircular = true → ∃ id, modules.loader.resolve specifier importer = .ok id ∧
        modules.isLoading id = true) ∧
      ∀ (read : ModuleId → Eval Exports) (m : Machine), m.modules = modules →
        m.moduleId = importer →
        findModule specifier pos read m = .error (.failed ⟨cause, some pos⟩) m) ∨
    (∃ exports, ∀ (read : ModuleId → Eval Exports) (m : Machine), m.modules = modules →
      m.moduleId = importer → findModule specifier pos read m = .ok exports m) ∨
    (∃ id, modules.cached? id = none ∧ modules.isLoading id = false ∧
      ∀ (read : ModuleId → Eval Exports) (m : Machine), m.modules = modules →
        m.moduleId = importer → findModule specifier pos read m = read id m) := by
  cases hresolve : modules.loader.resolve specifier importer with
  | error e =>
      refine Or.inl ⟨.moduleLoad specifier e.message, fun h => (nomatch h), fun read m hm hid => ?_⟩
      rw [findModule_apply, hm, hid, hresolve]
      rfl
  | ok id =>
      cases hcached : modules.cached? id with
      | some exports =>
          refine Or.inr (Or.inl ⟨exports, fun read m hm hid => ?_⟩)
          rw [findModule_apply, hm, hid, hresolve]
          simp only [hcached]
          rfl
      | none =>
          cases hloading : modules.isLoading id with
          | true =>
              refine Or.inl ⟨.circularImport specifier, fun _ => ⟨id, rfl, hloading⟩,
                fun read m hm hid => ?_⟩
              rw [findModule_apply, hm, hid, hresolve]
              simp only [hcached, hloading]
              rfl
          | false =>
              refine Or.inr (Or.inr ⟨id, hcached, hloading, fun read m hm hid => ?_⟩)
              rw [findModule_apply, hm, hid, hresolve]
              simp only [hcached, hloading]
              rfl

/-- A module cannot be read, or is not a program, or its program is run. -/
theorem Eval.readProgram_cases (specifier : String) (id : ModuleId) (pos : Position)
    (loader : Loader) :
    (∃ cause, cause.isCircular = false ∧
      ∀ (run : Program → Eval Exports) (m : Machine), m.modules.loader = loader →
        readProgram specifier id pos run m = .error (.failed ⟨cause, some pos⟩) m) ∨
    (∃ text program, loader.read id = .ok text ∧ Program.ofText text = .ok program ∧
      ∀ (run : Program → Eval Exports) (m : Machine), m.modules.loader = loader →
        readProgram specifier id pos run m = run program m) := by
  cases htext : loader.read id with
  | error e =>
      refine Or.inl ⟨.moduleLoad specifier e.message, rfl, fun run m hm => ?_⟩
      rw [readProgram_apply, hm, htext]
      rfl
  | ok text =>
      cases hprogram : Program.ofText text with
      | error errors =>
          refine Or.inl ⟨.moduleLoad specifier (CompileError.report errors), rfl,
            fun run m hm => ?_⟩
          rw [readProgram_apply, hm, htext]
          simp only [hprogram]
          rfl
      | ok program =>
          refine Or.inr ⟨text, program, rfl, hprogram, fun run m hm => ?_⟩
          rw [readProgram_apply, hm, htext]
          simp only [hprogram]

/-- The three ways in which the loading of a module goes, whatever runs it: it fails or finds the
module finished without running anything, or it runs a program that the loader serves under an
identity that is not being loaded. -/
theorem Runner.loadModule_cases (specifier : String) (pos : Position) (modules : Modules)
    (importer : Option ModuleId) :
    (∃ cause, ∀ (run : Runner) (m : Machine), m.modules = modules → m.moduleId = importer →
      run.loadModule specifier pos m = .error (.failed ⟨cause, some pos⟩) m) ∨
    (∃ exports, ∀ (run : Runner) (m : Machine), m.modules = modules → m.moduleId = importer →
      run.loadModule specifier pos m = .ok exports m) ∨
    (∃ id text program, modules.isLoading id = false ∧ modules.loader.read id = .ok text ∧
      Program.ofText text = .ok program ∧
      ∀ (run : Runner) (m : Machine), m.modules = modules → m.moduleId = importer →
        run.loadModule specifier pos m = run.importProgram specifier id program pos m) := by
  rcases Eval.findModule_cases specifier pos modules importer with
    ⟨cause, _, hfail⟩ | ⟨exports, hdone⟩ | ⟨id, _, hloading, hfind⟩
  · exact Or.inl ⟨cause, fun run => hfail _⟩
  · exact Or.inr (Or.inl ⟨exports, fun run => hdone _⟩)
  · rcases Eval.readProgram_cases specifier id pos modules.loader with
      ⟨cause, _, hfail⟩ | ⟨text, program, htext, hprogram, hread⟩
    · refine Or.inl ⟨cause, fun run m hm hid => ?_⟩
      rw [run.loadModule_eq, hfind _ m hm hid, hfail _ m (by rw [hm])]
    · refine Or.inr (Or.inr ⟨id, text, program, hloading, htext, hprogram, fun run m hm hid => ?_⟩)
      rw [run.loadModule_eq, hfind _ m hm hid, hread _ m (by rw [hm])]

end Lipi
