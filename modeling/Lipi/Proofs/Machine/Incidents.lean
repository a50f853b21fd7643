import Lipi.Proofs.Machine.History

set_option autoImplicit false

/-! # Runs that are stopped at an incident

To say what a run comes to, it is stopped there. `Runner.stopping` runs a program as it is run, and
keeps in mind which imports are under way, one inside the other. It is told to stop at some
*incidents*: where an import has found its module, or where an expression, a statement or a module
has failed. A run that is stopped halts as `exhausted`.

What becomes of the run itself, where the stopping run has been stopped? It fails, and the failure
passes through the imports that are under way, each of which may rewrite it. `Tracking` says what
is known of the failure from inside how many imports, and **the run and the stopping run do the same
until the second is stopped, and then the first fails as the tracking says**
(`Tracking.follows_within`).
-/

namespace Lipi

/-- An import that has found its module. -/
structure Import where
  specifier : String
  /-- Where the import stands. -/
  position : Position
  /-- What the specifier names there. -/
  id : ModuleId
deriving Repr, DecidableEq

/-- The error of an import of a module that is being loaded. -/
def Import.circular (i : Import) : RuntimeError :=
  ⟨.circularImport i.specifier, some i.position⟩

/-- The import that a machine makes of a specifier, if it names a module. -/
def Machine.found? (m : Machine) (specifier : String) (pos : Position) : Option Import :=
  match m.modules.loader.resolve specifier m.moduleId with
  | .ok id => some ⟨specifier, pos, id⟩
  | .error _ => none

/-- What a run can be stopped at. -/
inductive Incident where
  /-- An import has found its module, and is about to look whether it has been run. -/
  | finds (i : Import)
  /-- An expression, a statement or a module has failed. -/
  | fails (error : RuntimeError)

/-! ## Stopping runs -/

/-- Runs a computation; if it fails and `stop` says so, it is stopped. -/
def Eval.untilFailure {α : Type} (stop : RuntimeError → Bool) (x : Eval α) : Eval α :=
  fun m =>
    match x m with
    | .error (.failed e) m' => .error (if stop e then .exhausted else .failed e) m'
    | r => r

section Stopping

variable (stop : List Import → Incident → Bool)

/-- Loads a module, whose statements are run by `inside`, unless it is told to stop. -/
def Runner.loadStopping (inside : Import → Runner) (trail : List Import) (specifier : String)
    (pos : Position) : Eval Exports :=
  fun m =>
    if (m.found? specifier pos).any (fun i => stop trail (.finds i)) then .error .exhausted m
    else
      (Eval.findModule specifier pos fun id =>
        Eval.readProgram specifier id pos fun program =>
          Eval.onOwnMachine (·.startModule id) (fun m ended => m.resume ended id) specifier id pos
            (Eval.untilFailure (fun e => stop (trail ++ [⟨specifier, pos, id⟩]) (.fails e))
              ((inside ⟨specifier, pos, id⟩).runModule program))) m

/-- Executes an import. -/
def Runner.importStopping (inside : Import → Runner) (trail : List Import) (names : List String)
    (specifier : String) (pos : Position) : Eval Unit := do
  let exports ← Runner.loadStopping stop inside trail specifier pos
  Eval.bindImports specifier exports pos names

/-- Executes a statement. The statements of a module that it imports are run by `inside`. -/
def Runner.statementStopping (run : Runner) (inside : Import → Runner) (trail : List Import) :
    Statement → Eval Completion
  | .importNames names source pos => do
    Runner.importStopping stop inside trail names source pos
    return .normal
  | s => run.statement s

mutual

/-- Evaluates an expression while the imports of `trail` are under way, outermost first. -/
def evaluateStopping : Nat → List Import → Expr → Eval Value
  | 0, _, _ => throw .exhausted
  | n + 1, trail, e =>
    Eval.untilFailure (fun error => stop trail (.fails error))
      (Runner.expression ⟨evaluateStopping n trail, executeStopping n trail⟩ e)

/-- Executes a statement while the imports of `trail` are under way, outermost first. -/
def executeStopping : Nat → List Import → Statement → Eval Completion
  | 0, _, _ => throw .exhausted
  | n + 1, trail, s =>
    Eval.untilFailure (fun error => stop trail (.fails error))
      (Runner.statementStopping stop ⟨evaluateStopping n trail, executeStopping n trail⟩
        (fun i => ⟨evaluateStopping n (trail ++ [i]), executeStopping n (trail ++ [i])⟩) trail s)

end

/-- The runner of a stopping run while imports are under way. -/
def Runner.stopping (n : Nat) (trail : List Import) : Runner :=
  ⟨evaluateStopping stop n trail, executeStopping stop n trail⟩

end Stopping

/-! ## Failures inside a module

No elementary step finds an import circular. -/

namespace RuntimeError

theorem isCircular_missingMember (h : Heap) (target : Value) (name : String) :
    (Machine.missingMember h target name).isCircular = false := by
  cases target <;> rfl

theorem inside_methodMember (m : Machine) (target : Value) (receiver : Option InstanceRef)
    (c : ClassRef) (table : MethodTable) (name : String) :
    Inside (m.methodMember target receiver c table name) := by
  unfold Machine.methodMember
  cases m.heap.findMethod? c table name with
  | none => exact inside_error (isCircular_missingMember _ _ _)
  | some found =>
      dsimp only
      split
      · exact inside_ok _
      · exact inside_error rfl

theorem inside_getMember (m : Machine) (target : Value) (key : Key) :
    Inside (m.getMember target key) := by
  unfold Machine.getMember
  split
  · exact inside_error rfl
  · exact inside_error rfl
  · dsimp only
    split
    · exact inside_ok _
    · exact inside_methodMember _ _ _ _ _ _
  · exact inside_methodMember _ _ _ _ _ _
  · exact inside_ok _
  · exact inside_ok _
  · exact inside_ok _
  · exact inside_ok _
  · exact inside_error (isCircular_missingMember _ _ _)

theorem inside_memberPlace (h : Heap) (target : Value) (key : Key) :
    Inside (Machine.memberPlace h target key) := by
  unfold Machine.memberPlace
  split
  · exact inside_error rfl
  · exact inside_error rfl
  · exact inside_ok _
  · split
    · exact inside_ok _
    · exact inside_error rfl
  · exact inside_error rfl

theorem inside_defineTarget (h : Heap) (s : ScopeRef) (name : String) :
    Inside (h.defineTarget s name) := by
  unfold Heap.defineTarget
  split
  · exact inside_error rfl
  · exact inside_ok _

theorem inside_assignTarget (h : Heap) (s : ScopeRef) (name : String) :
    Inside (h.assignTarget s name) := by
  unfold Heap.assignTarget
  split
  · exact inside_error rfl
  · split
    · exact inside_error rfl
    · exact inside_ok _

theorem inside_collect (m : Machine) (names : List String) (exports : Exports) :
    Inside (m.collect names exports) := by
  induction names generalizing exports with
  | nil => exact inside_ok _
  | cons name names ih =>
      rw [Machine.collect]
      cases m.global? name with
      | some value => exact ih _
      | none => exact inside_error rfl

end RuntimeError

/-- A computation fails, if it does, for a cause inside one module. -/
def Eval.FailsInside {α : Type} (x : Eval α) : Prop :=
  ∀ m e m', x m = .error (.failed e) m' → e.cause.isCircular = false

namespace Eval

/-- A step fails as its search does. -/
theorem failsInside_search {α β : Type} {pos : Option Position}
    {find : Machine → Except RuntimeError.Cause β} {make : β → Heap → α × Heap}
    (hfind : ∀ m, RuntimeError.Inside (find m)) : (search pos find make).FailsInside := by
  intro m e m' hfails
  rcases search_cases pos find make m with ⟨b, _, h⟩ | ⟨cause, hcause, h⟩
  · rw [h] at hfails
    cases hfails
  · rw [h] at hfails
    cases hfails
    exact hfind m cause hcause

theorem failsInside_alloc {α : Type} (make : Heap → α × Heap) : (alloc make).FailsInside := by
  intro m e m' hfails
  cases hfails

theorem failsInside_update {α : Type} (pos : Position) {find : Heap → Except RuntimeError.Cause α}
    (hfind : ∀ h, RuntimeError.Inside (find h)) (change : α → Heap → Heap) :
    (update pos find change).FailsInside := by
  rw [update_eq_search]
  exact failsInside_search fun m => hfind m.heap

theorem failsInside_declare (name : String) (value : Value) (constant : Bool) (pos : Position) :
    (declare name value constant pos).FailsInside := by
  rw [declare_eq_search]
  exact failsInside_search fun m => RuntimeError.inside_defineTarget m.heap m.environment name

theorem failsInside_assign (name : String) (value : Value) (pos : Position) :
    (assign name value pos).FailsInside := by
  rw [assign_eq_search]
  exact failsInside_search fun m => RuntimeError.inside_assignTarget m.heap m.environment name

theorem failsInside_getMember (target : Value) (key : Key) (pos : Position) :
    (getMember target key pos).FailsInside := by
  rw [getMember_eq_search]
  exact failsInside_search fun m => RuntimeError.inside_getMember m target key

theorem failsInside_setMember (target : Value) (key : Key) (value : Value) (pos : Position) :
    (setMember target key value pos).FailsInside := by
  intro m e m' hfails
  cases hconflict : Machine.conflicts m.heap target key with
  | true =>
      rw [setMember_conflict hconflict] at hfails
      cases hfails
  | false =>
      rw [setMember_free hconflict] at hfails
      exact failsInside_update pos (fun h => RuntimeError.inside_memberPlace h target key)
        (MemberPlace.write value) m e m' hfails

theorem failsInside_collectExports : collectExports.FailsInside := by
  rw [collectExports_eq_search]
  exact failsInside_search fun m => RuntimeError.inside_collect m _ _

end Eval

/-! ## Modules that are being loaded -/

/-- No module that is being loaded has been run. -/
def Modules.Apart (ms : Modules) : Prop :=
  ∀ id ∈ ms.loading, ms.cached? id = none

namespace Modules

variable {ms ms' : Modules} {id : ModuleId}

theorem Apart.enter (h : ms.Apart) (hid : ms.cached? id = none) : (ms.enter id).Apart := by
  intro other hother
  have hmem : other ∈ ms.loading ++ [id] := hother
  rcases List.mem_append.mp hmem with hmem | hmem
  · exact h other hmem
  · rw [List.mem_singleton.mp hmem]
    exact hid

theorem Apart.leave (h : ms.Apart) : (ms.leave id).Apart :=
  fun other hother => h other (mem_loading_leave.mp hother).1

theorem Apart.finish (h : ms.Apart) (exports : Exports) :
    ((ms.leave id).store id exports).Apart := by
  intro other hother
  have hleft : other ∈ (ms.leave id).loading := hother
  rw [cached?_store, if_neg (mem_loading_leave.mp hleft).2.symm]
  exact h.leave other hleft

end Modules

/-! ## Tracking -/

/-- What is known of the failures of a run, seen from inside the imports that are under way. -/
structure Tracking where
  /-- The modules that are being loaded before there is any import. -/
  outer : List ModuleId
  stop : List Import → Incident → Bool
  /-- A failure of the run that comes from where the stopping run has been stopped. -/
  ahead : List Import → RuntimeError → Prop
  /-- A failure that both runs have in common. -/
  common : List Import → RuntimeError → Prop
  ahead_finds : ∀ trail i, stop trail (.finds i) = true →
    i.id ∈ outer ++ trail.map (·.id) ∧ ahead trail i.circular
  ahead_fails : ∀ trail e, stop trail (.fails e) = true → ahead trail e
  ahead_import : ∀ trail i e, ahead (trail ++ [i]) e →
    ahead trail (e.ofModule i.specifier i.position)
  common_inside : ∀ trail e, e.cause.isCircular = false → common trail e
  common_finds : ∀ trail i, i.id ∈ outer ++ trail.map (·.id) → stop trail (.finds i) = false →
    common trail i.circular
  common_import : ∀ trail i e, common (trail ++ [i]) e →
    common trail (e.ofModule i.specifier i.position)

namespace Tracking

open Restoration

variable (T : Tracking)

/-- Where a run stands while imports are under way: the modules that are being loaded are those of
the imports, behind the outer ones, and none of them has been run. -/
structure Stands (trail : List Import) (m : Machine) : Prop where
  loading : m.modules.loading = T.outer ++ trail.map (·.id)
  apart : m.modules.Apart

/-- How the results of the run and of the stopping run go together. -/
inductive Keeps {α : Type} (trail : List Import) :
    EStateM.Result Halt Machine α → EStateM.Result Halt Machine α → Prop where
  | same {r : EStateM.Result Halt Machine α} :
    (∀ e m, r = .error (.failed e) m → T.common trail e) → Keeps trail r r
  | stopped {e : RuntimeError} {m m' : Machine} : T.ahead trail e →
    Keeps trail (.error (.failed e) m) (.error .exhausted m')

/-- The left computation is run, the right one stops. -/
structure Follows {α : Type} (trail : List Import) (x y : Eval α) : Prop where
  restores : Restores x
  apart : ∀ m : Machine, T.Stands trail m → (x.final m).modules.Apart
  keeps : ∀ m : Machine, T.Stands trail m → T.Keeps trail (x m) (y m)

variable {T} {trail : List Import} {α β : Type}

/-- The run stands where it stood, since it restores what is being loaded. -/
theorem Follows.stands {x y : Eval α} (hx : T.Follows trail x y) {m : Machine}
    (hm : T.Stands trail m) : T.Stands trail (x.final m) :=
  ⟨(hx.restores m).loading.trans hm.loading, hx.apart m hm⟩

/-- A step inside one module that leaves the modules as they are. -/
theorem follows_of_inside {x : Eval α} (hrestores : Restores x)
    (hmodules : ∀ m, (x.final m).modules = m.modules) (hx : x.FailsInside) :
    T.Follows trail x x := by
  refine ⟨hrestores, fun m hm => ?_, fun m _ => .same fun e m' hfails => ?_⟩
  · rw [hmodules]
    exact hm.apart
  · exact T.common_inside trail e (hx m e m' hfails)

theorem follows_of_elementary {x : Eval α} (hx : x.Elementary) (hinside : x.FailsInside) :
    T.Follows trail x x :=
  follows_of_inside (.of_elementary hx) hx.quiet.modules hinside

theorem follows_of_ok {x : Eval α} (hrestores : Restores x)
    (hmodules : ∀ m, (x.final m).modules = m.modules) (hx : ∀ m, ∃ a m', x m = .ok a m') :
    T.Follows trail x x := by
  refine follows_of_inside hrestores hmodules fun m e m' hfails => ?_
  obtain ⟨a, ended, hm⟩ := hx m
  rw [hm] at hfails
  cases hfails

theorem follows_bind {x y : Eval α} {f g : α → Eval β} (hx : T.Follows trail x y)
    (hf : ∀ a, T.Follows trail (f a) (g a)) : T.Follows trail (x >>= f) (y >>= g) := by
  refine ⟨restores_bind hx.restores fun a => (hf a).restores, fun m hm => ?_, fun m hm => ?_⟩
  · rcases Eval.final_bind x f m with ⟨a, h⟩ | h
    · rw [h]
      exact (hf a).apart _ (hx.stands hm)
    · rw [h]
      exact hx.apart m hm
  · have hfirst := hx.keeps m hm
    have hstands := hx.stands hm
    unfold Eval.final at hstands
    generalize hxm : x m = r at hfirst hstands
    generalize hym : y m = r' at hfirst
    cases hfirst with
    | same hcommon =>
        cases r with
        | ok a m' =>
            rw [Eval.bind_ok f hxm, Eval.bind_ok g hym]
            exact (hf a).keeps m' hstands
        | error halt m' =>
            rw [Eval.bind_error f hxm, Eval.bind_error g hym]
            refine .same fun e ended hfails => hcommon e m' ?_
            cases hfails
            rfl
    | stopped hahead =>
        rw [Eval.bind_error f hxm, Eval.bind_error g hym]
        exact .stopped hahead

theorem Keeps.onMachine {r r' : EStateM.Result Halt Machine α} (change : Machine → Machine)
    (h : T.Keeps trail r r') :
    T.Keeps trail (Eval.onMachine change r) (Eval.onMachine change r') := by
  cases h with
  | same hcommon =>
      refine .same fun e m hfails => ?_
      cases r with
      | ok a m' => cases hfails
      | error halt m' =>
          cases hfails
          exact hcommon e m' rfl
  | stopped hahead => exact .stopped hahead

/-- Running on a changed machine and changing back, if the changes do not touch the modules. -/
theorem follows_inside {x y : Eval α} (enter : Machine → Machine)
    (leave : Machine → Machine → Machine) (hmodules : ∀ m, (enter m).modules = m.modules)
    (hmodules' : ∀ m m', (leave m m').modules = m'.modules)
    (hrestores : Restores fun m => Eval.onMachine (leave m) (x (enter m)))
    (hx : T.Follows trail x y) :
    T.Follows trail (fun m => Eval.onMachine (leave m) (x (enter m)))
      (fun m => Eval.onMachine (leave m) (y (enter m))) := by
  have henter : ∀ m, T.Stands trail m → T.Stands trail (enter m) := fun m hm =>
    ⟨by rw [hmodules, hm.loading], by rw [hmodules]; exact hm.apart⟩
  refine ⟨hrestores, fun m hm => ?_, fun m hm => (hx.keeps _ (henter m hm)).onMachine _⟩
  have hinside := hx.apart _ (henter m hm)
  unfold Eval.final at hinside ⊢
  rw [Eval.machineOf_onMachine, hmodules']
  exact hinside

theorem follows_inScope (scope : ScopeRef) {x y : Eval α} (hx : T.Follows trail x y) :
    T.Follows trail (Eval.inScope scope x) (Eval.inScope scope y) :=
  follows_inside ({ · with environment := scope })
    (fun m m' => { m' with environment := m.environment }) (fun _ => rfl) (fun _ _ => rfl)
    (restores_inScope scope hx.restores) hx

theorem follows_inCall (frame : Option Frame) {x y : Eval α} (hx : T.Follows trail x y) :
    T.Follows trail (Eval.inCall frame x) (Eval.inCall frame y) :=
  follows_inside (fun m => { m with frames := frame :: m.frames })
    (fun _ m' => { m' with frames := m'.frames.tail }) (fun _ => rfl) (fun _ _ => rfl)
    (restores_inCall frame hx.restores) hx

/-- A run that is also stopped where it fails. -/
theorem Keeps.untilFailure {x y : Eval α} {m : Machine} (h : T.Keeps trail (x m) (y m)) :
    T.Keeps trail (x m) (Eval.untilFailure (fun e => T.stop trail (.fails e)) y m) := by
  unfold Eval.untilFailure
  generalize x m = r at h
  generalize y m = r' at h
  cases h with
  | stopped hahead => exact .stopped hahead
  | same hcommon =>
      cases r with
      | ok a m' => exact .same hcommon
      | error halt m' =>
          cases halt with
          | conflict | exhausted => exact .same hcommon
          | failed e =>
              cases hstop : T.stop trail (.fails e) with
              | true =>
                  simp only [hstop, if_true]
                  exact .stopped (T.ahead_fails trail e hstop)
              | false =>
                  simp only [hstop, Bool.false_eq_true, if_false]
                  exact .same hcommon

theorem follows_untilFailure {x y : Eval α} (hx : T.Follows trail x y) :
    T.Follows trail x (Eval.untilFailure (fun e => T.stop trail (.fails e)) y) :=
  ⟨hx.restores, hx.apart, fun m hm => (hx.keeps m hm).untilFailure⟩

theorem follows_alloc (make : Heap → α × Heap) :
    T.Follows trail (Eval.alloc make) (Eval.alloc make) :=
  follows_of_elementary (Eval.elementary_alloc make) (Eval.failsInside_alloc make)

theorem follows_fail {cause : RuntimeError.Cause} (hcause : cause.isCircular = false)
    (pos : Position) :
    T.Follows trail (Eval.fail cause pos : Eval α) (Eval.fail cause pos) := by
  refine follows_of_elementary (Eval.elementary_fail cause pos) fun m e m' hfails => ?_
  cases hfails
  exact hcause

theorem follows_print (line : String) : T.Follows trail (Eval.print line) (Eval.print line) :=
  follows_of_ok (fun _ => ⟨rfl, rfl, rfl, rfl, rfl, rfl, rfl⟩) (fun _ => rfl) fun _ => ⟨_, _, rfl⟩

theorem follows_setMember (target : Value) (key : Key) (value : Value) (pos : Position) :
    T.Follows trail (Eval.setMember target key value pos) (Eval.setMember target key value pos) :=
  follows_of_inside (restores_setMember target key value pos)
    (Eval.quiet_setMember target key value pos).modules
    (Eval.failsInside_setMember target key value pos)

variable (T trail)

/-- Following as a relation, while the imports of `trail` are under way. -/
def relation : EvalRelation where
  rel := T.Follows trail
  fits _ := True
  fits_mono _ _ := trivial
  pure _ := follows_of_ok (fun m => .refl m) (fun _ => rfl) fun _ => ⟨_, _, rfl⟩
  bind := follows_bind
  ask hf := ⟨fun m => (hf m.heap m.environment m.frame? m.callDepth).restores m,
    fun m => (hf m.heap m.environment m.frame? m.callDepth).apart m,
    fun m => (hf m.heap m.environment m.frame? m.callDepth).keeps m⟩
  fail _ pos hcause := follows_fail hcause pos
  getMember target key pos := follows_of_elementary (Eval.elementary_getMember target key pos)
    (Eval.failsInside_getMember target key pos)
  newArray _ := follows_alloc _
  newInstance _ := follows_alloc _
  newFunction _ _ _ := follows_alloc _
  declareClass _ _ _ _ _ := follows_alloc _
  declare name value constant pos := follows_of_elementary
    (Eval.elementary_declare name value constant pos)
    (Eval.failsInside_declare name value constant pos)
  assign name value pos := follows_of_elementary (Eval.elementary_assign name value pos)
    (Eval.failsInside_assign name value pos)
  setField target name value pos := follows_setMember target (.name name) value pos
  noteExports names := follows_of_ok (Restoration.relation.noteExports names) (fun _ => rfl)
    fun _ => ⟨_, _, rfl⟩
  inNewScope _ _ _ _ hx := follows_bind (follows_alloc _) fun scope => follows_inScope scope hx

variable {T trail}

/-! ## Calls -/

section Runners

variable {run run' : Runner}

theorem follows_callRoutine (hs : ∀ s, T.Follows trail (run.execute s) (run'.execute s))
    (routine : Routine) (closure : ScopeRef) (arguments : List Value) (frame : Option Frame)
    (pos : Position) :
    T.Follows trail (run.callRoutine routine closure arguments frame pos)
      (run'.callRoutine routine closure arguments frame pos) := by
  have hbody : T.Follows trail (run.activate routine closure arguments frame)
      (run'.activate routine closure arguments frame) :=
    EvalRelation.activate (R := T.relation trail) run run'
      (fun _ _ _ hx => follows_bind (follows_alloc _) fun scope =>
        follows_inCall frame (follows_inScope scope hx)) fun s _ => hs s
  refine ⟨restores_callRoutine (fun s => (hs s).restores) routine closure arguments frame pos,
    fun m hm => ?_, fun m hm => ?_⟩
  · have hinside := hbody.apart m hm
    unfold Eval.final at hinside ⊢
    rw [Runner.callRoutine_eq]
    by_cases hdeep : m.limits.maxCallDepth ≤ m.callDepth
    · rw [if_pos hdeep]
      exact hm.apart
    · rw [if_neg hdeep]
      exact hinside
  · rw [Runner.callRoutine_eq, Runner.callRoutine_eq]
    by_cases hdeep : m.limits.maxCallDepth ≤ m.callDepth
    · rw [if_pos hdeep, if_pos hdeep]
      exact (follows_fail (α := Value) rfl pos).keeps m hm
    · rw [if_neg hdeep, if_neg hdeep]
      exact hbody.keeps m hm

theorem respectsInside (he : ∀ e, T.Follows trail (run.evaluate e) (run'.evaluate e))
    (hs : ∀ s, T.Follows trail (run.execute s) (run'.execute s)) (d : Nat) :
    (T.relation trail).RespectsInside d run run' where
  evaluate e _ := he e
  execute s _ := hs s
  callValue := ExprRelation.callValue run run' (follows_callRoutine hs)
  callMethod := ExprRelation.callMethod run run' (follows_callRoutine hs)
  loop condition body pos _ _ := by
    have hlimit : T.Follows trail
        (fun m => (Eval.fail (.loopLimit m.limits.maxIterations) pos : Eval Completion) m)
        (fun m => (Eval.fail (.loopLimit m.limits.maxIterations) pos : Eval Completion) m) :=
      ⟨fun m => .refl m, fun _ hm => hm.apart, fun m => (follows_fail (α := Completion) rfl pos).keeps m⟩
    have hloop : ∀ n, T.Follows trail (run.loop condition body pos n)
        (run'.loop condition body pos n) := fun n =>
      EvalRelation.loop (R := T.relation trail) run run' n hlimit (he condition) (hs body)
    exact ⟨fun m => (hloop m.limits.maxIterations).restores m,
      fun m => (hloop m.limits.maxIterations).apart m,
      fun m => (hloop m.limits.maxIterations).keeps m⟩

/-! ## Imports -/

theorem Keeps.ofModule {i : Import} {r r' : EStateM.Result Halt Machine Exports} (id : ModuleId)
    (leave : Machine → Machine) (h : T.Keeps (trail ++ [i]) r r') :
    T.Keeps trail (Eval.ofModule i.specifier id i.position leave r)
      (Eval.ofModule i.specifier id i.position leave r') := by
  cases h with
  | stopped hahead => exact .stopped (T.ahead_import trail i _ hahead)
  | same hcommon =>
      refine .same fun e m hfails => ?_
      cases r with
      | ok exports ended => cases hfails
      | error halt ended =>
          cases halt with
          | conflict | exhausted => cases hfails
          | failed inner =>
              cases hfails
              exact T.common_import trail i inner (hcommon inner ended rfl)

/-- A module runs inside one more import. -/
theorem importProgram_keeps {i : Import} {inside : Runner}
    (hs : ∀ s, T.Follows (trail ++ [i]) (run.execute s) (inside.execute s)) (program : Program)
    {m : Machine} (hm : T.Stands trail m) (hcached : m.modules.cached? i.id = none) :
    ((run.importProgram i.specifier i.id program i.position).final m).modules.Apart ∧
    T.Keeps trail (run.importProgram i.specifier i.id program i.position m)
      (Eval.onOwnMachine (·.startModule i.id) (fun m ended => m.resume ended i.id) i.specifier i.id
        i.position (Eval.untilFailure (fun e => T.stop (trail ++ [i]) (.fails e))
          (inside.runModule program)) m) := by
  have hrun : T.Follows (trail ++ [i]) (run.runModule program) (inside.runModule program) := by
    rw [Runner.runModule_eq, Runner.runModule_eq]
    refine follows_bind (EvalRelation.executeProgram (R := T.relation (trail ++ [i])) run inside _
      fun s _ => hs s) fun _ => ?_
    exact follows_of_elementary Eval.elementary_collectExports Eval.failsInside_collectExports
  have hstart : T.Stands (trail ++ [i]) (m.startModule i.id) := by
    refine ⟨?_, hm.apart.enter hcached⟩
    show m.modules.loading ++ [i.id] = _
    rw [hm.loading, List.map_append, List.append_assoc]
    rfl
  have hended := hrun.apart _ hstart
  unfold Eval.final at hended ⊢
  rw [Runner.importProgram_eq]
  refine ⟨?_, ((hrun.keeps _ hstart).untilFailure).ofModule i.id (m.resume · i.id)⟩
  cases hresult : run.runModule program (m.startModule i.id) with
  | ok exports ended =>
      rw [hresult] at hended
      exact Modules.Apart.finish hended exports
  | error halt ended =>
      rw [hresult] at hended
      exact Modules.Apart.leave hended

theorem found?_eq_some {m : Machine} {specifier : String} {pos : Position} {i : Import}
    (h : m.found? specifier pos = some i) : i.specifier = specifier ∧ i.position = pos := by
  unfold Machine.found? at h
  split at h
  · cases h
    exact ⟨rfl, rfl⟩
  · cases h

/-- An import that has found a module that is being loaded fails, since the module has not been
run. -/
theorem findModule_of_loading {i : Import} {m : Machine} (hm : m.modules.Apart)
    (hfound : m.found? i.specifier i.position = some i) (hloading : i.id ∈ m.modules.loading)
    (read : ModuleId → Eval Exports) :
    Eval.findModule i.specifier i.position read m = .error (.failed i.circular) m := by
  unfold Machine.found? at hfound
  rw [Eval.findModule_apply]
  cases hresolve : m.modules.loader.resolve i.specifier m.moduleId with
  | error e =>
      rw [hresolve] at hfound
      cases hfound
  | ok id =>
      rw [hresolve] at hfound
      obtain rfl : id = i.id := congrArg Import.id (Option.some.inj hfound)
      have hcontains : m.modules.isLoading i.id = true := by
        simpa [Modules.isLoading] using hloading
      dsimp only
      rw [hm i.id hloading]
      simp only [hcontains, if_true]
      rfl

/-- Two searches for a module keep together if their readings of a module do that has not been run
and is not being loaded. -/
theorem findModule_keeps {specifier : String} {pos : Position} {m : Machine}
    (hm : T.Stands trail m)
    (hstop : ∀ i, m.found? specifier pos = some i → T.stop trail (.finds i) = false)
    {read read' : ModuleId → Eval Exports}
    (hread : ∀ id, m.modules.cached? id = none →
      ((read id).final m).modules.Apart ∧ T.Keeps trail (read id m) (read' id m)) :
    ((Eval.findModule specifier pos read).final m).modules.Apart ∧
    T.Keeps trail (Eval.findModule specifier pos read m) (Eval.findModule specifier pos read' m) := by
  unfold Eval.final at hread ⊢
  rcases Eval.findModule_cases specifier pos m.modules m.moduleId with
    ⟨cause, hcircular, hfail⟩ | ⟨exports, hdone⟩ | ⟨id, hcached, _, hfind⟩
  -- a circular import fails for a reason outside of the module, which is where runs may stop
  · cases hcause : cause.isCircular with
    | true =>
        obtain ⟨id, hresolve, hloading⟩ := hcircular hcause
        have hfound : m.found? specifier pos = some ⟨specifier, pos, id⟩ := by
          unfold Machine.found?
          rw [hresolve]
        have hmem : id ∈ m.modules.loading := by simpa [Modules.isLoading] using hloading
        have hfails :=
          findModule_of_loading (i := ⟨specifier, pos, id⟩) hm.apart hfound hmem
        rw [hfails read, hfails read']
        refine ⟨hm.apart, .same fun e m' herror => ?_⟩
        cases herror
        exact T.common_finds trail _ (hm.loading ▸ hmem) (hstop _ hfound)
    | false =>
        rw [hfail read m rfl rfl, hfail read' m rfl rfl]
        exact ⟨hm.apart, (follows_fail (α := Exports) hcause pos).keeps m hm⟩
  · rw [hdone read m rfl rfl, hdone read' m rfl rfl]
    refine ⟨hm.apart, .same fun e m' hfails => ?_⟩
    cases hfails
  · rw [hfind read m rfl rfl, hfind read' m rfl rfl]
    exact hread id hcached

theorem follows_loadModule {inside : Import → Runner}
    (hrestores : ∀ s, Restores (run.execute s))
    (hs : ∀ i s, T.Follows (trail ++ [i]) (run.execute s) ((inside i).execute s))
    (specifier : String) (pos : Position) :
    T.Follows trail (run.loadModule specifier pos)
      (Runner.loadStopping T.stop inside trail specifier pos) := by
  have hload : ∀ m : Machine, T.Stands trail m →
      ((run.loadModule specifier pos).final m).modules.Apart ∧
      T.Keeps trail (run.loadModule specifier pos m)
        (Runner.loadStopping T.stop inside trail specifier pos m) := by
    intro m hm
    rw [Runner.loadModule_eq]
    unfold Runner.loadStopping
    -- the run is to be stopped at this import, or goes on into the module
    by_cases hstop : (m.found? specifier pos).any (fun i => T.stop trail (.finds i)) = true
    · obtain ⟨i, hfound, histop⟩ := (Option.any_eq_true ..).mp hstop
      obtain ⟨rfl, rfl⟩ := found?_eq_some hfound
      obtain ⟨hmem, hahead⟩ := T.ahead_finds trail i histop
      unfold Eval.final
      rw [if_pos hstop, findModule_of_loading hm.apart hfound (hm.loading ▸ hmem)]
      exact ⟨hm.apart, .stopped hahead⟩
    · rw [if_neg hstop]
      refine findModule_keeps hm (fun i hfound => ?_) fun id hcached => ?_
      · rw [hfound] at hstop
        exact Bool.eq_false_iff.mpr hstop
      · unfold Eval.final
        rcases Eval.readProgram_cases specifier id pos m.modules.loader with
          ⟨cause, hcause, hfail⟩ | ⟨text, program, _, _, hread⟩
        · rw [hfail _ m rfl, hfail _ m rfl]
          exact ⟨hm.apart, (follows_fail (α := Exports) hcause pos).keeps m hm⟩
        · rw [hread _ m rfl, hread _ m rfl]
          exact importProgram_keeps (hs ⟨specifier, pos, id⟩) program hm hcached
  exact ⟨restores_loadModule hrestores specifier pos,
    fun m hm => (hload m hm).1, fun m hm => (hload m hm).2⟩

end Runners

/-! ## Whole runs -/

theorem follows_statement {run run' : Runner} {inside : Import → Runner}
    (he : ∀ e, T.Follows trail (run.evaluate e) (run'.evaluate e))
    (hs : ∀ s, T.Follows trail (run.execute s) (run'.execute s))
    (hinside : ∀ i s, T.Follows (trail ++ [i]) (run.execute s) ((inside i).execute s))
    (s : Statement) :
    T.Follows trail (run.statement s) (Runner.statementStopping T.stop run' inside trail s) := by
  have hplain : (∀ value pos, s ≠ .print value pos) →
      (∀ names source pos, s ≠ .importNames names source pos) →
      T.Follows trail (run.statement s) (run'.statement s) := fun hprint himport =>
    EvalRelation.statement_inside (R := T.relation trail) trivial (respectsInside he hs s.depth)
      (fun value pos h => absurd h (hprint value pos))
      fun names source pos h => absurd h (himport names source pos)
  cases s with
  | print value pos =>
      refine follows_bind (he value) fun v => ?_
      refine (T.relation trail).look (fun heap _ _ _ => do
        Eval.print (heap.text v)
        return Completion.normal) fun heap _ _ _ => ?_
      exact follows_bind (follows_print _) fun _ => (T.relation trail).pure _
  | importNames names source pos =>
      have himport : T.Follows trail (run.importNames names source pos)
          (Runner.importStopping T.stop inside trail names source pos) :=
        follows_bind (follows_loadModule (fun s => (hs s).restores) hinside source pos) fun exports =>
          (T.relation trail).bindImports source exports pos names
      exact follows_bind himport fun _ => (T.relation trail).pure _
  | _ => exact hplain (fun _ _ h => by cases h) fun _ _ _ h => by cases h

variable (T) in
/-- **A run and the same run told to stop do the same until the second is stopped**, and then the
first fails as the tracking says. -/
theorem follows_within (n : Nat) (trail : List Import) :
    (∀ e, T.Follows trail (evaluate n e) (evaluateStopping T.stop n trail e)) ∧
    (∀ s, T.Follows trail (execute n s) (executeStopping T.stop n trail s)) := by
  induction n generalizing trail with
  | zero =>
      have hzero : ∀ {α : Type}, T.Follows trail (throw .exhausted : Eval α) (throw .exhausted) :=
        follows_of_inside (fun m => .refl m) (fun _ => rfl) fun _ _ _ hfails => nomatch hfails
      exact ⟨fun _ => hzero, fun _ => hzero⟩
  | succ n ih =>
      obtain ⟨he, hs⟩ := ih trail
      have hparts : ∀ d, (T.relation trail).RespectsInside d (Runner.within n)
          (Runner.stopping T.stop n trail) := respectsInside he hs
      refine ⟨fun e => follows_untilFailure ?_, fun s => follows_untilFailure ?_⟩
      · exact ExprRelation.expression_of_setMember (hparts e.depth).toRespectsParts
          fun o k v pos => follows_setMember o (.computed k) v pos
      · exact follows_statement he hs (fun i => (ih (trail ++ [i])).2) s

end Tracking

end Lipi
