import Lipi.Module.Memory
import Lipi.Proofs.Machine.Nesting
import Lipi.Proofs.Machine.Oblivious

set_option autoImplicit false

/-! # Calls are lexically scoped

What a call does depends on the scope in which the routine was declared, on the receiver and the home
that come with the callee, and on how many calls are active. **It does not depend on who calls**: the
scope from which a call is made and the frames of the active calls can be replaced by others
(`Machine.calledFrom`), and nothing changes but the scope and the frames to which the call comes back
(`calls_lexically_scoped`).

The argument is about what runs inside a call. Everything that runs there sees the innermost frame
and the number of the active calls, but no frame below the innermost one (`Eval.SeesInnermost`). A
call puts its own frame on top and its own scope in place of the current one, so that from outside
nothing is left to be seen (`Eval.SeesNoCaller`).
-/

namespace Lipi

namespace Machine

/-- A machine with other active calls. -/
def withFrames (m : Machine) (frames : List (Option Frame)) : Machine :=
  { m with frames }

/-- A machine that stands in another scope and has other active calls. -/
def calledFrom (m : Machine) (scope : ScopeRef) (frames : List (Option Frame)) : Machine :=
  { m with environment := scope, frames }

/-- Two machines agree on everything but the caller: the current scopes may differ, and so may the
active calls, of which both have the same number. -/
structure AgreeBeyondCaller (m m' : Machine) : Prop where
  heap : m'.heap = m.heap
  globals : m'.globals = m.globals
  limits : m'.limits = m.limits
  output : m'.output = m.output
  exports : m'.exports = m.exports
  moduleId : m'.moduleId = m.moduleId
  modules : m'.modules = m.modules
  callDepth : m'.callDepth = m.callDepth

theorem AgreeBeyondCaller.eq_calledFrom {m m' : Machine} (h : m.AgreeBeyondCaller m') :
    m' = m.calledFrom m'.environment m'.frames := by
  obtain ⟨heap, globals, environment, frames, limits, output, exports, moduleId, modules⟩ := m'
  obtain ⟨hheap, hglobals, hlimits, houtput, hexports, hid, hmodules, _⟩ := h
  dsimp only at hheap hglobals hlimits houtput hexports hid hmodules
  subst hheap hglobals hlimits houtput hexports hid hmodules
  rfl

theorem agreeBeyondCaller_calledFrom {m : Machine} (scope : ScopeRef)
    {frames : List (Option Frame)} (hframes : frames.length = m.callDepth) :
    m.AgreeBeyondCaller (m.calledFrom scope frames) :=
  ⟨rfl, rfl, rfl, rfl, rfl, rfl, rfl, hframes⟩

end Machine

namespace Eval

/-- Two results agree on everything but the caller: the same value or the same reason to halt, on
machines that agree so. -/
inductive AgreeBeyondCaller {α : Type} :
    EStateM.Result Halt Machine α → EStateM.Result Halt Machine α → Prop
  | ok (a : α) {m m' : Machine} (h : m.AgreeBeyondCaller m') :
      AgreeBeyondCaller (.ok a m) (.ok a m')
  | error (halt : Halt) {m m' : Machine} (h : m.AgreeBeyondCaller m') :
      AgreeBeyondCaller (.error halt m) (.error halt m')

theorem agreeBeyondCaller_onMachine {α : Type} {r : EStateM.Result Halt Machine α}
    {change : Machine → Machine} (h : (machineOf r).AgreeBeyondCaller (change (machineOf r))) :
    AgreeBeyondCaller r (onMachine change r) := by
  cases r with
  | ok a m => exact .ok a h
  | error halt m => exact .error halt h

/-- Of the active calls, a computation sees the innermost one and how many there are. -/
def SeesInnermost {α : Type} (x : Eval α) : Prop :=
  ∀ (m : Machine) (frames : List (Option Frame)), frames.length = m.callDepth →
    (m.withFrames frames).frame? = m.frame? →
    x (m.withFrames frames) = onMachine (·.withFrames frames) (x m)

/-- A computation sees neither the current scope nor any active call, but only how many there
are. -/
def SeesNoCaller {α : Type} (x : Eval α) : Prop :=
  ∀ (m : Machine) (scope : ScopeRef) (frames : List (Option Frame)), frames.length = m.callDepth →
    x (m.calledFrom scope frames) = onMachine (·.calledFrom scope frames) (x m)

end Eval

namespace LexicalScope

open Restoration
open Eval (SeesInnermost SeesNoCaller onMachine)

/-! ## Steps -/

section Steps

variable {α β : Type}

theorem sees_bind {x : Eval α} {f : α → Eval β} (hrestores : Restores x) (hx : SeesInnermost x)
    (hf : ∀ a, SeesInnermost (f a)) : SeesInnermost (x >>= f) := by
  intro m frames hlength hframe
  have hfirst := hx m frames hlength hframe
  have hback := (hrestores m).frames
  unfold Eval.final at hback
  cases hxm : x m with
  | ok a m' =>
      rw [hxm] at hfirst hback
      -- the first computation has come back to the active calls from which it started
      have hsame : m'.frames = m.frames := hback
      rw [Eval.bind_ok f hxm, Eval.bind_ok f hfirst]
      refine hf a m' frames ?_ ?_
      · unfold Machine.callDepth
        rw [hsame]
        exact hlength
      · unfold Machine.frame? at hframe ⊢
        rw [hsame]
        exact hframe
  | error halt m' =>
      rw [hxm] at hfirst
      rw [Eval.bind_error f hxm, Eval.bind_error f hfirst]
      rfl

theorem sees_ask {f : Heap → ScopeRef → Option Frame → Nat → Eval α}
    (hf : ∀ h s frame depth, SeesInnermost (f h s frame depth)) :
    SeesInnermost fun m => f m.heap m.environment m.frame? m.callDepth m := by
  intro m frames hlength hframe
  show f m.heap m.environment (m.withFrames frames).frame? frames.length (m.withFrames frames) = _
  rw [hframe, hlength]
  exact hf _ _ _ _ m frames hlength hframe

theorem sees_alloc (make : Heap → α × Heap) : SeesInnermost (Eval.alloc make) :=
  fun _ _ _ _ => rfl

/-- A step sees what its search sees. -/
theorem sees_search {β : Type} {pos : Option Position}
    {find : Machine → Except RuntimeError.Cause β} {make : β → Heap → α × Heap}
    (hfind : ∀ (m : Machine) (frames : List (Option Frame)),
      (m.withFrames frames).frame? = m.frame? → find (m.withFrames frames) = find m) :
    SeesInnermost (Eval.search pos find make) := by
  intro m frames _ hframe
  unfold Eval.search
  rw [hfind m frames hframe]
  cases find m <;> rfl

theorem sees_update (pos : Position) (find : Heap → Except RuntimeError.Cause α)
    (change : α → Heap → Heap) : SeesInnermost (Eval.update pos find change) := by
  rw [Eval.update_eq_search]
  exact sees_search fun _ _ _ => rfl

theorem sees_getMember (target : Value) (key : Key) (pos : Position) :
    SeesInnermost (Eval.getMember target key pos) := by
  rw [Eval.getMember_eq_search]
  refine sees_search fun m frames hframe => ?_
  have hheap : (m.withFrames frames).heap = m.heap := rfl
  exact Machine.getMember_congr hheap hframe target key

theorem sees_setMember (target : Value) (key : Key) (value : Value) (pos : Position) :
    SeesInnermost (Eval.setMember target key value pos) := by
  intro m frames hlength hframe
  have hsame : Machine.conflicts (m.withFrames frames).heap target key =
      Machine.conflicts m.heap target key := rfl
  cases hconflict : Machine.conflicts m.heap target key with
  | true =>
      rw [Eval.setMember_conflict hconflict, Eval.setMember_conflict (hsame.trans hconflict)]
      rfl
  | false =>
      rw [Eval.setMember_free hconflict, Eval.setMember_free (hsame.trans hconflict)]
      exact sees_update pos _ _ m frames hlength hframe

theorem sees_inScope (scope : ScopeRef) {x : Eval α} (hx : SeesInnermost x) :
    SeesInnermost (Eval.inScope scope x) := by
  intro m frames hlength hframe
  have hinner := hx { m with environment := scope } frames hlength hframe
  have hsame : { m.withFrames frames with environment := scope } =
      Machine.withFrames { m with environment := scope } frames := rfl
  unfold Eval.inScope
  rw [hsame, hinner]
  cases x { m with environment := scope } <;> rfl

end Steps

/-- Seeing nothing below the innermost call as a relation, which looks at the left computation
only. -/
def relation : EvalRelation where
  rel x _ := Restores x ∧ SeesInnermost x
  fits _ := True
  fits_mono _ _ := trivial
  pure _ := ⟨fun m => .refl m, fun _ _ _ _ => rfl⟩
  bind hx hf := ⟨restores_bind hx.1 fun a => (hf a).1, sees_bind hx.1 hx.2 fun a => (hf a).2⟩
  ask hf := ⟨fun m => (hf m.heap m.environment m.frame? m.callDepth).1 m,
    sees_ask fun h s frame depth => (hf h s frame depth).2⟩
  fail _ _ _ := ⟨fun m => .refl m, fun _ _ _ _ => rfl⟩
  getMember target key pos := ⟨Restoration.relation.getMember target key pos,
    sees_getMember target key pos⟩
  newArray _ := ⟨restores_alloc _, sees_alloc _⟩
  newInstance _ := ⟨restores_alloc _, sees_alloc _⟩
  newFunction _ _ _ := ⟨restores_alloc _, sees_alloc _⟩
  declareClass _ _ _ _ _ := ⟨restores_alloc _, sees_alloc _⟩
  declare name value constant pos := ⟨Restoration.relation.declare name value constant pos, by
    rw [Eval.declare_eq_search]
    exact sees_search fun _ _ _ => rfl⟩
  assign name value pos := ⟨Restoration.relation.assign name value pos, by
    rw [Eval.assign_eq_search]
    exact sees_search fun _ _ _ => rfl⟩
  setField target name value pos := ⟨restores_setMember target (.name name) value pos,
    sees_setMember target (.name name) value pos⟩
  noteExports names := ⟨Restoration.relation.noteExports names, fun _ _ _ _ => rfl⟩
  inNewScope bindings parent _ y hx := ⟨Restoration.relation.inNewScope bindings parent (y := y) hx.1,
    sees_bind (restores_alloc _) (sees_alloc _) fun scope => sees_inScope scope hx.2⟩

/-! ## Calls -/

/-- What sees the innermost call only sees no caller inside a call of its own. -/
theorem seesNoCaller_inNewCall {α : Type} (frame : Option Frame) (bindings : Dict Binding)
    (closure : ScopeRef) {x : Eval α} (hx : SeesInnermost x) :
    SeesNoCaller (Eval.inNewCall frame bindings closure x) := by
  intro m scope frames hlength
  rw [Eval.inNewCall_apply, Eval.inNewCall_apply]
  -- the machines inside the two calls differ in the frames below the innermost one only
  have hinside := hx (m.enterCall frame bindings closure) (frame :: frames)
    (congrArg (· + 1) hlength) rfl
  show onMachine _ (x ((m.enterCall frame bindings closure).withFrames (frame :: frames))) = _
  rw [hinside]
  cases x (m.enterCall frame bindings closure) <;> rfl

/-- A computation that sees no caller sees no frame below the innermost one. -/
theorem sees_of_seesNoCaller {α : Type} {x : Eval α} (hrestores : Restores x)
    (hx : SeesNoCaller x) : SeesInnermost x := by
  intro m frames hlength _
  have hsame := hx m m.environment frames hlength
  have hback := (hrestores m).environment
  unfold Eval.final at hback
  show x (m.calledFrom m.environment frames) = _
  rw [hsame]
  cases hxm : x m with
  | ok a m' =>
      rw [hxm] at hback
      rw [show m.environment = m'.environment from hback.symm]
      rfl
  | error halt m' =>
      rw [hxm] at hback
      rw [show m.environment = m'.environment from hback.symm]
      rfl

section Runners

variable {run : Runner}

theorem seesNoCaller_activate (hs : ∀ s, Restores (run.execute s) ∧ SeesInnermost (run.execute s))
    (routine : Routine) (closure : ScopeRef) (arguments : List Value) (frame : Option Frame) :
    SeesNoCaller (run.activate routine closure arguments frame) := by
  intro m scope frames hlength
  have hbody : SeesInnermost (run.executeAll routine.body) :=
    (EvalRelation.executeAll (R := relation) run run routine.body fun s _ => hs s).2
  let bindings := Heap.parameterBindings routine.parameters arguments .empty
  have hcall := seesNoCaller_inNewCall frame bindings closure hbody m scope frames hlength
  rw [Runner.activate_eq]
  cases hrun : Eval.inNewCall frame bindings closure (run.executeAll routine.body) m with
  | ok completion m' =>
      rw [hrun] at hcall
      rw [Eval.bind_ok _ hrun, Eval.bind_ok _ hcall]
      cases completion <;> rfl
  | error halt m' =>
      rw [hrun] at hcall
      rw [Eval.bind_error _ hrun, Eval.bind_error _ hcall]
      rfl

theorem seesNoCaller_callRoutine
    (hs : ∀ s, Restores (run.execute s) ∧ SeesInnermost (run.execute s)) (routine : Routine)
    (closure : ScopeRef) (arguments : List Value) (frame : Option Frame) (pos : Position) :
    SeesNoCaller (run.callRoutine routine closure arguments frame pos) := by
  intro m scope frames hlength
  have hdepth : (m.calledFrom scope frames).callDepth = m.callDepth := hlength
  have hlimits : (m.calledFrom scope frames).limits = m.limits := rfl
  rw [Runner.callRoutine_eq, Runner.callRoutine_eq, hdepth, hlimits]
  by_cases hdeep : m.limits.maxCallDepth ≤ m.callDepth
  · rw [if_pos hdeep, if_pos hdeep]
    rfl
  · rw [if_neg hdeep, if_neg hdeep]
    exact seesNoCaller_activate hs routine closure arguments frame m scope frames hlength

theorem seesNoCaller_callMethod
    (hs : ∀ s, Restores (run.execute s) ∧ SeesInnermost (run.execute s))
    (receiver : Option InstanceRef) (method : MethodRef) (home : ClassRef) (arguments : List Value)
    (pos : Position) : SeesNoCaller (run.callMethod receiver method home arguments pos) :=
  fun m => seesNoCaller_callRoutine hs (m.heap.method method).routine
    (m.heap.classObject home).closure arguments (some ⟨receiver, home⟩) pos m

theorem seesNoCaller_callValue
    (hs : ∀ s, Restores (run.execute s) ∧ SeesInnermost (run.execute s)) (callee : Value)
    (arguments : List Value) (pos : Position) :
    SeesNoCaller (run.callValue callee arguments pos) := by
  cases callee with
  | function f =>
      exact fun m => seesNoCaller_callRoutine hs (m.heap.function f).routine
        (m.heap.function f).closure arguments none pos m
  | bound receiver method home => exact seesNoCaller_callMethod hs receiver method home arguments pos
  | _ => exact fun _ _ _ _ => rfl

/-! ## Imports -/

theorem sees_loadModule (specifier : String) (pos : Position) :
    SeesInnermost (run.loadModule specifier pos) := by
  intro m frames _ _
  rcases Runner.loadModule_cases specifier pos m.modules m.moduleId with
    ⟨cause, hfail⟩ | ⟨exports, hdone⟩ | ⟨id, _, program, _, _, _, hrun⟩
  · rw [hfail run m rfl rfl, hfail run (m.withFrames frames) rfl rfl]
    rfl
  · rw [hdone run m rfl rfl, hdone run (m.withFrames frames) rfl rfl]
    rfl
  · -- the module runs on a machine of its own, which has no active calls
    rw [hrun run m rfl rfl, hrun run (m.withFrames frames) rfl rfl, Runner.importProgram_eq,
      Runner.importProgram_eq]
    show Eval.ofModule specifier id pos _ (run.runModule program (m.startModule id)) = _
    cases run.runModule program (m.startModule id) <;> rfl

/-! ## Whole runs -/

theorem respects (he : ∀ e, Restores (run.evaluate e) ∧ SeesInnermost (run.evaluate e))
    (hs : ∀ s, Restores (run.execute s) ∧ SeesInnermost (run.execute s)) (d : Nat) :
    relation.Respects d run run where
  evaluate e _ := he e
  execute s _ := hs s
  callValue callee arguments pos :=
    have hrestores := restores_callValue (fun s => (hs s).1) callee arguments pos
    ⟨hrestores, sees_of_seesNoCaller hrestores (seesNoCaller_callValue hs callee arguments pos)⟩
  callMethod receiver method home arguments pos :=
    have hrestores := restores_callMethod (fun s => (hs s).1) receiver method home arguments pos
    ⟨hrestores, sees_of_seesNoCaller hrestores
      (seesNoCaller_callMethod hs receiver method home arguments pos)⟩
  loop condition body pos _ _ := by
    have hloop : ∀ n, relation.rel (run.loop condition body pos n) (run.loop condition body pos n) :=
      fun n => EvalRelation.loop (R := relation) run run n
        ⟨fun m => .refl m, fun _ _ _ _ => rfl⟩ (he condition) (hs body)
    exact ⟨fun m => (hloop m.limits.maxIterations).1 m, fun m => (hloop m.limits.maxIterations).2 m⟩
  print _ := ⟨fun _ => ⟨rfl, rfl, rfl, rfl, rfl, rfl, rfl⟩, fun _ _ _ _ => rfl⟩
  loadModule specifier pos :=
    ⟨restores_loadModule (fun s => (hs s).1) specifier pos, sees_loadModule specifier pos⟩

end Runners

theorem sees_within (n : Nat) :
    (∀ e, Restores (evaluate n e) ∧ SeesInnermost (evaluate n e)) ∧
    (∀ s, Restores (execute n s) ∧ SeesInnermost (execute n s)) := by
  induction n with
  | zero =>
      exact ⟨fun _ => ⟨fun m => .refl m, fun _ _ _ _ => rfl⟩,
        fun _ => ⟨fun m => .refl m, fun _ _ _ _ => rfl⟩⟩
  | succ n ih =>
      have hrun : ∀ d, relation.Respects d (Runner.within n) (Runner.within n) :=
        respects ih.1 ih.2
      refine ⟨fun e => ?_, fun s => EvalRelation.statement (R := relation) trivial (hrun s.depth)⟩
      exact ExprRelation.expression_of_setMember (hrun e.depth).toRespectsParts fun o k v pos =>
        ⟨restores_setMember o (.computed k) v pos, sees_setMember o (.computed k) v pos⟩

/-! ## Two callers -/

section Agreement

variable {α : Type} {x : Eval α} {m m' : Machine}

/-- A result agrees with the same result that has come back to another caller. -/
theorem agree_calledFrom (hrestores : Restores x) (h : m.AgreeBeyondCaller m')
    {change : Machine → Machine}
    (hchange : ∀ ended, ∃ scope, change ended = ended.calledFrom scope m'.frames) :
    Eval.AgreeBeyondCaller (x m) (onMachine change (x m)) := by
  have hback : (Eval.machineOf (x m)).frames = m.frames := (hrestores m).frames
  have hdepth : m'.frames.length = (Eval.machineOf (x m)).callDepth := by
    unfold Machine.callDepth
    rw [hback]
    exact h.callDepth
  obtain ⟨scope, hscope⟩ := hchange (Eval.machineOf (x m))
  refine Eval.agreeBeyondCaller_onMachine ?_
  rw [hscope]
  exact Machine.agreeBeyondCaller_calledFrom scope hdepth

theorem agree_of_seesNoCaller (hrestores : Restores x) (hx : SeesNoCaller x)
    (h : m.AgreeBeyondCaller m') : Eval.AgreeBeyondCaller (x m) (x m') := by
  rw [h.eq_calledFrom, hx m m'.environment m'.frames h.callDepth]
  exact agree_calledFrom hrestores h fun _ => ⟨m'.environment, rfl⟩

/-- Inside a call, a computation agrees if the machines have the same scope and the same innermost
frame. -/
theorem agree_of_seesInnermost (hrestores : Restores x) (hx : SeesInnermost x)
    (h : m.AgreeBeyondCaller m') (henvironment : m'.environment = m.environment)
    (hframe : m'.frame? = m.frame?) : Eval.AgreeBeyondCaller (x m) (x m') := by
  have hother : m' = m.withFrames m'.frames := by
    have hcaller := h.eq_calledFrom
    rw [henvironment] at hcaller
    exact hcaller
  rw [hother] at hframe ⊢
  rw [hx m m'.frames h.callDepth hframe]
  exact agree_calledFrom hrestores h fun ended => ⟨ended.environment, rfl⟩

end Agreement

end LexicalScope

open LexicalScope Restoration in
/-- **Calls are lexically scoped.** From two machines that agree on everything but the caller, a call
gives the same value or halts for the same reason, and the machines agree in the same way afterwards.
A call always ends, and what is said of it holds under every bound on the nesting. Inside a call,
where the scope and the innermost frame are the same, everything that runs agrees as well: callers of
callers are no more visible than callers. -/
theorem calls_lexically_scoped {m m' : Machine} (h : m.AgreeBeyondCaller m') :
    (∀ callee arguments pos,
      ¬ Nesting.Exhausted (Machine.call callee arguments pos m) ∧
      Eval.AgreeBeyondCaller (Machine.call callee arguments pos m)
        (Machine.call callee arguments pos m')) ∧
    (∀ n callee arguments pos,
      Eval.AgreeBeyondCaller ((Runner.within n).callValue callee arguments pos m)
        ((Runner.within n).callValue callee arguments pos m')) ∧
    (m'.environment = m.environment → m'.frame? = m.frame? → ∀ n,
      (∀ e, Eval.AgreeBeyondCaller (evaluate n e m) (evaluate n e m')) ∧
      (∀ s, Eval.AgreeBeyondCaller (execute n s m) (execute n s m'))) := by
  have hcall : ∀ n callee arguments pos,
      Eval.AgreeBeyondCaller ((Runner.within n).callValue callee arguments pos m)
        ((Runner.within n).callValue callee arguments pos m') := by
    intro n callee arguments pos
    exact agree_of_seesNoCaller
      (restores_callValue (restores_within n).2 callee arguments pos)
      (seesNoCaller_callValue (sees_within n).2 callee arguments pos) h
  refine ⟨fun callee arguments pos => ⟨Nesting.call_ends callee arguments pos m, ?_⟩, hcall,
    fun henvironment hframe n => ⟨fun e => ?_, fun s => ?_⟩⟩
  · -- the bound on the nesting is computed from parts on which the machines agree
    have hbound : m'.nesting 0 = m.nesting 0 := by
      rw [h.eq_calledFrom]
      rfl
    show Eval.AgreeBeyondCaller ((Runner.within (m.nesting 0)).callValue callee arguments pos m)
      ((Runner.within (m'.nesting 0)).callValue callee arguments pos m')
    rw [hbound]
    exact hcall _ callee arguments pos
  · have he := (sees_within n).1 e
    exact agree_of_seesInnermost he.1 he.2 h henvironment hframe
  · have hs := (sees_within n).2 s
    exact agree_of_seesInnermost hs.1 hs.2 h henvironment hframe

/-- A machine inside a method of an instance, in a scope that binds `x`. The function on its heap
gives back the value of `x`, and was declared where there is none. -/
def LexicalScope.callerWithName : Machine where
  heap :=
    { scopes := #[⟨.empty, none⟩, ⟨.insert .empty "x" ⟨.bool true, false⟩, some ⟨0⟩⟩]
      arrays := #[]
      functions := #[⟨⟨"f", [], [.giveBack (some (.identifier "x" .start)) .start]⟩, ⟨0⟩⟩]
      methods := #[]
      classes := #[⟨"A", none, .empty, .empty, ⟨0⟩⟩]
      instances := #[⟨⟨0⟩, .empty⟩] }
  globals := ⟨0⟩
  environment := ⟨1⟩
  frames := [some ⟨some ⟨0⟩, ⟨0⟩⟩, none]
  limits := .standard
  output := #[]
  exports := #[]
  moduleId := none
  modules := .fresh MemoryModules.empty.loader

open LexicalScope in
/-- The function is called from the scope that binds `x`, inside the method, and from the outermost
scope, inside functions; and the name is read there with other callers below. -/
theorem calls_lexically_scoped_name :
    Eval.AgreeBeyondCaller (Machine.call (.function ⟨0⟩) [] .start callerWithName)
      (Machine.call (.function ⟨0⟩) [] .start (callerWithName.calledFrom ⟨0⟩ [none, none])) ∧
    Eval.AgreeBeyondCaller (evaluate 1 (.identifier "x" .start) callerWithName)
      (evaluate 1 (.identifier "x" .start)
        (callerWithName.withFrames [some ⟨some ⟨0⟩, ⟨0⟩⟩, some ⟨none, ⟨0⟩⟩])) := by
  have hcallers : callerWithName.AgreeBeyondCaller
      (callerWithName.calledFrom ⟨0⟩ [none, none]) :=
    ⟨rfl, rfl, rfl, rfl, rfl, rfl, rfl, rfl⟩
  have hbelow : callerWithName.AgreeBeyondCaller
      (callerWithName.withFrames [some ⟨some ⟨0⟩, ⟨0⟩⟩, some ⟨none, ⟨0⟩⟩]) :=
    ⟨rfl, rfl, rfl, rfl, rfl, rfl, rfl, rfl⟩
  exact ⟨((calls_lexically_scoped hcallers).1 _ _ _).2,
    ((calls_lexically_scoped hbelow).2.2 rfl rfl 1).1 _⟩

end Lipi
