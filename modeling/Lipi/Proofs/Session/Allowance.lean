import Lipi.Proofs.Machine.Nesting
import Lipi.Proofs.Machine.Oblivious
import Lipi.Module.Memory
import Lipi.Session

set_option autoImplicit false

/-! # Runs under larger limits

Limits only ever cut a run short. **Under larger limits a run does the same, unless a limit stopped
it; then what it had printed is the beginning of what is printed under the larger limits**
(`Session.run_allowance`).

Two runs are compared, of which the right one has the larger limits. As long as no limit stops the
left run, their machines differ in nothing but the limits: no construct of the language can read
them. Once the left run has failed for a limit, all that matters is that the right one takes nothing
back that it has printed. A failure for a limit is never lost on the way out, since an import wraps
it and nothing in the language catches it.
-/

namespace Lipi

/-- Limits allow no more than others. -/
structure Limits.Within (small large : Limits) : Prop where
  iterations : small.maxIterations ≤ large.maxIterations
  calls : small.maxCallDepth ≤ large.maxCallDepth

/-- A failure for a limit: of a loop or of a call, or of the import of a module that failed so. -/
inductive RuntimeError.ForLimit : RuntimeError → Prop where
  | loop (n : Nat) (pos : Option Position) : ForLimit ⟨.loopLimit n, pos⟩
  | calls (n : Nat) (pos : Option Position) : ForLimit ⟨.recursionLimit n, pos⟩
  | ofModule {e : RuntimeError} (h : ForLimit e) (specifier : String) (pos : Option Position) :
      ForLimit ⟨.moduleLoad specifier e.message, pos⟩

/-- The import of a module that failed for a limit fails for a limit. -/
theorem RuntimeError.ForLimit.wrapped {e : RuntimeError} (h : e.ForLimit) (specifier : String)
    (pos : Position) : (e.ofModule specifier pos).ForLimit := by
  have hwrap : e.ofModule specifier pos = ⟨.moduleLoad specifier e.message, some pos⟩ := by
    cases h <;> rfl
  rw [hwrap]
  exact .ofModule h specifier _

/-- A machine with other limits. -/
def Machine.withLimits (m : Machine) (limits : Limits) : Machine :=
  { m with limits }

theorem Machine.aside_withLimits (limits : Limits) : Machine.Aside (·.withLimits limits) :=
  ⟨fun _ => rfl, fun _ => rfl, fun _ => rfl, fun _ => rfl, fun _ => rfl, fun _ _ _ => rfl⟩

namespace Allowance

open Restoration
open Eval (onMachine machineOf_onMachine)
open Machine (aside_withLimits)

/-- A result whose machine has other limits. -/
def withLimits {α : Type} (limits : Limits) :
    EStateM.Result Halt Machine α → EStateM.Result Halt Machine α :=
  onMachine (·.withLimits limits)

/-- The right result is the left one under larger limits, or the left run failed for a limit and
had printed the beginning of what the right one printed. -/
def Agrees {α : Type} (large : Limits) (r r' : EStateM.Result Halt Machine α) : Prop :=
  (r' = withLimits large r ∧ (Eval.machineOf r).limits.Within large) ∨
  ∃ e m, r = .error (.failed e) m ∧ e.ForLimit ∧
    m.output.toList <+: (Eval.machineOf r').output.toList

/-- The right computation does under larger limits what the left one does, and takes back nothing
that has been printed. -/
structure Simulates {α : Type} (large : Limits) (x y : Eval α) : Prop where
  agrees : ∀ m : Machine, m.limits.Within large → Agrees large (x m) (y (m.withLimits large))
  grows : ∀ m : Machine, m.output.toList <+: (y.final m).output.toList

variable {large : Limits}

/-! ## Steps that do not look at the limits -/

theorem simulates_of_blind {α : Type} {x : Eval α} (hrestores : Restores x)
    (hblind : x.Oblivious (·.withLimits large))
    (hgrows : ∀ m, m.output.toList <+: (x.final m).output.toList) : Simulates large x x where
  agrees m hm := by
    refine Or.inl ⟨hblind m, ?_⟩
    have hlimits := (hrestores m).limits
    unfold Eval.final at hlimits
    rw [hlimits]
    exact hm
  grows := hgrows

theorem simulates_of_quiet {α : Type} {x : Eval α} (hrestores : Restores x)
    (hblind : x.Oblivious (·.withLimits large)) (hquiet : x.Quiet) : Simulates large x x := by
  refine simulates_of_blind hrestores hblind fun m => ?_
  simp only [hquiet.output m, List.prefix_rfl]

theorem simulates_of_elementary {α : Type} {x : Eval α} (hx : x.Elementary)
    (hblind : x.Oblivious (·.withLimits large)) : Simulates large x x :=
  simulates_of_quiet (.of_elementary hx) hblind hx.quiet

theorem simulates_alloc {α : Type} (make : Heap → α × Heap) :
    Simulates large (Eval.alloc make) (Eval.alloc make) :=
  simulates_of_elementary (Eval.elementary_alloc make)
    (Eval.oblivious_alloc (aside_withLimits large) make)

theorem simulates_fail {α : Type} (cause : RuntimeError.Cause) (pos : Position) :
    Simulates large (Eval.fail cause pos : Eval α) (Eval.fail cause pos) :=
  simulates_of_elementary (Eval.elementary_fail cause pos) fun _ => rfl

theorem simulates_setMember (target : Value) (key : Key) (value : Value) (pos : Position) :
    Simulates large (Eval.setMember target key value pos) (Eval.setMember target key value pos) :=
  simulates_of_quiet (restores_setMember target key value pos)
    (Eval.oblivious_setMember (aside_withLimits large) target key value pos)
    (Eval.quiet_setMember target key value pos)

theorem simulates_collectExports :
    Simulates large Eval.collectExports Eval.collectExports :=
  simulates_of_elementary Eval.elementary_collectExports
    (Eval.oblivious_collectExports (aside_withLimits large))

/-! ## Steps made of steps -/

/-- What comes after a step that agrees agrees, if it takes nothing back. -/
theorem simulates_bind {α β : Type} {x y : Eval α} {f g : α → Eval β} (hx : Simulates large x y)
    (hf : ∀ a, Simulates large (f a) (g a)) : Simulates large (x >>= f) (y >>= g) := by
  have hgrows : ∀ m : Machine,
      (y.final m).output.toList <+: ((y >>= g).final m).output.toList := by
    intro m
    rcases Eval.final_bind y g m with ⟨a, h⟩ | h
    · rw [h]
      exact (hf a).grows _
    · simp only [h, List.prefix_rfl]
  refine ⟨fun m hm => ?_, fun m => (hx.grows m).trans (hgrows m)⟩
  have hafter := hgrows (m.withLimits large)
  unfold Eval.final at hafter
  rcases hx.agrees m hm with ⟨hsame, hlimits⟩ | ⟨e, m', hfailed, hlimit, hprinted⟩
  · cases hxm : x m with
    | ok a m' =>
        rw [hxm] at hlimits hsame
        rw [Eval.bind_ok f hxm, Eval.bind_ok g hsame]
        exact (hf a).agrees m' hlimits
    | error halt m' =>
        rw [hxm] at hlimits hsame
        rw [Eval.bind_error f hxm, Eval.bind_error g hsame]
        exact Or.inl ⟨rfl, hlimits⟩
  · exact Or.inr ⟨e, m', Eval.bind_error f hfailed, hlimit, hprinted.trans hafter⟩

theorem simulates_ask {α : Type} {f g : Heap → ScopeRef → Option Frame → Nat → Eval α}
    (hf : ∀ h s frame depth, Simulates large (f h s frame depth) (g h s frame depth)) :
    Simulates large (fun m => f m.heap m.environment m.frame? m.callDepth m)
      (fun m => g m.heap m.environment m.frame? m.callDepth m) where
  agrees m hm := (hf m.heap m.environment m.frame? m.callDepth).agrees m hm
  grows m := (hf m.heap m.environment m.frame? m.callDepth).grows m

/-- Running on a changed machine and changing back agrees, if the changes touch neither limits nor
output. -/
theorem simulates_around {α : Type} {x y : Eval α} (enter : Machine → Machine)
    (leave : Machine → Machine → Machine)
    (henter : ∀ m, enter (m.withLimits large) = (enter m).withLimits large)
    (hleave : ∀ m m', leave (m.withLimits large) (m'.withLimits large)
      = (leave m m').withLimits large)
    (hlimits : ∀ m, (enter m).limits = m.limits) (hlimits' : ∀ m m', (leave m m').limits = m'.limits)
    (houtput : ∀ m, (enter m).output = m.output) (houtput' : ∀ m m', (leave m m').output = m'.output)
    (hx : Simulates large x y) :
    Simulates large (fun m => onMachine (leave m) (x (enter m)))
      (fun m => onMachine (leave m) (y (enter m))) := by
  refine ⟨fun m hm => ?_, fun m => ?_⟩
  · have hinner := hx.agrees (enter m) (by rw [hlimits]; exact hm)
    show Agrees large (onMachine (leave m) (x (enter m)))
      (onMachine (leave (m.withLimits large)) (y (enter (m.withLimits large))))
    rw [henter]
    -- the two agree, or the run under the smaller limits has failed for a limit
    rcases hinner with ⟨hsame, hwithin⟩ | ⟨e, m', hfailed, hlimit, hprinted⟩
    · refine Or.inl ⟨?_, ?_⟩
      · rw [hsame]
        cases x (enter m) <;> simp only [withLimits, onMachine, hleave]
      · rw [machineOf_onMachine, hlimits']
        exact hwithin
    · rw [hfailed]
      refine Or.inr ⟨e, leave m m', rfl, hlimit, ?_⟩
      rw [machineOf_onMachine, houtput', houtput']
      exact hprinted
  · have hinner := hx.grows (enter m)
    unfold Eval.final at hinner ⊢
    rw [machineOf_onMachine, houtput', ← houtput m]
    exact hinner

theorem simulates_inScope {α : Type} (scope : ScopeRef) {x y : Eval α} (hx : Simulates large x y) :
    Simulates large (Eval.inScope scope x) (Eval.inScope scope y) :=
  simulates_around (fun m => { m with environment := scope })
    (fun m m' => { m' with environment := m.environment }) (fun _ => rfl) (fun _ _ => rfl)
    (fun _ => rfl) (fun _ _ => rfl) (fun _ => rfl) (fun _ _ => rfl) hx

theorem simulates_inCall {α : Type} (frame : Option Frame) {x y : Eval α}
    (hx : Simulates large x y) : Simulates large (Eval.inCall frame x) (Eval.inCall frame y) :=
  simulates_around (fun m => { m with frames := frame :: m.frames })
    (fun _ m' => { m' with frames := m'.frames.tail }) (fun _ => rfl) (fun _ _ => rfl)
    (fun _ => rfl) (fun _ _ => rfl) (fun _ => rfl) (fun _ _ => rfl) hx

theorem simulates_inNewCall {α : Type} {frame : Option Frame} {bindings : Dict Binding}
    {closure : ScopeRef} {x y : Eval α} (hx : Simulates large x y) :
    Simulates large (Eval.inNewCall frame bindings closure x)
      (Eval.inNewCall frame bindings closure y) :=
  simulates_bind (simulates_alloc _) fun scope =>
    simulates_inCall frame (simulates_inScope scope hx)

variable (large)

/-- Doing the same under larger limits as a relation. -/
def simulation : EvalRelation where
  rel := Simulates large
  fits _ := True
  fits_mono _ _ := trivial
  pure a := simulates_of_elementary (Eval.elementary_pure a) fun _ => rfl
  bind hx hf := simulates_bind hx hf
  ask hf := simulates_ask hf
  fail cause pos _ := simulates_fail cause pos
  getMember target key pos := simulates_of_elementary (Eval.elementary_getMember target key pos)
    (Eval.oblivious_getMember (aside_withLimits large) target key pos)
  newArray _ := simulates_alloc _
  newInstance _ := simulates_alloc _
  newFunction _ _ _ := simulates_alloc _
  declareClass _ _ _ _ _ := simulates_alloc _
  declare name value constant pos := simulates_of_elementary
    (Eval.elementary_declare name value constant pos)
    (Eval.oblivious_declare (aside_withLimits large) name value constant pos)
  assign name value pos := simulates_of_elementary (Eval.elementary_assign name value pos)
    (Eval.oblivious_assign (aside_withLimits large) name value pos)
  setField target name value pos := simulates_setMember target (.name name) value pos
  noteExports names := simulates_of_blind (relation.noteExports names) (fun _ => rfl)
    fun _ => List.prefix_rfl
  inNewScope _ _ _ _ hx := simulates_bind (simulates_alloc _) fun scope => simulates_inScope scope hx

variable {large}

/-! ## Loops, calls and imports -/

section Runners

variable {run : Runner}

/-- A computation that fails for a limit at once agrees with every one that takes nothing back. -/
theorem simulates_of_limit {α : Type} {x y : Eval α}
    (hx : ∀ m, ∃ e, x m = .error (.failed e) m ∧ e.ForLimit)
    (hy : ∀ m : Machine, m.output.toList <+: (y.final m).output.toList) : Simulates large x y := by
  refine ⟨fun m _ => ?_, hy⟩
  obtain ⟨e, hfailed, hlimit⟩ := hx m
  exact Or.inr ⟨e, m, hfailed, hlimit, hy (m.withLimits large)⟩

/-- What a loop does after its body has run, with `n` more iterations allowed. -/
def afterRound (run : Runner) (condition : Expr) (body : Statement) (pos : Position) (n : Nat) :
    Completion → Eval Completion
  | .normal => run.loop condition body pos n
  | .returned value => pure (.returned value)

/-- A loop that may run more iterations does the same as one that is not stopped. -/
theorem simulates_loop {condition : Expr} {body : Statement} (pos : Position)
    (hc : Simulates large (run.evaluate condition) (run.evaluate condition))
    (hb : Simulates large (run.execute body) (run.execute body)) {n k : Nat} (hnk : n ≤ k) :
    Simulates large (run.loop condition body pos n) (run.loop condition body pos k) := by
  have hstop : ∀ m : Machine, ∃ e,
      (Eval.fail (.loopLimit m.limits.maxIterations) pos : Eval Completion) m = .error (.failed e) m
        ∧ e.ForLimit :=
    fun m => ⟨_, rfl, .loop _ _⟩
  have hsame : ∀ i, Simulates large (run.loop condition body pos i) (run.loop condition body pos i) :=
    fun i => EvalRelation.loop (R := simulation large) run run i
      (simulates_of_limit hstop fun _ => List.prefix_rfl) hc hb
  -- what a loop does after its condition held and before it runs out of iterations
  have hround : ∀ {i j : Nat}, Simulates large (run.loop condition body pos i)
      (run.loop condition body pos j) →
      Simulates large (run.execute body >>= afterRound run condition body pos i)
        (run.execute body >>= afterRound run condition body pos j) := by
    intro i j hij
    refine simulates_bind hb fun completion => ?_
    cases completion with
    | normal => exact hij
    | returned value => exact (simulation large).pure _
  induction n generalizing k with
  | zero =>
      cases k with
      | zero => exact hsame 0
      | succ k =>
          refine simulates_bind hc fun v => ?_
          cases v.isTruthy with
          | true => exact simulates_of_limit hstop (hround (hsame k)).grows
          | false => exact (simulation large).pure _
  | succ n ih =>
      obtain ⟨k, rfl⟩ : ∃ j, k = j + 1 := ⟨k - 1, by omega⟩
      refine simulates_bind hc fun v => ?_
      cases v.isTruthy with
      | true => exact hround (ih (Nat.le_of_succ_le_succ hnk))
      | false => exact (simulation large).pure _

theorem simulates_callRoutine (hs : ∀ s, Simulates large (run.execute s) (run.execute s))
    (routine : Routine) (closure : ScopeRef) (arguments : List Value) (frame : Option Frame)
    (pos : Position) :
    Simulates large (run.callRoutine routine closure arguments frame pos)
      (run.callRoutine routine closure arguments frame pos) := by
  have hbody : Simulates large (run.activate routine closure arguments frame)
      (run.activate routine closure arguments frame) :=
    EvalRelation.activate (R := simulation large) run run (fun _ _ _ hx => simulates_inNewCall hx)
      fun s _ => hs s
  have hgrows : ∀ m : Machine, m.output.toList
      <+: ((run.callRoutine routine closure arguments frame pos).final m).output.toList := by
    intro m
    have hm := hbody.grows m
    unfold Eval.final at hm ⊢
    rw [Runner.callRoutine_eq]
    by_cases hdeep : m.limits.maxCallDepth ≤ m.callDepth
    · rw [if_pos hdeep]
      exact List.prefix_rfl
    · rw [if_neg hdeep]
      exact hm
  refine ⟨fun m hm => ?_, hgrows⟩
  by_cases hdeep : m.limits.maxCallDepth ≤ m.callDepth
  · have hafter := hgrows (m.withLimits large)
    rw [Runner.callRoutine_eq, if_pos hdeep]
    exact Or.inr ⟨_, m, rfl, .calls _ _, hafter⟩
  · -- the larger limit does not stop the call either
    have hroom : ¬ (m.withLimits large).limits.maxCallDepth ≤ (m.withLimits large).callDepth := by
      have hcalls := hm.calls
      show ¬ large.maxCallDepth ≤ m.callDepth
      omega
    rw [Runner.callRoutine_eq, Runner.callRoutine_eq, if_neg hdeep, if_neg hroom]
    exact hbody.agrees m hm

theorem simulates_importProgram (hs : ∀ s, Simulates large (run.execute s) (run.execute s))
    (specifier : String) (id : ModuleId) (program : Program) (pos : Position) :
    Simulates large (run.importProgram specifier id program pos)
      (run.importProgram specifier id program pos) := by
  have hrun : Simulates large (run.runModule program) (run.runModule program) := by
    rw [Runner.runModule_eq]
    exact simulates_bind (EvalRelation.executeProgram (R := simulation large) run run _
      fun s _ => hs s) fun _ => simulates_collectExports
  -- what the importer has printed stands before what the module prints
  have houtput : ∀ m : Machine,
      ((run.importProgram specifier id program pos).final m).output
        = m.output ++ ((run.runModule program).final (m.startModule id)).output := by
    intro m
    unfold Eval.final Runner.importProgram
    cases run.runModule program (m.startModule id) with
    | ok exports ended => rfl
    | error halt ended => cases halt <;> rfl
  refine ⟨fun m hm => ?_, fun m => ?_⟩
  · have hafter := houtput (m.withLimits large)
    rcases hrun.agrees (m.startModule id) hm with
      ⟨hsame, _⟩ | ⟨e, ended, hfailed, hlimit, hprinted⟩
    · have hlarge : run.runModule program ((m.withLimits large).startModule id)
          = withLimits large (run.runModule program (m.startModule id)) := hsame
      unfold Runner.importProgram
      rw [hlarge]
      cases run.runModule program (m.startModule id) with
      | ok exports ended => exact Or.inl ⟨rfl, hm⟩
      | error halt ended => cases halt <;> exact Or.inl ⟨rfl, hm⟩
    · have hmine : run.importProgram specifier id program pos m
          = .error (.failed (e.ofModule specifier pos)) (m.resume ended id) := by
        unfold Runner.importProgram
        rw [hfailed]
      rw [hmine]
      refine Or.inr ⟨_, _, rfl, hlimit.wrapped specifier pos, ?_⟩
      unfold Eval.final at hafter
      rw [hafter, Array.toList_append]
      show (m.output ++ ended.output).toList <+: _
      rw [Array.toList_append]
      exact (List.prefix_append_right_inj _).mpr hprinted
  · rw [houtput, Array.toList_append]
    exact List.prefix_append _ _

theorem simulates_loadModule (hs : ∀ s, Simulates large (run.execute s) (run.execute s))
    (specifier : String) (pos : Position) :
    Simulates large (run.loadModule specifier pos) (run.loadModule specifier pos) := by
  -- what is loaded depends on the machine, but not on its limits
  have hone : ∀ m : Machine, ∃ x : Eval Exports, Simulates large x x ∧
      run.loadModule specifier pos m = x m ∧
      run.loadModule specifier pos (m.withLimits large) = x (m.withLimits large) := by
    intro m
    rcases Runner.loadModule_cases specifier pos m.modules m.moduleId with
      ⟨cause, hfail⟩ | ⟨exports, hdone⟩ | ⟨id, _, program, _, _, _, hload⟩
    · exact ⟨Eval.fail cause pos, simulates_fail cause pos, hfail run _ rfl rfl, hfail run _ rfl rfl⟩
    · exact ⟨pure exports, (simulation large).pure exports, hdone run _ rfl rfl,
        hdone run _ rfl rfl⟩
    · exact ⟨run.importProgram specifier id program pos,
        simulates_importProgram hs specifier id program pos, hload run _ rfl rfl,
        hload run _ rfl rfl⟩
  refine ⟨fun m hm => ?_, fun m => ?_⟩
  · obtain ⟨x, hx, hleft, hright⟩ := hone m
    rw [hleft, hright]
    exact hx.agrees m hm
  · obtain ⟨x, hx, hleft, _⟩ := hone m
    have hgrows := hx.grows m
    unfold Eval.final at hgrows ⊢
    rw [hleft]
    exact hgrows

variable (run)

theorem simulation_respects (he : ∀ e, Simulates large (run.evaluate e) (run.evaluate e))
    (hs : ∀ s, Simulates large (run.execute s) (run.execute s)) (d : Nat) :
    (simulation large).Respects d run run where
  evaluate e _ := he e
  execute s _ := hs s
  callMethod := ExprRelation.callMethod run run (simulates_callRoutine hs)
  callValue := ExprRelation.callValue run run (simulates_callRoutine hs)
  loop condition body pos _ _ := by
    have hloop : ∀ {i j : Nat}, i ≤ j → Simulates large (run.loop condition body pos i)
        (run.loop condition body pos j) := fun hij =>
      simulates_loop pos (he condition) (hs body) hij
    exact ⟨fun m hm => (hloop hm.iterations).agrees m hm,
      fun m => (hloop (Nat.le_refl m.limits.maxIterations)).grows m⟩
  print line := by
    refine simulates_of_blind (fun _ => ⟨rfl, rfl, rfl, rfl, rfl, rfl, rfl⟩) (fun _ => rfl) fun m => ?_
    show m.output.toList <+: (m.output.push line).toList
    rw [Array.toList_push]
    exact List.prefix_append _ _
  loadModule specifier pos := simulates_loadModule hs specifier pos

end Runners

/-- **Every tree does under larger limits what it does unless a limit stops it.** -/
theorem simulates_within (large : Limits) (n : Nat) :
    (∀ e, Simulates large (evaluate n e) (evaluate n e)) ∧
    (∀ s, Simulates large (execute n s) (execute n s)) := by
  induction n with
  | zero =>
      have hzero : ∀ {α : Type}, Simulates large (throw .exhausted : Eval α) (throw .exhausted) :=
        simulates_of_blind (fun m => .refl m) (fun _ => rfl) fun _ => List.prefix_rfl
      exact ⟨fun _ => hzero, fun _ => hzero⟩
  | succ n ih =>
      have hrun := simulation_respects ⟨evaluate n, execute n⟩ ih.1 ih.2
      exact ⟨fun e => ExprRelation.expression_of_setMember (hrun e.depth).toRespectsParts
          fun o k v pos => simulates_setMember o (.computed k) v pos,
        fun s => EvalRelation.statement trivial (hrun s.depth)⟩

/-- **A program does under larger limits what it does unless a limit stops it**, with room to nest
in both runs. -/
theorem interpret_agrees (large : Limits) (program : Program) (m : Machine)
    (hm : m.limits.Within large) :
    Agrees large (Machine.interpret program m) (Machine.interpret program (m.withLimits large)) := by
  let n := max (m.nesting program.depth) ((m.withLimits large).nesting program.depth)
  have hsmall := (Nesting.interpret_eq program m (Nat.le_max_left _ _ : _ ≤ n)).1
  have hlarge := (Nesting.interpret_eq program (m.withLimits large) (Nat.le_max_right _ _ : _ ≤ n)).1
  rw [← hsmall, ← hlarge]
  have hrun : Simulates large ((Runner.within n).executeProgram program.body)
      ((Runner.within n).executeProgram program.body) :=
    EvalRelation.executeProgram (R := simulation large) (Runner.within n) (Runner.within n) _
      fun s _ => (simulates_within large n).2 s
  exact hrun.agrees m hm

end Allowance

/-! ## Sessions -/

/-- The lines that a run printed. -/
def Outcome.lines : Outcome → List String
  | .rejected _ => []
  | .completed lines => lines
  | .halted _ lines => lines

namespace Session

/-- A session with other limits. -/
def withLimits (session : Session) (limits : Limits) : Session :=
  { session with limits }

/-- Programs under larger limits, whether or not they come from a text. -/
theorem runProgram_withLimits (session : Session) (program : Program) {limits : Limits}
    (hlimits : session.limits.Within limits) :
    (session.withLimits limits).runProgram program = session.runProgram program ∨
    ∃ e lines, session.runProgram program = .halted (.failed e) lines ∧ e.ForLimit ∧
      lines <+: ((session.withLimits limits).runProgram program).lines := by
  have hagrees := Allowance.interpret_agrees limits program session.machine hlimits
  have hmachine : (session.withLimits limits).machine = session.machine.withLimits limits := rfl
  unfold runProgram
  rw [hmachine]
  rcases hagrees with ⟨hsame, _⟩ | ⟨e, m, hfailed, hlimit, hprinted⟩
  · left
    rw [hsame]
    cases Machine.interpret program session.machine <;> rfl
  · right
    refine ⟨e, m.output.toList, by rw [hfailed], hlimit, ?_⟩
    cases hlarge : Machine.interpret program (session.machine.withLimits limits) with
    | ok _ m' =>
        rw [hlarge] at hprinted
        exact hprinted
    | error halt m' =>
        rw [hlarge] at hprinted
        exact hprinted

/-- **Larger limits change nothing but runs that a limit stopped.** A run has the same outcome under
larger limits, or it fails for a limit after printing a beginning of what is printed under the larger
ones. In particular a run that completes does the same under all larger limits. -/
theorem run_allowance (session : Session) (text : String) (limits : Limits)
    (hlimits : session.limits.Within limits) :
    ((session.withLimits limits).run text = session.run text ∨
      ∃ e lines, session.run text = .halted (.failed e) lines ∧ e.ForLimit ∧
        lines <+: ((session.withLimits limits).run text).lines) ∧
    ∀ lines, session.run text = .completed lines →
      (session.withLimits limits).run text = .completed lines := by
  have hfirst : (session.withLimits limits).run text = session.run text ∨
      ∃ e lines, session.run text = .halted (.failed e) lines ∧ e.ForLimit ∧
        lines <+: ((session.withLimits limits).run text).lines := by
    unfold run
    cases Program.ofText text with
    | error errors => exact Or.inl rfl
    | ok program => exact session.runProgram_withLimits program hlimits
  refine ⟨hfirst, fun lines hcompleted => ?_⟩
  rcases hfirst with hsame | ⟨e, printed, hfailed, _⟩
  · rw [hsame, hcompleted]
  · rw [hcompleted] at hfailed
    cases hfailed

/-- A loop of three rounds, run with two rounds allowed and with the standard limits. -/
theorem run_allowance_loop :
    let session : Session := ⟨⟨2, 5⟩, MemoryModules.empty.loader, none⟩
    let text := "rakho i = 0\njabtak i < 3 \x7b\nchaap i\ni = i + 1\n\x7d"
    session.limits.Within .standard ∧
    ((session.withLimits .standard).run text = session.run text ∨
      ∃ e lines, session.run text = .halted (.failed e) lines ∧ e.ForLimit ∧
        lines <+: ((session.withLimits .standard).run text).lines) ∧
    ∀ lines, session.run text = .completed lines →
      (session.withLimits .standard).run text = .completed lines := by
  intro session text
  have hlimits : session.limits.Within .standard := ⟨by decide, by decide⟩
  exact ⟨hlimits, run_allowance session text .standard hlimits⟩

end Session

end Lipi
