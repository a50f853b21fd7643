import Lipi.Proofs.Machine.History

set_option autoImplicit false

/-! # What a watched run tells

**A watched run is the run itself, told in its journal.** If a watch asks nothing that does not
follow from the history of the run, then the watched run gives the same result on the same machine,
but for the output, which is the journal of the events that have happened (`Telling.tells_within`).
And the run prints the lines of these events, in their order: what a module prints reaches the
importer when the module ends, and nothing else has been printed there in the meantime.
-/

namespace Lipi

namespace Watch

variable (w : Watch)

theorem journal_concat (past : List Event) (event : Event) :
    w.journal (past ++ [event]) = w.journal past ++ (w.note event).toArray := by
  unfold journal
  rw [filterMap_concat]
  cases w.note event <;> simp

theorem record_journal (m : Machine) (past : List Event) (event : Event) :
    w.record event (m.withOutput (w.journal past)) =
      .ok () (m.withOutput (w.journal (past ++ [event]))) := by
  rw [journal_concat]
  rfl

/-- A watch asks nothing of a moment that does not follow from the history. -/
def Sound : Prop :=
  ∀ (past : List Event) (m : Machine), m.modules.Agree past → w.asks (past.filterMap w.note) m

variable {w}

/-- Looking at a machine whose modules agree with the history notes the moment. -/
theorem Sound.look_journal (hw : w.Sound) {past : List Event} {m : Machine}
    (h : m.modules.Agree past) :
    ∃ moment, moment.modules = m.modules ∧
      w.look (m.withOutput (w.journal past)) =
        .ok () (m.withOutput (w.journal (past ++ [.moment moment]))) := by
  refine ⟨m.withOutput (w.journal past), rfl, ?_⟩
  have hasks : w.asks (m.withOutput (w.journal past)).output.toList
      (m.withOutput (w.journal past)) := hw past _ h
  unfold look
  rw [if_pos hasks]
  exact w.record_journal m past _

end Watch

namespace Telling

open Restoration

/-- What has happened goes with the modules at the end of a computation. -/
def Kept {α : Type} (past : List Event) : EStateM.Result Halt Machine α → Prop
  | .ok _ m => m.modules.Current past
  | .error _ m => m.modules.Agree past

theorem Kept.agree {α : Type} {past : List Event} {r : EStateM.Result Halt Machine α}
    (h : Kept past r) : (Eval.machineOf r).modules.Agree past := by
  cases r with
  | ok a m => exact Modules.Current.toAgree h
  | error halt m => exact h

theorem Kept.moment {α : Type} {past : List Event} {r : EStateM.Result Halt Machine α}
    (h : Kept past r) {m : Machine} (hm : m.modules = (Eval.machineOf r).modules) :
    Kept (past ++ [.moment m]) r := by
  cases r with
  | ok a _ => exact Modules.Current.moment h hm
  | error halt _ => exact Modules.Agree.moment h hm

/-- The right result tells the left one, with the events `now` on the way. -/
structure ToldBy {α : Type} (w : Watch) (past now : List Event) (m : Machine)
    (r r' : EStateM.Result Halt Machine α) : Prop where
  same : r' = Eval.onMachine (·.withOutput (w.journal (past ++ now))) r
  printed : (Eval.machineOf r).output = m.output ++ (now.filterMap Event.line?).toArray
  kept : Kept (past ++ now) r

/-- The right result tells the left one. -/
def Told {α : Type} (w : Watch) (past : List Event) (m : Machine)
    (r r' : EStateM.Result Halt Machine α) : Prop :=
  ∃ now, ToldBy w past now m r r'

/-- The right computation tells the left one, wherever it starts. -/
def Tells {α : Type} (w : Watch) (x y : Eval α) : Prop :=
  ∀ (m : Machine) (past : List Event), m.modules.Current past →
    Told w past m (x m) (y (m.withOutput (w.journal past)))

variable {w : Watch}

/-! ## Steps without events -/

theorem tells_of_quiet {α : Type} {x : Eval α}
    (hblind : ∀ output, x.Oblivious (·.withOutput output)) (hquiet : x.Quiet) : Tells w x x := by
  intro m past hpast
  refine ⟨[], ?_, ?_, ?_⟩
  · rw [List.append_nil]
    exact hblind _ m
  · have houtput := hquiet.output m
    unfold Eval.final at houtput
    simpa using houtput
  · have hmodules := hquiet.modules m
    unfold Eval.final at hmodules
    rw [List.append_nil]
    cases hx : x m with
    | ok a m' =>
        rw [hx] at hmodules
        show m'.modules.Current past
        rwa [show m'.modules = m.modules from hmodules]
    | error halt m' =>
        rw [hx] at hmodules
        show m'.modules.Agree past
        rw [show m'.modules = m.modules from hmodules]
        exact hpast.toAgree

theorem tells_of_elementary {α : Type} {x : Eval α} (hx : x.Elementary)
    (hblind : ∀ output, x.Oblivious (·.withOutput output)) : Tells w x x :=
  tells_of_quiet hblind hx.quiet

theorem tells_pure {α : Type} (a : α) : Tells w (pure a) (pure a) :=
  tells_of_elementary (Eval.elementary_pure a) fun _ _ => rfl

theorem tells_fail {α : Type} (cause : RuntimeError.Cause) (pos : Position) :
    Tells w (Eval.fail cause pos : Eval α) (Eval.fail cause pos) :=
  tells_of_elementary (Eval.elementary_fail cause pos) fun _ _ => rfl

theorem tells_exhausted {α : Type} :
    Tells w (throw .exhausted : Eval α) (throw .exhausted) :=
  tells_of_quiet (fun _ _ => rfl) ⟨fun _ => rfl, fun _ => rfl⟩

theorem tells_alloc {α : Type} (make : Heap → α × Heap) :
    Tells w (Eval.alloc make) (Eval.alloc make) :=
  tells_of_elementary (Eval.elementary_alloc make) fun output =>
    Eval.oblivious_alloc (Machine.aside_withOutput output) make

theorem tells_setMember (target : Value) (key : Key) (value : Value) (pos : Position) :
    Tells w (Eval.setMember target key value pos) (Eval.setMember target key value pos) :=
  tells_of_quiet
    (fun output => Eval.oblivious_setMember (Machine.aside_withOutput output) target key value pos)
    (Eval.quiet_setMember target key value pos)

/-! ## Steps made of steps -/

theorem ToldBy.after {α : Type} {past now : List Event} {event : Event} {m : Machine}
    {r r' : EStateM.Result Halt Machine α} (hevent : event.line? = none)
    (h : ToldBy w (past ++ [event]) now m r r') : ToldBy w past (event :: now) m r r' where
  same := by simpa using h.same
  printed := by simpa [hevent] using h.printed
  kept := by simpa using h.kept

theorem tells_bind {α β : Type} {x y : Eval α} {f g : α → Eval β} (hx : Tells w x y)
    (hf : ∀ a, Tells w (f a) (g a)) : Tells w (x >>= f) (y >>= g) := by
  intro m past hpast
  obtain ⟨now, hnow⟩ := hx m past hpast
  obtain ⟨hsame, hprinted, hkept⟩ := hnow
  cases hxm : x m with
  | ok a m' =>
      rw [hxm] at hsame hprinted hkept
      rw [Eval.bind_ok f hxm, Eval.bind_ok g hsame]
      obtain ⟨later, hlater⟩ := hf a m' (past ++ now) hkept
      refine ⟨now ++ later, ?_, ?_, ?_⟩
      · rw [← List.append_assoc]
        exact hlater.same
      · rw [hlater.printed, show m'.output = _ from hprinted]
        simp
      · rw [← List.append_assoc]
        exact hlater.kept
  | error halt m' =>
      rw [hxm] at hsame hprinted hkept
      rw [Eval.bind_error f hxm, Eval.bind_error g hsame]
      exact ⟨now, rfl, hprinted, hkept⟩

theorem tells_ask {α : Type} {f g : Heap → ScopeRef → Option Frame → Nat → Eval α}
    (hf : ∀ h s frame depth, Tells w (f h s frame depth) (g h s frame depth)) :
    Tells w (fun m => f m.heap m.environment m.frame? m.callDepth m)
      (fun m => g m.heap m.environment m.frame? m.callDepth m) :=
  fun m past hpast => hf m.heap m.environment m.frame? m.callDepth m past hpast

/-- Running on a changed machine and changing back, if the changes touch neither output nor
modules. -/
theorem tells_inside {α : Type} {x y : Eval α} (enter : Machine → Machine)
    (leave : Machine → Machine → Machine)
    (henter : ∀ m output, enter (m.withOutput output) = (enter m).withOutput output)
    (hleave : ∀ m m' output output', leave (m.withOutput output) (m'.withOutput output')
      = (leave m m').withOutput output')
    (houtput : ∀ m, (enter m).output = m.output) (houtput' : ∀ m m', (leave m m').output = m'.output)
    (hmodules : ∀ m, (enter m).modules = m.modules)
    (hmodules' : ∀ m m', (leave m m').modules = m'.modules) (hx : Tells w x y) :
    Tells w (fun m => Eval.onMachine (leave m) (x (enter m)))
      (fun m => Eval.onMachine (leave m) (y (enter m))) := by
  intro m past hpast
  obtain ⟨now, hnow⟩ := hx (enter m) past (by rwa [hmodules])
  have hprinted := hnow.printed
  have hkept := hnow.kept
  show Told w past m (Eval.onMachine (leave m) (x (enter m)))
    (Eval.onMachine (leave _) (y (enter (m.withOutput (w.journal past)))))
  -- the events are those of the run inside
  rw [henter, hnow.same]
  rw [houtput] at hprinted
  cases hxm : x (enter m) with
  | ok a m' =>
      rw [hxm] at hprinted hkept
      refine ⟨now, congrArg (EStateM.Result.ok a) (hleave m m' _ _),
        (houtput' m m').trans hprinted, ?_⟩
      show (leave m m').modules.Current _
      rw [hmodules']
      exact hkept
  | error halt m' =>
      rw [hxm] at hprinted hkept
      refine ⟨now, congrArg (EStateM.Result.error halt) (hleave m m' _ _),
        (houtput' m m').trans hprinted, ?_⟩
      show (leave m m').modules.Agree _
      rw [hmodules']
      exact hkept

theorem tells_inScope {α : Type} (scope : ScopeRef) {x y : Eval α} (hx : Tells w x y) :
    Tells w (Eval.inScope scope x) (Eval.inScope scope y) :=
  tells_inside (fun m => { m with environment := scope })
    (fun m m' => { m' with environment := m.environment }) (fun _ _ => rfl) (fun _ _ _ _ => rfl)
    (fun _ => rfl) (fun _ _ => rfl) (fun _ => rfl) (fun _ _ => rfl) hx

theorem tells_inCall {α : Type} (frame : Option Frame) {x y : Eval α} (hx : Tells w x y) :
    Tells w (Eval.inCall frame x) (Eval.inCall frame y) :=
  tells_inside (fun m => { m with frames := frame :: m.frames })
    (fun _ m' => { m' with frames := m'.frames.tail }) (fun _ _ => rfl) (fun _ _ _ _ => rfl)
    (fun _ => rfl) (fun _ _ => rfl) (fun _ => rfl) (fun _ _ => rfl) hx

theorem tells_inNewCall {α : Type} {frame : Option Frame} {bindings : Dict Binding}
    {closure : ScopeRef} {x y : Eval α} (hx : Tells w x y) :
    Tells w (Eval.inNewCall frame bindings closure x)
      (Eval.inNewCall frame bindings closure y) :=
  tells_bind (tells_alloc _) fun scope => tells_inCall frame (tells_inScope scope hx)

/-- Telling as a relation. -/
def relation (w : Watch) : EvalRelation where
  rel := Tells w
  fits _ := True
  fits_mono _ _ := trivial
  pure := tells_pure
  bind := tells_bind
  ask := tells_ask
  fail cause pos _ := tells_fail cause pos
  getMember target key pos := tells_of_elementary (Eval.elementary_getMember target key pos)
    fun output => Eval.oblivious_getMember (Machine.aside_withOutput output) target key pos
  newArray _ := tells_alloc _
  newInstance _ := tells_alloc _
  newFunction _ _ _ := tells_alloc _
  declareClass _ _ _ _ _ := tells_alloc _
  declare name value constant pos := tells_of_elementary
    (Eval.elementary_declare name value constant pos)
    fun output => Eval.oblivious_declare (Machine.aside_withOutput output) name value constant pos
  assign name value pos := tells_of_elementary (Eval.elementary_assign name value pos)
    fun output => Eval.oblivious_assign (Machine.aside_withOutput output) name value pos
  setField target name value pos := tells_setMember target (.name name) value pos
  noteExports names := tells_of_quiet
    (fun output => Eval.oblivious_noteExports (Machine.aside_withOutput output) names)
    ⟨fun _ => rfl, fun _ => rfl⟩
  inNewScope _ _ _ _ hx := tells_bind (tells_alloc _) fun scope => tells_inScope scope hx

/-- Looking around a computation tells what the computation does. -/
theorem tells_around {α : Type} (hw : w.Sound) {x y : Eval α} (hx : Tells w x y) :
    Tells w x (w.around y) := by
  intro m past hpast
  obtain ⟨before, hbefore, hlook⟩ := hw.look_journal hpast.toAgree
  obtain ⟨now, hnow⟩ := hx m (past ++ [.moment before]) (hpast.moment hbefore)
  -- the moment after the computation, whether it has succeeded or not
  obtain ⟨after, hafter, hlook'⟩ := hw.look_journal hnow.kept.agree
  refine ⟨.moment before :: (now ++ [.moment after]), ToldBy.after rfl ⟨?_, ?_, ?_⟩⟩
  · unfold Watch.around
    rw [Eval.bind_ok _ hlook, ← List.append_assoc]
    unfold Watch.lookAfter
    rw [hnow.same]
    cases hxm : x m with
    | ok a m' =>
        rw [hxm] at hlook'
        exact Eval.bind_ok _ hlook'
    | error halt m' =>
        rw [hxm] at hlook'
        exact Eval.bind_ok _ hlook'
  · rw [filterMap_concat]
    simpa [Event.line?] using hnow.printed
  · rw [← List.append_assoc]
    exact hnow.kept.moment hafter

/-! ## Calls -/

section Runners

variable {run run' : Runner}

theorem tells_callRoutine (hs : ∀ s, Tells w (run.execute s) (run'.execute s)) (routine : Routine)
    (closure : ScopeRef) (arguments : List Value) (frame : Option Frame) (pos : Position) :
    Tells w (run.callRoutine routine closure arguments frame pos)
      (run'.callRoutine routine closure arguments frame pos) := by
  intro m past hpast
  have hbody : Tells w (run.activate routine closure arguments frame)
      (run'.activate routine closure arguments frame) :=
    EvalRelation.activate (R := relation w) run run' (fun _ _ _ hx => tells_inNewCall hx)
      fun s _ => hs s
  rw [Runner.callRoutine_eq, Runner.callRoutine_eq]
  by_cases hdeep : m.limits.maxCallDepth ≤ m.callDepth
  · have hdeep' : (m.withOutput (w.journal past)).limits.maxCallDepth ≤
        (m.withOutput (w.journal past)).callDepth := hdeep
    rw [if_pos hdeep, if_pos hdeep']
    exact (tells_fail (α := Value) _ pos) m past hpast
  · have hdeep' : ¬ (m.withOutput (w.journal past)).limits.maxCallDepth ≤
        (m.withOutput (w.journal past)).callDepth := hdeep
    rw [if_neg hdeep, if_neg hdeep']
    exact hbody m past hpast

variable (run run') in
/-- Runners that tell what trees do tell what everything does that is made of them inside one
module. -/
theorem respectsInside (he : ∀ e, Tells w (run.evaluate e) (run'.evaluate e))
    (hs : ∀ s, Tells w (run.execute s) (run'.execute s)) (d : Nat) :
    (relation w).RespectsInside d run run' where
  evaluate e _ := he e
  execute s _ := hs s
  callMethod := ExprRelation.callMethod run run' (tells_callRoutine hs)
  callValue := ExprRelation.callValue run run' (tells_callRoutine hs)
  loop condition body pos _ _ m :=
    EvalRelation.loop (R := relation w) run run' m.limits.maxIterations
      (fun m => tells_fail (α := Completion) _ pos m) (he condition) (hs body) m

/-! ## Printing -/

/-- A line is printed when it is noted. -/
theorem tells_print (line : String) : Tells w (Eval.print line) (w.record (.printed line)) := by
  intro m past hpast
  exact ⟨[.printed line], w.record_journal m past _, by simp [Event.line?, Eval.print, Eval.machineOf],
    hpast.printed line⟩

/-! ## Imports -/

theorem tells_runModule (hs : ∀ s, Tells w (run.execute s) (run'.execute s)) (program : Program) :
    Tells w (run.runModule program) (run'.runModule program) := by
  rw [Runner.runModule_eq, Runner.runModule_eq]
  refine tells_bind (EvalRelation.executeProgram (R := relation w) run run' _ fun s _ => hs s)
    fun _ => tells_of_elementary Eval.elementary_collectExports fun output => ?_
  exact Eval.oblivious_collectExports (Machine.aside_withOutput output)

/-- A watched module notes its start first, and its end last if it ends well. -/
theorem runModule_told (hw : w.Sound) (hs : ∀ s, Tells w (run.execute s) (run'.execute s))
    (id : ModuleId) (program : Program) {m : Machine} {past : List Event}
    (hpast : m.modules.Current (past ++ [.started id])) :
    ∃ now,
      (Eval.machineOf (run.runModule program m)).output =
        m.output ++ (now.filterMap Event.line?).toArray ∧
      Kept (past ++ [.started id] ++ now) (run.runModule program m) ∧
      w.runModule run' id program (m.withOutput (w.journal past)) =
        match run.runModule program m with
        | .ok exports ended => .ok exports (ended.withOutput
            (w.journal (past ++ [.started id] ++ now ++ [.finished id exports])))
        | .error halt ended => .error halt (ended.withOutput
            (w.journal (past ++ [.started id] ++ now))) := by
  obtain ⟨now, hnow⟩ := tells_around hw (tells_runModule hs program) m _ hpast
  refine ⟨now, hnow.printed, hnow.kept, ?_⟩
  have hsame := hnow.same
  unfold Watch.runModule
  rw [Eval.bind_ok _ (w.record_journal m past (.started id))]
  cases hrun : run.runModule program m with
  | ok exports ended =>
      rw [hrun] at hsame
      rw [Eval.bind_ok _ hsame, Eval.bind_ok _ (w.record_journal ended _ (.finished id exports))]
      rfl
  | error halt ended =>
      rw [hrun] at hsame
      rw [Eval.bind_error _ hsame]

/-- A module that has been read runs on a machine of its own, and its lines reach the importer when
it ends. -/
theorem told_importProgram (hw : w.Sound) (hs : ∀ s, Tells w (run.execute s) (run'.execute s))
    (hrestores : ∀ s, Restores (run.execute s)) (specifier : String) (program : Program)
    (pos : Position) {id : ModuleId} {m : Machine} {past : List Event}
    (hpast : m.modules.Current past) (hcached : m.modules.cached? id = none)
    (hloading : id ∉ m.modules.loading) :
    Told w past m (run.importProgram specifier id program pos m)
      (Eval.onOwnMachine (fun m => (m.startModule id).withOutput m.output)
        (fun m ended => (m.resume ended id).withOutput ended.output) specifier id pos
        (w.runModule run' id program) (m.withOutput (w.journal (past ++ [.read id])))) := by
  have hstarted : (m.startModule id).modules.Current (past ++ [.read id] ++ [.started id]) :=
    hpast.start hcached hloading
  obtain ⟨now, hprinted, hkept, hrun⟩ := runModule_told hw hs id program hstarted
  have hended := (restores_runModule hrestores program (m.startModule id)).loading
  unfold Eval.final at hended
  -- the module starts with no output, so that all its output is what it has printed
  have himporter : ∀ {ended : Machine} {lines : Array String},
      ended.output = (m.startModule id).output ++ lines →
      (m.resume ended id).output = m.output ++ lines := by
    intro ended lines hlines
    show m.output ++ ended.output = m.output ++ lines
    rw [hlines]
    simp [Machine.startModule, Machine.start]
  rw [Runner.importProgram_eq]
  cases hresult : run.runModule program (m.startModule id) with
  | ok exports ended =>
      rw [hresult] at hprinted hkept hrun hended
      have hmem : id ∈ ended.modules.loading := by
        rw [show ended.modules.loading = m.modules.loading ++ [id] from hended]
        exact List.mem_append_right _ List.mem_cons_self
      rw [Eval.onOwnMachine_ok hrun]
      refine ⟨.read id :: .started id :: (now ++ [.finished id exports]),
        .after rfl (.after rfl ⟨?_, ?_, ?_⟩)⟩
      · rw [← List.append_assoc]
        rfl
      · have hsilent : [Event.finished id exports].filterMap Event.line? = [] := rfl
        rw [List.filterMap_append, hsilent, List.append_nil]
        exact himporter hprinted
      · rw [← List.append_assoc]
        exact Modules.Current.finish hkept hmem exports
  | error halt ended =>
      rw [hresult] at hprinted hkept hrun
      rw [Eval.onOwnMachine_error hrun]
      refine ⟨.read id :: .started id :: now, .after rfl (.after rfl ⟨rfl, himporter hprinted, ?_⟩)⟩
      exact Modules.Agree.leave hkept id

/-- Loading a module notes its reading, which may fail. -/
theorem tells_loadModule (hw : w.Sound) (hs : ∀ s, Tells w (run.execute s) (run'.execute s))
    (hrestores : ∀ s, Restores (run.execute s)) (specifier : String) (pos : Position) :
    Tells w (run.loadModule specifier pos) (w.loadModule run' specifier pos) := by
  intro m past hpast
  rw [Runner.loadModule_eq]
  unfold Watch.loadModule
  rcases Eval.findModule_cases specifier pos m.modules m.moduleId with
    ⟨cause, _, hfail⟩ | ⟨exports, hdone⟩ | ⟨id, hcached, hloading, hfind⟩
  · rw [hfail _ m rfl rfl, hfail _ (m.withOutput (w.journal past)) rfl rfl]
    exact tells_fail (α := Exports) cause pos m past hpast
  · rw [hdone _ m rfl rfl, hdone _ (m.withOutput (w.journal past)) rfl rfl]
    exact tells_pure exports m past hpast
  · have hnew : id ∉ m.modules.loading := by
      simpa [Modules.isLoading] using hloading
    rw [hfind _ m rfl rfl, hfind _ (m.withOutput (w.journal past)) rfl rfl,
      Eval.bind_ok _ (w.record_journal m past (.read id))]
    rcases Eval.readProgram_cases specifier id pos m.modules.loader with
      ⟨cause, _, hfail⟩ | ⟨text, program, _, _, hread⟩
    · rw [hfail _ m rfl, hfail _ (m.withOutput (w.journal (past ++ [Event.read id]))) rfl]
      exact ⟨[.read id], rfl, by simp [Event.line?, Eval.machineOf], hpast.read hcached hnew⟩
    · rw [hread _ m rfl, hread _ (m.withOutput (w.journal (past ++ [Event.read id]))) rfl]
      exact told_importProgram hw hs hrestores specifier program pos hpast hcached hnew

end Runners

/-! ## Whole runs -/

theorem tells_statement (hw : w.Sound) {run run' : Runner}
    (he : ∀ e, Tells w (run.evaluate e) (run'.evaluate e))
    (hs : ∀ s, Tells w (run.execute s) (run'.execute s))
    (hrestores : ∀ s, Restores (run.execute s)) (s : Statement) :
    Tells w (run.statement s) (w.statement run' s) := by
  have hinside : (∀ value pos, s ≠ .print value pos) →
      (∀ names source pos, s ≠ .importNames names source pos) →
      Tells w (run.statement s) (run'.statement s) := fun hprint himport =>
    EvalRelation.statement_inside (R := relation w) trivial (respectsInside run run' he hs s.depth)
      (fun value pos h => absurd h (hprint value pos))
      fun names source pos h => absurd h (himport names source pos)
  cases s with
  | print value pos =>
      refine tells_bind (he value) fun v => ?_
      refine tells_ask (f := fun heap _ _ _ => do
          Eval.print (heap.text v)
          return Completion.normal)
        (g := fun heap _ _ _ => do
          w.record (.printed (heap.text v))
          return Completion.normal) fun heap _ _ _ => ?_
      exact tells_bind (tells_print _) fun _ => tells_pure _
  | importNames names source pos =>
      have hload := tells_loadModule hw hs hrestores source pos
      have himport : Tells w (run.importNames names source pos)
          (w.importNames run' names source pos) :=
        tells_bind hload fun exports => (relation w).bindImports source exports pos names
      exact tells_bind himport fun _ => tells_pure _
  | _ => exact hinside (fun _ _ h => by cases h) fun _ _ _ h => by cases h

/-- **A watched run is the run itself, told in its journal**, if the watch asks nothing that does
not follow from the history. -/
theorem tells_within (hw : w.Sound) (n : Nat) :
    (∀ e, Tells w (evaluate n e) (evaluateWatched w n e)) ∧
    (∀ s, Tells w (execute n s) (executeWatched w n s)) := by
  induction n with
  | zero => exact ⟨fun _ => tells_exhausted, fun _ => tells_exhausted⟩
  | succ n ih =>
      obtain ⟨he, hs⟩ := ih
      have hrun := respectsInside ⟨evaluate n, execute n⟩ (Runner.watched w n) he hs
      refine ⟨fun e => tells_around hw ?_, fun s => tells_around hw ?_⟩
      · exact ExprRelation.expression_of_setMember (hrun e.depth).toRespectsParts
          fun o k v pos => tells_setMember o (.computed k) v pos
      · exact tells_statement hw he hs (restores_within n).2 s

end Telling

end Lipi
