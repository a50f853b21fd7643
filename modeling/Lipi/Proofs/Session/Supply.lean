import Lipi.Proofs.Session.Watching

set_option autoImplicit false

/-! # Runs and the modules that they read

A `Loader` lists the modules that it can read, so there are finitely many of them. A `Supply` may
have a text for every identity that there is. **A run depends only on the modules that it reads,
and it reads finitely many**: what a run of bounded nesting does with a supply is what it does with
every loader that serves the modules it has read, whatever the loader says of all others
(`Supply.run_draws`). So a finite catalog takes nothing away from runs that end; it is there so that
all of them do. For a session this says that the loader may be exchanged as long as it serves the
modules that the run has read (`Session.draws_finitely`).

The modules that a run has read are those that its watched run notes as read. The two runs are
taken side by side, with the loader left open: both start with any loader that serves what will
have been read.
-/

namespace Lipi

/-! ## Supplies -/

/-- Where modules come from, however many there are. -/
structure Supply where
  /-- The module that a specifier names, given the module that imports it. -/
  resolve : String → Option ModuleId → Except LoadError ModuleId
  /-- The text of a module, or why it cannot be read. -/
  read : ModuleId → Except LoadError String

namespace Loader

/-- A loader as a supply. -/
def supply (loader : Loader) : Supply :=
  ⟨loader.resolve, loader.read⟩

/-- A loader serves the modules of a list as a supply does. -/
structure Serves (loader : Loader) (supply : Supply) (ids : List ModuleId) : Prop where
  resolve : loader.resolve = supply.resolve
  read : ∀ id ∈ ids, loader.read id = supply.read id

variable {loader : Loader} {supply : Supply} {id : ModuleId} {ids ids' : List ModuleId}

theorem serves_supply (loader : Loader) (ids : List ModuleId) : loader.Serves loader.supply ids :=
  ⟨rfl, fun _ _ => rfl⟩

theorem Serves.mono (h : loader.Serves supply ids') (hids : ids ⊆ ids') : loader.Serves supply ids :=
  ⟨h.resolve, fun id hid => h.read id (hids hid)⟩

end Loader

/-- The modules of a list, as a supply has them. -/
def Supply.loader (supply : Supply) (ids : List ModuleId) : Loader where
  resolve := supply.resolve
  catalog := ⟨ids.map fun id => (id, supply.read id)⟩

theorem Supply.serves_loader (supply : Supply) (ids : List ModuleId) :
    (supply.loader ids).Serves supply ids := by
  refine ⟨rfl, fun id hid => ?_⟩
  have hfind : Dict.find? id (ids.map fun id => (id, supply.read id)) = some (supply.read id) := by
    induction ids with
    | nil => cases hid
    | cons other ids ih =>
        rw [List.map_cons, Dict.find?]
        by_cases heq : other = id
        · rw [if_pos heq, heq]
        · rw [if_neg heq]
          exact ih ((List.mem_cons.mp hid).resolve_left (Ne.symm heq))
  show ((supply.loader ids).catalog.get? id).getD _ = _
  unfold Dict.get?
  rw [show Dict.find? id (supply.loader ids).catalog.entries = _ from hfind]
  rfl

/-! ## Other loaders -/

/-- The machine with another source of modules. -/
def Machine.withLoader (m : Machine) (loader : Loader) : Machine :=
  { m with modules := { m.modules with loader } }

theorem Machine.aside_withLoader (loader : Loader) : Machine.Aside (·.withLoader loader) :=
  ⟨fun _ => rfl, fun _ => rfl, fun _ => rfl, fun _ => rfl, fun _ => rfl, fun _ _ _ => rfl⟩

/-- Notes the modules that are read. -/
def Watch.reading : Watch where
  note := Event.readId?
  asks _ _ := True

namespace Watch

/-- An event that is not noted leaves the machine as it is. -/
theorem record_eq_pure {w : Watch} {event : Event} (h : w.note event = none) :
    w.record event = pure () := by
  funext m
  unfold record
  rw [h]
  exact congrArg (fun output => EStateM.Result.ok () (m.withOutput output)) (Array.append_empty)

theorem reading_around {α : Type} (x : Eval α) : reading.around x = x := by
  have hlook : reading.look = pure () := by
    funext m
    have hasks : reading.look m = reading.record (.moment m) m := if_pos trivial
    rw [hasks, record_eq_pure rfl]
  funext m
  have hbefore : reading.around x m = reading.lookAfter x m := Eval.bind_ok _ (congrFun hlook m)
  rw [hbefore]
  unfold lookAfter
  rw [hlook]
  cases x m <;> rfl

theorem reading_runModule (run : Runner) (id : ModuleId) (program : Program) :
    reading.runModule run id program = run.runModule program := by
  unfold runModule
  rw [record_eq_pure rfl, pure_bind, reading_around]
  have hfinished : ∀ exports, reading.record (.finished id exports) = pure () := fun _ =>
    record_eq_pure rfl
  simp only [hfinished, pure_bind, bind_pure]

end Watch

/-! ## Drawing from a supply -/

namespace Drawing

open Eval (onMachine)

/-- At a machine, with every loader that serves the modules `ids`, the left computation gives the
result `r`, and the right one gives it too and notes `ids`. -/
structure Drawn {α : Type} (supply : Supply) (x y : Eval α) (m : Machine) (ids : List ModuleId)
    (r : EStateM.Result Halt Machine α) : Prop where
  same : ∀ loader : Loader, loader.Serves supply ids →
    x (m.withLoader loader) = onMachine (·.withLoader loader) r
  noted : ∀ loader : Loader, loader.Serves supply ids → ∀ journal,
    y ((m.withLoader loader).withOutput journal) =
      onMachine (fun ended => (ended.withLoader loader).withOutput (journal ++ ids.toArray)) r

/-- The right computation is the left one and notes the modules that are read from a supply, and
all that is done depends on these modules. -/
def Draws {α : Type} (supply : Supply) (x y : Eval α) : Prop :=
  ∀ m : Machine, ∃ ids r, Drawn supply x y m ids r

variable {supply : Supply}

/-- A step that sees neither modules nor output reads no module. -/
theorem draws_of_blind {α : Type} {x : Eval α}
    (hblind : ∀ {change}, Machine.Aside change → x.Oblivious change) : Draws supply x x := by
  intro m
  refine ⟨[], x m, fun loader _ => hblind (Machine.aside_withLoader loader) m,
    fun loader _ journal => ?_⟩
  rw [hblind (Machine.aside_withOutput journal), hblind (Machine.aside_withLoader loader),
    Array.append_empty]
  cases x m <;> rfl

theorem draws_pure {α : Type} (a : α) : Draws supply (pure a) (pure a) :=
  draws_of_blind fun _ _ => rfl

theorem draws_fail {α : Type} (cause : RuntimeError.Cause) (pos : Position) :
    Draws supply (Eval.fail cause pos : Eval α) (Eval.fail cause pos) :=
  draws_of_blind fun _ _ => rfl

theorem draws_exhausted {α : Type} : Draws supply (throw .exhausted : Eval α) (throw .exhausted) :=
  draws_of_blind fun _ _ => rfl

theorem draws_alloc {α : Type} (make : Heap → α × Heap) :
    Draws supply (Eval.alloc make) (Eval.alloc make) :=
  draws_of_blind fun h => Eval.oblivious_alloc h make

theorem draws_setMember (target : Value) (key : Key) (value : Value) (pos : Position) :
    Draws supply (Eval.setMember target key value pos) (Eval.setMember target key value pos) :=
  draws_of_blind fun h => Eval.oblivious_setMember h target key value pos

/-! ## Steps made of steps -/

/-- A sequence reads what its first part reads, and then what comes after it reads. -/
theorem draws_bind {α β : Type} {x y : Eval α} {f g : α → Eval β} (hx : Draws supply x y)
    (hf : ∀ a, Draws supply (f a) (g a)) : Draws supply (x >>= f) (y >>= g) := by
  intro m
  obtain ⟨ids, r, hsame, hnoted⟩ := hx m
  cases r with
  | ok a m' =>
      obtain ⟨ids', r', hsame', hnoted'⟩ := hf a m'
      refine ⟨ids ++ ids', r', fun loader h => ?_, fun loader h journal => ?_⟩
      · rw [Eval.bind_ok f (hsame loader (h.mono (List.subset_append_left _ _)))]
        exact hsame' loader (h.mono (List.subset_append_right _ _))
      · rw [Eval.bind_ok g (hnoted loader (h.mono (List.subset_append_left _ _)) journal),
          ← List.append_toArray, ← Array.append_assoc]
        exact hnoted' loader (h.mono (List.subset_append_right _ _)) _
  | error halt m' =>
      refine ⟨ids, .error halt m', fun loader h => ?_, fun loader h journal => ?_⟩
      · rw [Eval.bind_error f (hsame loader h)]
        rfl
      · rw [Eval.bind_error g (hnoted loader h journal)]
        rfl

/-- A computation may depend on what is seen of a machine, if that is the same for every loader
that resolves specifiers as the supply does, and for every output. -/
theorem draws_given {α β : Type} {see : Machine → β} (given : Machine → β)
    (hloader : ∀ m loader, Loader.Serves loader supply [] → see (m.withLoader loader) = given m)
    (houtput : ∀ m journal, see (m.withOutput journal) = see m) {f g : β → Eval α}
    (hf : ∀ b, Draws supply (f b) (g b)) :
    Draws supply (fun m => f (see m) m) (fun m => g (see m) m) := by
  intro m
  obtain ⟨ids, r, hsame, hnoted⟩ := hf (given m) m
  refine ⟨ids, r, fun loader h => ?_, fun loader h journal => ?_⟩
  · rw [hloader m loader (h.mono (List.nil_subset _))]
    exact hsame loader h
  · rw [houtput, hloader m loader (h.mono (List.nil_subset _))]
    exact hnoted loader h journal

/-- `draws_given` where the loader is not seen. -/
theorem draws_seeing {α β : Type} (see : Machine → β)
    (hloader : ∀ m loader, see (m.withLoader loader) = see m)
    (houtput : ∀ m journal, see (m.withOutput journal) = see m) {f g : β → Eval α}
    (hf : ∀ b, Draws supply (f b) (g b)) :
    Draws supply (fun m => f (see m) m) (fun m => g (see m) m) :=
  draws_given see (fun m loader _ => hloader m loader) houtput hf

/-- Running on a changed machine and changing back reads what is read inside, if the changes touch
neither output nor loader. -/
theorem draws_inside {α : Type} {x y : Eval α} (enter : Machine → Machine)
    (leave : Machine → Machine → Machine)
    (henter : ∀ m loader, enter (m.withLoader loader) = (enter m).withLoader loader)
    (henter' : ∀ m journal, enter (m.withOutput journal) = (enter m).withOutput journal)
    (hleave : ∀ m m' loader, leave (m.withLoader loader) (m'.withLoader loader) =
      (leave m m').withLoader loader)
    (hleave' : ∀ m m' journal journal', leave (m.withOutput journal) (m'.withOutput journal') =
      (leave m m').withOutput journal')
    (hx : Draws supply x y) :
    Draws supply (fun m => onMachine (leave m) (x (enter m)))
      (fun m => onMachine (leave m) (y (enter m))) := by
  intro m
  obtain ⟨ids, r, hsame, hnoted⟩ := hx (enter m)
  refine ⟨ids, onMachine (leave m) r, fun loader h => ?_, fun loader h journal => ?_⟩
  · show onMachine (leave (m.withLoader loader)) (x (enter (m.withLoader loader))) = _
    rw [henter, hsame loader h]
    cases r <;> simp only [onMachine, hleave]
  · show onMachine (leave ((m.withLoader loader).withOutput journal))
      (y (enter ((m.withLoader loader).withOutput journal))) = _
    rw [henter', henter, hnoted loader h journal]
    cases r <;> simp only [onMachine, hleave, hleave']

theorem draws_inScope {α : Type} (scope : ScopeRef) {x y : Eval α} (hx : Draws supply x y) :
    Draws supply (Eval.inScope scope x) (Eval.inScope scope y) :=
  draws_inside (fun m => { m with environment := scope })
    (fun m m' => { m' with environment := m.environment }) (fun _ _ => rfl) (fun _ _ => rfl)
    (fun _ _ _ => rfl) (fun _ _ _ _ => rfl) hx

theorem draws_inCall {α : Type} (frame : Option Frame) {x y : Eval α} (hx : Draws supply x y) :
    Draws supply (Eval.inCall frame x) (Eval.inCall frame y) :=
  draws_inside (fun m => { m with frames := frame :: m.frames })
    (fun _ m' => { m' with frames := m'.frames.tail }) (fun _ _ => rfl) (fun _ _ => rfl)
    (fun _ _ _ => rfl) (fun _ _ _ _ => rfl) hx

theorem draws_inNewCall {α : Type} {frame : Option Frame} {bindings : Dict Binding}
    {closure : ScopeRef} {x y : Eval α} (hx : Draws supply x y) :
    Draws supply (Eval.inNewCall frame bindings closure x)
      (Eval.inNewCall frame bindings closure y) :=
  draws_bind (draws_alloc _) fun scope => draws_inCall frame (draws_inScope scope hx)

variable (supply)

/-- Drawing as a relation. -/
def relation : EvalRelation where
  rel := Draws supply
  fits _ := True
  fits_mono _ _ := trivial
  pure := draws_pure
  bind := draws_bind
  ask hf := draws_seeing (fun m => (m.heap, m.environment, m.frame?, m.callDepth)) (fun _ _ => rfl)
    (fun _ _ => rfl) fun seen => hf seen.1 seen.2.1 seen.2.2.1 seen.2.2.2
  fail cause pos _ := draws_fail cause pos
  getMember target key pos := draws_of_blind fun h => Eval.oblivious_getMember h target key pos
  newArray _ := draws_alloc _
  newInstance _ := draws_alloc _
  newFunction _ _ _ := draws_alloc _
  declareClass _ _ _ _ _ := draws_alloc _
  declare name value constant pos :=
    draws_of_blind fun h => Eval.oblivious_declare h name value constant pos
  assign name value pos := draws_of_blind fun h => Eval.oblivious_assign h name value pos
  setField target name value pos := draws_setMember target (.name name) value pos
  noteExports names := draws_of_blind fun h => Eval.oblivious_noteExports h names
  inNewScope _ _ _ _ hx := draws_bind (draws_alloc _) fun scope => draws_inScope scope hx

variable {supply}

/-! ## Calls -/

section Runners

variable {run run' : Runner}

/-- A call, given the limit on calls and how many are active. -/
def callGiven (run : Runner) (routine : Routine) (closure : ScopeRef) (arguments : List Value)
    (frame : Option Frame) (pos : Position) (calls : Nat × Nat) : Eval Value :=
  if calls.1 ≤ calls.2 then Eval.fail (.recursionLimit calls.1) pos
  else run.activate routine closure arguments frame

theorem callRoutine_eq_callGiven (run : Runner) (routine : Routine) (closure : ScopeRef)
    (arguments : List Value) (frame : Option Frame) (pos : Position) :
    run.callRoutine routine closure arguments frame pos = fun m =>
      callGiven run routine closure arguments frame pos (m.limits.maxCallDepth, m.callDepth) m := by
  funext m
  rw [Runner.callRoutine_eq]
  unfold callGiven
  split <;> rfl

theorem draws_callRoutine (hs : ∀ s, Draws supply (run.execute s) (run'.execute s))
    (routine : Routine) (closure : ScopeRef) (arguments : List Value) (frame : Option Frame)
    (pos : Position) :
    Draws supply (run.callRoutine routine closure arguments frame pos)
      (run'.callRoutine routine closure arguments frame pos) := by
  rw [callRoutine_eq_callGiven, callRoutine_eq_callGiven]
  refine draws_seeing _ (fun _ _ => rfl) (fun _ _ => rfl) fun calls => ?_
  unfold callGiven
  split
  · exact draws_fail _ pos
  · exact EvalRelation.activate (R := relation supply) run run'
      (fun _ _ _ hx => draws_inNewCall hx) fun s _ => hs s

variable (run run') in
/-- Runners that draw when they run trees draw in everything that is made of trees inside one
module. -/
theorem respectsInside (he : ∀ e, Draws supply (run.evaluate e) (run'.evaluate e))
    (hs : ∀ s, Draws supply (run.execute s) (run'.execute s)) (d : Nat) :
    (relation supply).RespectsInside d run run' where
  evaluate e _ := he e
  execute s _ := hs s
  callMethod := ExprRelation.callMethod run run' (draws_callRoutine hs)
  callValue := ExprRelation.callValue run run' (draws_callRoutine hs)
  loop condition body pos _ _ :=
    draws_seeing (·.limits.maxIterations) (fun _ _ => rfl) (fun _ _ => rfl) fun n =>
      EvalRelation.loop (R := relation supply) run run' n
        (draws_seeing (·.limits.maxIterations) (fun _ _ => rfl) (fun _ _ => rfl) fun _ =>
          draws_fail _ pos)
        (he condition) (hs body)

/-! ## Printing -/

/-- A line that is printed is not noted. -/
theorem draws_print (line : String) :
    Draws supply (Eval.print line) (Watch.reading.record (.printed line)) := by
  intro m
  refine ⟨[], .ok () { m with output := m.output.push line }, fun _ _ => rfl,
    fun loader _ journal => ?_⟩
  rw [Watch.record_eq_pure rfl, Array.append_empty]
  rfl

/-! ## Imports -/

theorem draws_runModule (hs : ∀ s, Draws supply (run.execute s) (run'.execute s))
    (program : Program) : Draws supply (run.runModule program) (run'.runModule program) := by
  rw [Runner.runModule_eq, Runner.runModule_eq]
  exact draws_bind (EvalRelation.executeProgram (R := relation supply) run run' _ fun s _ => hs s)
    fun _ => draws_of_blind Eval.oblivious_collectExports

/-- A module reads what its statements read. -/
theorem draws_importProgram (hs : ∀ s, Draws supply (run.execute s) (run'.execute s))
    (specifier : String) (id : ModuleId) (program : Program) (pos : Position) :
    Draws supply (run.importProgram specifier id program pos)
      (Eval.onOwnMachine (fun m => (m.startModule id).withOutput m.output)
        (fun m ended => (m.resume ended id).withOutput ended.output) specifier id pos
        (Watch.reading.runModule run' id program)) := by
  intro m
  obtain ⟨ids, r, hsame, hnoted⟩ := draws_runModule hs program (m.startModule id)
  refine ⟨ids, Eval.ofModule specifier id pos (m.resume · id) r, fun loader h => ?_,
    fun loader h journal => ?_⟩
  · rw [Runner.importProgram_eq]
    show Eval.ofModule specifier id pos _
      (run.runModule program ((m.startModule id).withLoader loader)) = _
    rw [hsame loader h]
    cases r <;> rfl
  · rw [Watch.reading_runModule]
    show Eval.ofModule specifier id pos _
      (run'.runModule program (((m.startModule id).withLoader loader).withOutput journal)) = _
    rw [hnoted loader h journal]
    cases r <;> rfl

/-- The search for a module, given what its specifier names, and of every module its exports if it
has been run and whether it is being loaded. -/
def findGiven (specifier : String) (pos : Position) (read : ModuleId → Eval Exports) :
    Except LoadError ModuleId × (ModuleId → Option Exports × Bool) → Eval Exports
  | (.error e, _) => Eval.fail (.moduleLoad specifier e.message) pos
  | (.ok id, known) =>
    match known id with
    | (some exports, _) => pure exports
    | (none, true) => Eval.fail (.circularImport specifier) pos
    | (none, false) => read id

theorem findModule_eq_findGiven (specifier : String) (pos : Position)
    (read : ModuleId → Eval Exports) :
    Eval.findModule specifier pos read = fun m =>
      findGiven specifier pos read (m.modules.loader.resolve specifier m.moduleId,
        fun id => (m.modules.cached? id, m.modules.isLoading id)) m := by
  funext m
  rw [Eval.findModule_apply]
  cases hresolve : m.modules.loader.resolve specifier m.moduleId with
  | error e => rfl
  | ok id =>
      cases hcached : m.modules.cached? id with
      | some exports => simp only [findGiven, hcached]
      | none =>
          cases hloading : m.modules.isLoading id with
          | true => simp only [findGiven, hcached, hloading, if_true]
          | false => simp only [findGiven, hcached, hloading, Bool.false_eq_true, if_false]

/-- The search for a module depends on no text. -/
theorem draws_findModule {f g : ModuleId → Eval Exports} (hf : ∀ id, Draws supply (f id) (g id))
    (specifier : String) (pos : Position) :
    Draws supply (Eval.findModule specifier pos f) (Eval.findModule specifier pos g) := by
  rw [findModule_eq_findGiven, findModule_eq_findGiven]
  refine draws_given (fun m => (supply.resolve specifier m.moduleId,
      fun id => (m.modules.cached? id, m.modules.isLoading id)))
    (fun m loader h => ?_) (fun _ _ => rfl) fun seen => ?_
  · rw [← h.resolve]
    rfl
  · obtain ⟨named, known⟩ := seen
    cases named with
    | error e => exact draws_fail _ pos
    | ok id =>
        simp only [findGiven]
        split
        · exact draws_pure _
        · exact draws_fail _ pos
        · exact hf id

/-- What is done with the text of a module. -/
def runText (specifier : String) (pos : Position) (run : Program → Eval Exports) :
    Except LoadError String → Eval Exports
  | .error e => Eval.fail (.moduleLoad specifier e.message) pos
  | .ok text =>
    match Program.ofText text with
    | .error errors => Eval.fail (.moduleLoad specifier (CompileError.report errors)) pos
    | .ok program => run program

theorem readProgram_eq_runText (specifier : String) (id : ModuleId) (pos : Position)
    (run : Program → Eval Exports) :
    Eval.readProgram specifier id pos run = fun m =>
      runText specifier pos run (m.modules.loader.read id) m := by
  funext m
  rw [Eval.readProgram_apply]
  unfold runText
  cases m.modules.loader.read id with
  | error e => rfl
  | ok text => cases hprogram : Program.ofText text <;> simp only [hprogram]

/-- Reading a program depends on the text of one module. -/
theorem draws_readProgram {f g : Program → Eval Exports} (hf : ∀ p, Draws supply (f p) (g p))
    (specifier : String) (id : ModuleId) (pos : Position) :
    Draws supply (Eval.readProgram specifier id pos f)
      (Watch.reading.record (.read id) >>= fun _ => Eval.readProgram specifier id pos g) := by
  have htext : Draws supply (runText specifier pos f (supply.read id))
      (runText specifier pos g (supply.read id)) := by
    cases supply.read id with
    | error e => exact draws_fail _ pos
    | ok text =>
        simp only [runText]
        cases Program.ofText text with
        | error errors => exact draws_fail _ pos
        | ok program => exact hf program
  intro m
  obtain ⟨ids, r, hsame, hnoted⟩ := htext m
  rw [readProgram_eq_runText, readProgram_eq_runText]
  -- the module is served, and so is what its program reads
  refine ⟨id :: ids, r, fun loader h => ?_, fun loader h journal => ?_⟩
  · show runText specifier pos f (loader.read id) (m.withLoader loader) = _
    rw [h.read id List.mem_cons_self]
    exact hsame loader (h.mono (List.subset_cons_self _ _))
  · have hids : journal ++ #[id] ++ ids.toArray = journal ++ (id :: ids).toArray := by simp
    show runText specifier pos g (loader.read id)
      ((m.withLoader loader).withOutput (journal ++ #[id])) = _
    rw [h.read id List.mem_cons_self, hnoted loader (h.mono (List.subset_cons_self _ _)), hids]

theorem draws_loadModule (hs : ∀ s, Draws supply (run.execute s) (run'.execute s))
    (specifier : String) (pos : Position) :
    Draws supply (run.loadModule specifier pos) (Watch.reading.loadModule run' specifier pos) :=
  draws_findModule (fun id => draws_readProgram
    (fun program => draws_importProgram hs specifier id program pos) specifier id pos)
    specifier pos

end Runners

/-! ## Whole runs -/

theorem draws_statement {run run' : Runner}
    (he : ∀ e, Draws supply (run.evaluate e) (run'.evaluate e))
    (hs : ∀ s, Draws supply (run.execute s) (run'.execute s)) (s : Statement) :
    Draws supply (run.statement s) (Watch.reading.statement run' s) := by
  have hinside : (∀ value pos, s ≠ .print value pos) →
      (∀ names source pos, s ≠ .importNames names source pos) →
      Draws supply (run.statement s) (run'.statement s) := fun hprint himport =>
    EvalRelation.statement_inside (R := relation supply) trivial
      (respectsInside run run' he hs s.depth)
      (fun value pos h => absurd h (hprint value pos))
      fun names source pos h => absurd h (himport names source pos)
  cases s with
  | print value pos =>
      refine draws_bind (he value) fun v => ?_
      refine draws_seeing Machine.heap (fun _ _ => rfl) (fun _ _ => rfl)
        (f := fun heap => do
          Eval.print (heap.text v)
          return Completion.normal)
        (g := fun heap => do
          Watch.reading.record (.printed (heap.text v))
          return Completion.normal) fun heap => ?_
      exact draws_bind (draws_print _) fun _ => draws_pure _
  | importNames names source pos =>
      have himport : Draws supply (run.importNames names source pos)
          (Watch.reading.importNames run' names source pos) :=
        draws_bind (draws_loadModule hs source pos) fun exports =>
          (relation supply).bindImports source exports pos names
      exact draws_bind himport fun _ => draws_pure _
  | _ => exact hinside (fun _ _ h => by cases h) fun _ _ _ h => by cases h

/-- **What a run of bounded nesting does depends on the modules that its watched run notes as
read.** -/
theorem draws_within (n : Nat) :
    (∀ e, Draws supply (evaluate n e) (evaluateWatched .reading n e)) ∧
    (∀ s, Draws supply (execute n s) (executeWatched .reading n s)) := by
  induction n with
  | zero => exact ⟨fun _ => draws_exhausted, fun _ => draws_exhausted⟩
  | succ n ih =>
      obtain ⟨he, hs⟩ := ih
      have hrun := respectsInside ⟨evaluate n, execute n⟩ (Runner.watched .reading n) he hs
      refine ⟨fun e => ?_, fun s => ?_⟩
      · rw [evaluateWatched, Watch.reading_around]
        exact ExprRelation.expression_of_setMember (hrun e.depth).toRespectsParts
          fun o k v pos => draws_setMember o (.computed k) v pos
      · rw [executeWatched, Watch.reading_around]
        exact draws_statement he hs s

/-- A run that ends under a bound on its nesting is the run of the program, with every loader that
serves the modules that it reads. -/
theorem interpret_of_drawn {program : Program} {m : Machine} {n : Nat} {y : Eval Unit}
    {ids : List ModuleId} {r : EStateM.Result Halt Machine Unit}
    (h : Drawn supply ((Runner.within n).executeProgram program.body) y m ids r)
    (hends : ¬ Nesting.Exhausted r) {loader : Loader} (hserves : loader.Serves supply ids) :
    Machine.interpret program (m.withLoader loader) = onMachine (·.withLoader loader) r := by
  have hsame := h.same loader hserves
  have hnot : ¬ Nesting.Exhausted
      ((Runner.within n).executeProgram program.body (m.withLoader loader)) := by
    rw [hsame, Nesting.Exhausted, haltsFor_onMachine]
    exact hends
  -- a bound that suffices for this run and for the run of the program
  let k := max n ((m.withLoader loader).nesting program.depth)
  have hmono : Nesting.lowering.Follows ((Runner.within n).executeProgram program.body)
      ((Runner.within k).executeProgram program.body) :=
    EvalRelation.executeProgram (R := Nesting.lowering.relation) _ _ _ fun s _ =>
      (Nesting.within_mono (Nat.le_max_left _ _)).2 s
  have hinterpret := (Nesting.interpret_eq program (m.withLoader loader) (n := k)
    (Nat.le_max_right _ _)).1
  rcases hmono (m.withLoader loader) with ⟨heq, _⟩ | ⟨hexhausted, _⟩
  · rw [← hinterpret, ← hsame]
    exact heq.symm
  · exact absurd hexhausted hnot

theorem draws_program (supply : Supply) (n : Nat) (program : Program) :
    Draws supply ((Runner.within n).executeProgram program.body)
      ((Runner.watched .reading n).executeProgram program.body) :=
  EvalRelation.executeProgram (R := relation supply) _ _ _ fun s _ => (draws_within n).2 s

end Drawing

/-- **A bounded run with an endless supply.** It reads finitely many modules: all loaders that serve
these give the run that they alone give, whatever the loaders say of other modules; and if the bound
is not too low for this run, it is the run of the program. -/
theorem Supply.run_draws (supply : Supply) (program : Program) (m : Machine) (n : Nat) :
    ∃ ids : List ModuleId, ∀ loader : Loader, loader.Serves supply ids →
      (Runner.within n).executeProgram program.body (m.withLoader loader) =
        Eval.onMachine (·.withLoader loader)
          ((Runner.within n).executeProgram program.body (m.withLoader (supply.loader ids))) ∧
      (¬ Nesting.Exhausted
          ((Runner.within n).executeProgram program.body (m.withLoader (supply.loader ids))) →
        Machine.interpret program (m.withLoader loader) = Eval.onMachine (·.withLoader loader)
          (Machine.interpret program (m.withLoader (supply.loader ids)))) := by
  obtain ⟨ids, r, hdrawn⟩ := Drawing.draws_program supply n program m
  have hfinite := supply.serves_loader ids
  refine ⟨ids, fun loader h => ⟨?_, fun hends => ?_⟩⟩
  · rw [hdrawn.same loader h, hdrawn.same _ hfinite]
    cases r <;> rfl
  · rw [hdrawn.same _ hfinite, Nesting.Exhausted, haltsFor_onMachine] at hends
    rw [Drawing.interpret_of_drawn hdrawn hends h, Drawing.interpret_of_drawn hdrawn hends hfinite]
    cases r <;> rfl

namespace Session

/-- A session with another source of modules. -/
def withLoader (session : Session) (loader : Loader) : Session :=
  { session with loader }

theorem machine_withLoader (session : Session) (loader : Loader) :
    (session.withLoader loader).machine = session.machine.withLoader loader := by
  unfold machine modules withLoader
  cases session.scriptId <;> rfl

/-- The start of a script is not noted. -/
theorem watched_reading (session : Session) (n : Nat) (program : Program) :
    session.watched .reading n program =
      (Runner.watched .reading n).executeProgram program.body session.machine := by
  have hscript : session.recordScript .reading = pure () := by
    unfold recordScript
    cases session.scriptId with
    | none => rfl
    | some id => exact Watch.record_eq_pure rfl
  unfold watched
  rw [hscript, pure_bind, Watch.reading_around]

/-- **A run of a session depends only on the modules that it reads.** They are the ones that the
watched run notes as read: with every loader that serves them as the loader of the session does, the
run is the same. -/
theorem draws_finitely (session : Session) (program : Program) {n : Nat}
    (hn : session.machine.nesting program.depth ≤ n) :
    ∃ ids : List ModuleId,
      session.watched .reading n program = Eval.onMachine (·.withOutput ids.toArray)
        (Machine.interpret program session.machine) ∧
      ∀ loader : Loader, loader.Serves session.loader.supply ids →
        (session.withLoader loader).runProgram program = session.runProgram program := by
  obtain ⟨ids, r, hdrawn⟩ := Drawing.draws_program session.loader.supply n program session.machine
  have hserves := session.loader.serves_supply ids
  have hsession : session.machine.withLoader session.loader = session.machine :=
    (session.machine_withLoader session.loader).symm
  obtain ⟨hbound, hends⟩ := Nesting.interpret_eq program session.machine hn
  -- with the loader of the session the run is the run of the session
  have hown : Machine.interpret program session.machine =
      Eval.onMachine (·.withLoader session.loader) r := by
    rw [← hbound, ← hdrawn.same session.loader hserves, hsession]
  rw [hown, Nesting.Exhausted, haltsFor_onMachine] at hends
  refine ⟨ids, ?_, fun loader h => ?_⟩
  · have hnoted := hdrawn.noted session.loader hserves #[]
    rw [hsession, Array.empty_append] at hnoted
    rw [watched_reading, hown]
    refine Eq.trans hnoted ?_
    cases r <;> rfl
  · unfold runProgram
    rw [machine_withLoader, Drawing.interpret_of_drawn hdrawn hends h, hown]
    cases r <;> rfl

end Session

end Lipi
