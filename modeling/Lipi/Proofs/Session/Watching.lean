import Lipi.Module.Memory
import Lipi.Proofs.Machine.Nesting
import Lipi.Proofs.Machine.Telling
import Lipi.Session

set_option autoImplicit false

/-! # What is the case at every moment of a run

A watch that asks nothing but what follows from the history never stops a run, and its journal is
what it notes of the events of the run (`Session.watched_eq`). Two results about whole runs follow.

* **Modules run once** (`Session.modules_run_once`). No module is read twice or started twice. At
  every moment the modules that are being loaded are distinct, and none of them has been run.
  The exports of a module are kept only when it has finished, and then they stay.
* **Lines are printed in order** (`Session.prints_in_order`). The lines of a run are the displayed
  values of its print statements, in the order of time, however the modules that execute them are
  nested and wherever they fail.
-/

namespace Lipi

/-! ## Watches -/

namespace Watch

/-- Watches that no module is read twice. -/
def readOnce : Watch where
  note := Event.readId?
  asks journal _ := journal.Nodup

/-- Watches that no module is started twice. -/
def startedOnce : Watch where
  note := Event.startedId?
  asks journal _ := journal.Nodup

/-- Watches that the modules that are being loaded are distinct, and that none of them has been
run. -/
def loadingApart : Watch where
  note _ := none
  asks _ m := m.modules.loading.Nodup ∧ ∀ id ∈ m.modules.loading, m.modules.cached? id = none

open scoped Classical in
/-- Watches that exports are kept for a module only if it has finished with these exports. -/
noncomputable def finishedBefore (id : ModuleId) (exports : Exports) : Watch where
  note event := if event = .finished id exports then some id else none
  asks journal m := m.modules.cached? id = some exports → id ∈ journal

open scoped Classical in
/-- Watches that exports that have been kept for a module at some moment are kept for it. -/
noncomputable def keptForever (id : ModuleId) (exports : Exports) : Watch where
  note
    | .moment m => if m.modules.cached? id = some exports then some id else none
    | _ => none
  asks journal m := id ∈ journal → m.modules.cached? id = some exports

/-- Notes the lines that are printed. -/
def printing : Watch where
  note := Event.line?
  asks _ _ := True

theorem sound_readOnce : readOnce.Sound :=
  fun _ _ h => h.read_once

theorem sound_startedOnce : startedOnce.Sound :=
  fun _ _ h => h.started_once

theorem sound_loadingApart : loadingApart.Sound :=
  fun _ _ h => ⟨h.loading_nodup, h.loading_fresh⟩

theorem sound_finishedBefore (id : ModuleId) (exports : Exports) :
    (finishedBefore id exports).Sound := by
  intro past m h hcached
  exact List.mem_filterMap.mpr ⟨_, h.finished id exports hcached, if_pos rfl⟩

theorem sound_keptForever (id : ModuleId) (exports : Exports) :
    (keptForever id exports).Sound := by
  intro past m h hnoted
  obtain ⟨event, hmem, hevent⟩ := List.mem_filterMap.mp hnoted
  cases event with
  | moment earlier =>
      by_cases hcached : earlier.modules.cached? id = some exports
      · exact h.kept earlier id exports hmem hcached
      · rw [show (keptForever id exports).note (.moment earlier) = none from if_neg hcached]
          at hevent
        cases hevent
  | _ => cases hevent

theorem sound_printing : printing.Sound :=
  fun _ _ _ => trivial

end Watch

/-! ## Sessions -/

/-- The outcome of a run of a program. -/
def Outcome.ofResult : EStateM.Result Halt Machine Unit → Outcome
  | .ok _ m => .completed m.output.toList
  | .error halt m => .halted halt m.output.toList

namespace Session

/-- Notes that the script starts, if it has an identity. -/
def recordScript (session : Session) (w : Watch) : Eval Unit :=
  match session.scriptId with
  | some id => w.record (.started id)
  | none => pure ()

/-- The watched run of a program, nesting at most `n` deep. -/
noncomputable def watched (session : Session) (w : Watch) (n : Nat) (program : Program) :
    EStateM.Result Halt Machine Unit :=
  (do
    session.recordScript w
    w.around ((Runner.watched w n).executeProgram program.body)) session.machine

/-- At every moment of the run of a program, what a watch asks is the case: watched, the run is not
stopped but ends as it does when it is not watched, apart from the output, under every bound on the
nesting that is large enough. -/
def Always (session : Session) (program : Program) (w : Watch) : Prop :=
  ∃ bound, ∀ n, bound ≤ n → ∃ journal, session.watched w n program =
    Eval.onMachine (·.withOutput journal) (Machine.interpret program session.machine)

/-- What has happened before the first statement of the script. -/
def prelude (session : Session) : List Event :=
  session.scriptId.toList.map .started

theorem recordScript_eq (session : Session) (w : Watch) :
    session.recordScript w session.machine =
      .ok () (session.machine.withOutput (w.journal session.prelude)) := by
  unfold recordScript prelude
  cases session.scriptId with
  | none => rfl
  | some id => exact w.record_journal session.machine [] (.started id)

/-- A watch that asks for something that is not the case stops the run. In particular, what is always
the case is the case at the start. -/
theorem Always.asks_start {session : Session} {program : Program} {w : Watch}
    (h : session.Always program w) :
    w.asks (session.prelude.filterMap w.note)
      (session.machine.withOutput (w.journal session.prelude)) := by
  by_contra hnot
  obtain ⟨bound, hbound⟩ := h
  obtain ⟨journal, hsame⟩ := hbound bound (Nat.le_refl bound)
  have hlook : w.look (session.machine.withOutput (w.journal session.prelude)) =
      .error .exhausted (session.machine.withOutput (w.journal session.prelude)) := if_neg hnot
  unfold watched at hsame
  rw [Eval.bind_ok _ (session.recordScript_eq w)] at hsame
  unfold Watch.around at hsame
  rw [Eval.bind_error _ hlook] at hsame
  exact Nesting.onMachine_interpret_ne program session.machine _ _ hsame.symm

theorem current_prelude (session : Session) : session.modules.Current session.prelude := by
  unfold modules prelude
  cases session.scriptId with
  | none => exact Modules.current_fresh session.loader
  | some id => exact Modules.current_script session.loader id

/-- **A watch that asks nothing but what follows from the history does not stop the run**, and its
journal is what it notes of the events that have happened. The lines of the run are the lines that
have been printed among these events. -/
theorem watched_eq (session : Session) (program : Program) {w : Watch} (hw : w.Sound) {n : Nat}
    (hn : session.machine.nesting program.depth ≤ n) :
    ∃ past : List Event,
      session.watched w n program = Eval.onMachine (·.withOutput (w.journal past))
        (Machine.interpret program session.machine) ∧
      (Eval.machineOf (Machine.interpret program session.machine)).output =
        (past.filterMap Event.line?).toArray := by
  have htells : Telling.Tells w ((Runner.within n).executeProgram program.body)
      (w.around ((Runner.watched w n).executeProgram program.body)) :=
    Telling.tells_around hw (EvalRelation.executeProgram (R := Telling.relation w) _ _ _
      fun s _ => (Telling.tells_within hw n).2 s)
  obtain ⟨now, hnow⟩ := htells session.machine session.prelude session.current_prelude
  rw [(Nesting.interpret_eq program session.machine hn).1] at hnow
  refine ⟨session.prelude ++ now, ?_, ?_⟩
  · unfold watched
    rw [Eval.bind_ok _ (session.recordScript_eq w)]
    exact hnow.same
  · have hsilent : session.prelude.filterMap Event.line? = [] := by
      unfold prelude
      cases session.scriptId <;> rfl
    rw [hnow.printed, List.filterMap_append, hsilent]
    simp [machine, Machine.start]

theorem always_of_sound (session : Session) (program : Program) {w : Watch} (hw : w.Sound) :
    session.Always program w := by
  refine ⟨session.machine.nesting program.depth, fun n hn => ?_⟩
  obtain ⟨past, hsame, _⟩ := session.watched_eq program hw hn
  exact ⟨w.journal past, hsame⟩

/-- **Every module runs once.** At every moment of a run, no module has been read twice or started
twice, the modules that are being loaded are distinct and none of them has been run, the exports
that are kept for a module are those with which it has finished, and what has been kept at an earlier
moment is kept still. -/
theorem modules_run_once (session : Session) (program : Program) :
    session.Always program .readOnce ∧
    session.Always program .startedOnce ∧
    session.Always program .loadingApart ∧
    ∀ id exports, session.Always program (.finishedBefore id exports) ∧
      session.Always program (.keptForever id exports) :=
  ⟨session.always_of_sound program Watch.sound_readOnce,
    session.always_of_sound program Watch.sound_startedOnce,
    session.always_of_sound program Watch.sound_loadingApart,
    fun id exports => ⟨session.always_of_sound program (Watch.sound_finishedBefore id exports),
      session.always_of_sound program (Watch.sound_keptForever id exports)⟩⟩

/-- A module that is imported under two specifiers runs once. What is asked is the case, but not for a
watch that asks too much: that nothing be started is not the case, as the script itself is. -/
theorem modules_run_once_two_specifiers :
    let texts := [("a", "chaap 1\nbhejo pakka x = 2\nbhejo pakka y = 3")]
    let session : Session := ⟨.standard, (MemoryModules.ofList texts).loader, some "main"⟩
    let program : Program :=
      ⟨[.importNames ["x"] "./a" .start, .importNames ["y"] "a" .start], false⟩
    let nothingStarts : Watch := ⟨Event.startedId?, fun journal _ => journal = []⟩
    (session.Always program .readOnce ∧ session.Always program .startedOnce ∧
      session.Always program .loadingApart ∧
      ∀ id exports, session.Always program (.finishedBefore id exports) ∧
        session.Always program (.keptForever id exports)) ∧
    ¬ session.Always program nothingStarts ∧
    (Eval.machineOf (Machine.interpret program session.machine)).output = #["1"] := by
  intro texts session program nothingStarts
  refine ⟨session.modules_run_once program, fun hnothing => ?_, by decide +kernel⟩
  exact List.cons_ne_nil "main" [] hnothing.asks_start

/-- **The lines of a run are the displayed values of its print statements in the order of time**: a
run that notes every line in one journal when a print statement is executed, in whatever module,
ends in the same way and with the same lines. -/
theorem prints_in_order (session : Session) (program : Program) :
    ∃ bound, ∀ n, bound ≤ n →
      session.runProgram program = .ofResult (session.watched .printing n program) := by
  refine ⟨session.machine.nesting program.depth, fun n hn => ?_⟩
  obtain ⟨past, hsame, hprinted⟩ := session.watched_eq program Watch.sound_printing hn
  rw [hsame]
  unfold runProgram
  cases hrun : Machine.interpret program session.machine with
  | ok _ m =>
      rw [hrun] at hprinted
      exact congrArg (fun output => Outcome.completed output.toList) hprinted
  | error halt m =>
      rw [hrun] at hprinted
      exact congrArg (fun output => Outcome.halted halt output.toList) hprinted

end Session

end Lipi
