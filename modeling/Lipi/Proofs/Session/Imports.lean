import Lipi.Module.Memory
import Lipi.Proofs.Machine.Incidents
import Lipi.Proofs.Machine.Nesting
import Lipi.Session

set_option autoImplicit false

/-! # How failures pass through imports

A module that fails makes the import fail that has loaded it, and so on up to the script. **An error
that is raised while `k` imports are under way is wrapped `k` times on its way**, each time in the
message of the import around it. One error is not: that an import is circular, which has found a
module that is being loaded. It is reported as it was raised, however many imports are under way,
and a run fails so only if it has come to such an import (`Session.import_failures`).
-/

namespace Lipi

/-- An error behind imports, of which the outermost comes first. Each import reports the error of
the module that it has loaded. -/
def RuntimeError.through (e : RuntimeError) : List Import → RuntimeError
  | [] => e
  | i :: inner => ⟨.moduleLoad i.specifier (e.through inner).message, some i.position⟩

namespace Incident

/-- Some import has found a module that is being loaded: an outer one, or that of an import that is
under way. -/
def closing (outer : List ModuleId) (among : Import → Bool) : List Import → Incident → Bool
  | trail, .finds i => among i && (outer ++ trail.map (·.id)).contains i.id
  | _, .fails _ => false

/-- An expression, a statement or a module has failed while certain imports are under way. -/
def failing (under : List Import) (e : RuntimeError) : List Import → Incident → Bool
  | _, .finds _ => false
  | trail, .fails error => trail = under && error = e

end Incident

/-! ## Circular imports and other failures -/

namespace RuntimeError

variable {e : RuntimeError}

theorem ofModule_circular (h : e.cause.isCircular = true) (specifier : String) (pos : Position) :
    e.ofModule specifier pos = e := by
  obtain ⟨cause, position⟩ := e
  cases cause with
  | circularImport path => rfl
  | _ => cases h

theorem ofModule_inside (h : e.cause.isCircular = false) (specifier : String) (pos : Position) :
    e.ofModule specifier pos = ⟨.moduleLoad specifier e.message, some pos⟩ := by
  obtain ⟨cause, position⟩ := e
  cases cause with
  | circularImport path => cases h
  | _ => rfl

theorem isCircular_through (h : e.cause.isCircular = false) (trail : List Import) :
    (e.through trail).cause.isCircular = false := by
  cases trail with
  | nil => exact h
  | cons i inner => rfl

end RuntimeError

namespace Tracking

/-- Stopping at the circular imports among some imports. The run then fails for one of them; without
being stopped, it fails for no other reason of this kind. -/
def cycles (outer : List ModuleId) (among : Import → Bool) : Tracking where
  outer := outer
  stop := Incident.closing outer among
  ahead _ e := ∃ i, among i = true ∧ e = i.circular
  common _ e := e.cause.isCircular = true → ∃ i, among i = false ∧ e = i.circular
  ahead_finds _ i hstop := by
    obtain ⟨hamong, hloading⟩ := Bool.and_eq_true_iff.mp hstop
    exact ⟨List.contains_iff_mem.mp hloading, i, hamong, rfl⟩
  ahead_fails _ _ hstop := nomatch hstop
  ahead_import _ j e := by
    rintro ⟨i, hamong, rfl⟩
    exact ⟨i, hamong, rfl⟩
  common_inside _ e hinside hcircular := by
    rw [hinside] at hcircular
    cases hcircular
  common_finds _ i hloading hstop _ := by
    refine ⟨i, ?_, rfl⟩
    have hcontains := List.contains_iff_mem.mpr hloading
    rwa [Incident.closing, hcontains, Bool.and_true] at hstop
  common_import _ j e hcommon hcircular := by
    cases he : e.cause.isCircular with
    | true =>
        rw [RuntimeError.ofModule_circular he]
        exact hcommon he
    | false =>
        rw [RuntimeError.ofModule_inside he] at hcircular
        cases hcircular

/-- Stopping where an error is raised that is wrapped on its way. -/
def failures (outer : List ModuleId) (under : List Import) {e : RuntimeError}
    (he : e.cause.isCircular = false) : Tracking where
  outer := outer
  stop := Incident.failing under e
  ahead trail error := ∃ inner, under = trail ++ inner ∧ error = e.through inner
  common _ _ := True
  ahead_finds _ _ hstop := nomatch hstop
  ahead_fails trail error hstop := by
    obtain ⟨rfl, rfl⟩ : trail = under ∧ error = e := by simpa [Incident.failing] using hstop
    exact ⟨[], (List.append_nil _).symm, rfl⟩
  ahead_import trail i error := by
    rintro ⟨inner, rfl, rfl⟩
    refine ⟨i :: inner, by rw [List.append_assoc]; rfl, ?_⟩
    exact RuntimeError.ofModule_inside (RuntimeError.isCircular_through he inner) _ _
  common_inside _ _ _ := trivial
  common_finds _ _ _ _ := trivial
  common_import _ _ _ _ := trivial

/-- Stopping nowhere. -/
def nowhere (outer : List ModuleId) : Tracking where
  outer := outer
  stop _ _ := false
  ahead _ _ := False
  common _ _ := True
  ahead_finds _ _ hstop := nomatch hstop
  ahead_fails _ _ hstop := nomatch hstop
  ahead_import _ _ _ hahead := hahead
  common_inside _ _ _ := trivial
  common_finds _ _ _ _ := trivial
  common_import _ _ _ _ := trivial

end Tracking

/-! ## Sessions -/

namespace Session

/-- The run of a program comes to an incident: told to stop there, it is stopped, although it may
nest as deep as it takes. Told to stop nowhere, it is the run of the session
(`stopping_nowhere`). -/
def ComesTo (session : Session) (program : Program) (stop : List Import → Incident → Bool) : Prop :=
  ∃ n, session.machine.nesting program.depth ≤ n ∧ HaltsFor .exhausted
    ((Runner.stopping stop n []).executeProgram program.body session.machine)

/-- The run comes to a circular import: an import that has found the script itself, if the script
has an identity, or a module that is being loaded. -/
def ComesToCircle (session : Session) (program : Program) (specifier : String) (pos : Position) :
    Prop :=
  session.ComesTo program (Incident.closing session.scriptId.toList
    fun i => i.specifier = specifier && i.position = pos)

theorem stands_start {T : Tracking} {session : Session}
    (houter : T.outer = session.scriptId.toList) : T.Stands [] session.machine := by
  refine ⟨?_, fun id _ => ?_⟩
  · rw [houter, List.map_nil, List.append_nil]
    show session.modules.loading = _
    unfold modules
    cases session.scriptId <;> rfl
  · show session.modules.cached? id = none
    unfold modules
    cases session.scriptId <;> rfl

/-- The run of a session and the same run told to stop. -/
theorem keeps_interpret {T : Tracking} {session : Session}
    (houter : T.outer = session.scriptId.toList) (program : Program) {n : Nat}
    (hn : session.machine.nesting program.depth ≤ n) :
    T.Keeps [] (Machine.interpret program session.machine)
      ((Runner.stopping T.stop n []).executeProgram program.body session.machine) := by
  have hfollows : T.Follows [] ((Runner.within n).executeProgram program.body)
      ((Runner.stopping T.stop n []).executeProgram program.body) :=
    EvalRelation.executeProgram (R := T.relation []) (Runner.within n) (Runner.stopping T.stop n [])
      _ fun s _ => (T.follows_within n []).2 s
  have hkeeps := hfollows.keeps session.machine (stands_start houter)
  rwa [(Nesting.interpret_eq program session.machine hn).1] at hkeeps

/-- A run that is told to stop nowhere is the run of the session. -/
theorem stopping_nowhere (session : Session) (program : Program) {n : Nat}
    (hn : session.machine.nesting program.depth ≤ n) :
    (Runner.stopping (fun _ _ => false) n []).executeProgram program.body session.machine =
      Machine.interpret program session.machine := by
  have hkeeps := keeps_interpret (T := .nowhere session.scriptId.toList) rfl program hn
  show (Runner.stopping (Tracking.nowhere session.scriptId.toList).stop n []).executeProgram
    program.body session.machine = _
  generalize Machine.interpret program session.machine = r at hkeeps ⊢
  generalize (Runner.stopping _ n []).executeProgram program.body session.machine = r' at hkeeps ⊢
  cases hkeeps with
  | same _ => rfl
  | stopped hahead => exact hahead.elim

/-- So it comes to nothing. -/
theorem not_comesTo_nowhere (session : Session) (program : Program) :
    ¬ session.ComesTo program fun _ _ => false := by
  rintro ⟨n, hn, hstopped⟩
  rw [session.stopping_nowhere program hn] at hstopped
  exact (Nesting.interpret_eq program session.machine hn).2 hstopped

/-- If the run comes to where it is told to stop, it fails as the tracking says. -/
theorem ahead_of_comesTo {T : Tracking} {session : Session}
    (houter : T.outer = session.scriptId.toList) {program : Program}
    (h : session.ComesTo program T.stop) :
    ∃ e lines, T.ahead [] e ∧ session.runProgram program = .halted (.failed e) lines := by
  obtain ⟨n, hn, stopped, hstopped⟩ := h
  have hends := (Nesting.interpret_eq program session.machine (Nat.le_refl _)).2
  have hkeeps := keeps_interpret houter program hn
  unfold runProgram
  generalize Machine.interpret program session.machine = r at hkeeps hends
  rw [hstopped] at hkeeps
  cases hkeeps with
  | same _ => exact absurd ⟨stopped, rfl⟩ hends
  | stopped hahead => exact ⟨_, _, hahead, rfl⟩

/-- If the run fails otherwise than it fails without being stopped, it comes to where it is told to
stop. -/
theorem comesTo_of_not_common {T : Tracking} {session : Session}
    (houter : T.outer = session.scriptId.toList) {program : Program} {e : RuntimeError}
    {lines : List String} (hrun : session.runProgram program = .halted (.failed e) lines)
    (he : ¬ T.common [] e) : session.ComesTo program T.stop := by
  have hkeeps := keeps_interpret houter program (Nat.le_refl _)
  refine ⟨_, Nat.le_refl _, ?_⟩
  unfold runProgram at hrun
  generalize Machine.interpret program session.machine = r at hkeeps hrun
  generalize (Runner.stopping T.stop _ []).executeProgram program.body session.machine = r' at hkeeps
  cases hkeeps with
  | stopped _ => exact ⟨_, rfl⟩
  | same hcommon =>
      cases r with
      | ok _ m => cases hrun
      | error halt m =>
          cases hrun
          exact absurd (hcommon e m rfl) he

/-- **A run fails for a circular import exactly if it comes to one**, and then with the specifier
and the position of this import, whatever imports are under way. **Every other failure is wrapped
once by each import that is under way**, so that the outermost is the one reported. -/
theorem import_failures (session : Session) (program : Program) :
    (∀ specifier pos, session.ComesToCircle program specifier pos →
      ∃ lines, session.runProgram program =
        .halted (.failed ⟨.circularImport specifier, some pos⟩) lines) ∧
    (∀ specifier position lines, session.runProgram program =
        .halted (.failed ⟨.circularImport specifier, position⟩) lines →
      ∃ pos, position = some pos ∧ session.ComesToCircle program specifier pos) ∧
    (∀ under e, e.cause.isCircular = false →
      session.ComesTo program (Incident.failing under e) →
      ∃ lines, session.runProgram program = .halted (.failed (e.through under)) lines) := by
  refine ⟨fun specifier pos hcircle => ?_, fun specifier position lines hrun => ?_,
    fun under e he hfailing => ?_⟩
  · obtain ⟨_, lines, ⟨i, hi, rfl⟩, hrun⟩ :=
      ahead_of_comesTo (T := .cycles session.scriptId.toList _) rfl hcircle
    obtain ⟨rfl, rfl⟩ : i.specifier = specifier ∧ i.position = pos := by simpa using hi
    exact ⟨lines, hrun⟩
  · -- told to stop at every circular import, the run is stopped, since it fails for no other reason
    have hsome : session.ComesTo program (Incident.closing session.scriptId.toList fun _ => true) :=
      comesTo_of_not_common (T := .cycles session.scriptId.toList _) rfl hrun fun hcommon => by
        obtain ⟨_, hi, _⟩ := hcommon rfl
        cases hi
    obtain ⟨_, _, ⟨i, _, rfl⟩, hfails⟩ :=
      ahead_of_comesTo (T := .cycles session.scriptId.toList _) rfl hsome
    obtain ⟨rfl, rfl⟩ : i.specifier = specifier ∧ some i.position = position := by
      rw [hrun] at hfails
      cases hfails
      exact ⟨rfl, rfl⟩
    refine ⟨i.position, rfl, ?_⟩
    -- an import with the same specifier and position is not among the others
    refine comesTo_of_not_common (T := .cycles session.scriptId.toList _) rfl hrun fun hcommon => ?_
    obtain ⟨j, hj, heq⟩ := hcommon rfl
    cases i
    cases j
    cases heq
    simp at hj
  · obtain ⟨_, lines, ⟨inner, hunder, rfl⟩, hrun⟩ :=
      ahead_of_comesTo (T := .failures session.scriptId.toList under he) rfl hfailing
    obtain rfl : under = inner := hunder
    exact ⟨lines, hrun⟩

/-- A division by zero behind two imports, and a module that imports the script. A run that is told
to stop nowhere comes to none of this. -/
theorem import_failures_two_levels :
    let texts := [("a", "lao \x7b x \x7d se \"b\""), ("b", "rakho x = 1 / 0"),
      ("c", "lao \x7b x \x7d se \"./main\""), ("main", "")]
    let session : Session := ⟨.standard, (MemoryModules.ofList texts).loader, some "main"⟩
    let importing (source : String) : Program := ⟨[.importNames ["x"] source ⟨7, 1⟩], false⟩
    (∃ lines, session.runProgram (importing "./a") = .halted (.failed ⟨.moduleLoad "./a"
      ("RuntimeError: Cannot load module \"b\": RuntimeError: division by zero at line 1, column 13"
        ++ " at line 1, column 1"), some ⟨7, 1⟩⟩) lines) ∧
    (∃ lines, session.runProgram (importing "./c") =
      .halted (.failed ⟨.circularImport "./main", some ⟨1, 1⟩⟩) lines) ∧
    ¬ session.ComesTo (importing "./c") fun _ _ => false := by
  intro texts session importing
  refine ⟨?_, (import_failures session (importing "./c")).1 _ _ ⟨_, Nat.le_refl _, ?_⟩,
    session.not_comesTo_nowhere _⟩
  · exact (import_failures session (importing "./a")).2.2
      [⟨"./a", ⟨7, 1⟩, "a"⟩, ⟨"b", ⟨1, 1⟩, "b"⟩] ⟨.divisionByZero, some ⟨1, 13⟩⟩ rfl
      ⟨_, Nat.le_refl _, by decide +kernel⟩
  · decide +kernel

end Session

end Lipi
