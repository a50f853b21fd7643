import Lipi.Proofs.Machine.Relation

set_option autoImplicit false

/-! # Runs that keep together until one of them halts

A computation gives a result, fails, or halts because something outside the language stops it: a
bound that is too low, or a conflict. Failures belong to the program, and an import rewrites them;
the other two reasons pass through every construct unchanged. So two runs that differ only in when
they halt for such a reason **give the same until the left one halts, and then the right one halts
as well, if that is asked for**. This is a relation in the sense of `EvalRelation`
(`Parting.relation`), and all that depends on the two runs is where they part.
-/

namespace Lipi

/-- A result that is a halt for the given reason. -/
def HaltsFor {α : Type} (reason : Halt) (r : EStateM.Result Halt Machine α) : Prop :=
  ∃ m, r = .error reason m

theorem not_haltsFor_ok {α : Type} (reason : Halt) (a : α) (m : Machine) :
    ¬ HaltsFor reason (.ok a m) := by
  rintro ⟨_, h⟩
  cases h

theorem haltsFor_error {α : Type} {reason halt : Halt} {m : Machine} :
    HaltsFor reason (.error halt m : EStateM.Result Halt Machine α) ↔ halt = reason := by
  constructor
  · rintro ⟨_, h⟩
    cases h
    rfl
  · rintro rfl
    exact ⟨m, rfl⟩

theorem haltsFor_onMachine {α : Type} {reason : Halt} (change : Machine → Machine)
    (r : EStateM.Result Halt Machine α) :
    HaltsFor reason (Eval.onMachine change r) ↔ HaltsFor reason r := by
  unfold Eval.onMachine
  cases r with
  | ok a m => simp only [not_haltsFor_ok]
  | error halt m => simp only [haltsFor_error]

/-- Whether a result is a halt for a reason can be read off it. -/
instance HaltsFor.decidable {α : Type} (reason : Halt) :
    (r : EStateM.Result Halt Machine α) → Decidable (HaltsFor reason r)
  | .ok a m => isFalse (not_haltsFor_ok reason a m)
  | .error halt _ => decidable_of_iff (halt = reason) haltsFor_error.symm

/-! ## Steps that settle -/

/-- A computation gives a result or fails from wherever it starts. -/
def Eval.Settles {α : Type} (x : Eval α) : Prop :=
  ∀ (m : Machine) (reason : Halt), HaltsFor reason (x m) → ∃ e, reason = .failed e

namespace Eval

theorem settles_of_ok {α : Type} {x : Eval α} (hx : ∀ m, ∃ a m', x m = .ok a m') : x.Settles := by
  intro m reason h
  obtain ⟨a, m', hm⟩ := hx m
  rw [hm] at h
  exact absurd h (not_haltsFor_ok reason a m')

theorem Elementary.settles {α : Type} {x : Eval α} (hx : x.Elementary) : x.Settles := by
  intro m reason h
  have hends := hx m
  generalize x m = r at hends h
  cases hends with
  | gives a heap => exact absurd h (not_haltsFor_ok reason a _)
  | fails e => exact ⟨e, (haltsFor_error.mp h).symm⟩

/-- Setting a member settles where there is no conflict. -/
theorem setMember_settles {target : Value} {key : Key} {m : Machine}
    (hfree : Machine.conflicts m.heap target key = false) (value : Value) (pos : Position)
    {reason : Halt} (h : HaltsFor reason (Eval.setMember target key value pos m)) :
    ∃ e, reason = .failed e := by
  rw [setMember_free hfree] at h
  exact (elementary_update pos _ _).settles m reason h

end Eval

/-! ## Partings -/

theorem Halt.exhausted_ne_failed (e : RuntimeError) : Halt.exhausted ≠ .failed e := by
  intro h
  cases h

theorem Halt.conflict_ne_failed (e : RuntimeError) : Halt.conflict ≠ .failed e := by
  intro h
  cases h

/-- How two runs part: the left one halts for `left`, and the right one then halts for `right`, or
does anything if there is no such reason. -/
structure Parting where
  left : Halt
  right : Option Halt
  left_ne_failed : ∀ e, left ≠ .failed e
  right_ne_failed : ∀ e, .failed e ∉ right

namespace Parting

variable (P : Parting)

/-- Two results are the same, or the runs have parted. -/
def Keeps {α : Type} (r r' : EStateM.Result Halt Machine α) : Prop :=
  (r = r' ∧ ¬ HaltsFor P.left r) ∨ (HaltsFor P.left r ∧ ∀ reason ∈ P.right, HaltsFor reason r')

/-- Two computations give the same from wherever they start, or part. -/
def Follows {α : Type} (x y : Eval α) : Prop :=
  ∀ m : Machine, P.Keeps (x m) (y m)

variable {P}

theorem follows_of_settles {α : Type} {x : Eval α} (hx : x.Settles) : P.Follows x x := by
  intro m
  refine Or.inl ⟨rfl, fun h => ?_⟩
  obtain ⟨e, he⟩ := hx m P.left h
  exact P.left_ne_failed e he

theorem follows_of_elementary {α : Type} {x : Eval α} (hx : x.Elementary) : P.Follows x x :=
  follows_of_settles hx.settles

/-- What is done with a result keeps the runs together if it passes on every halt that is not a
failure and makes none of its own. -/
theorem keeps_map {α β : Type} {r r' : EStateM.Result Halt Machine α}
    (next : EStateM.Result Halt Machine α → EStateM.Result Halt Machine β)
    (hpass : ∀ (reason : Halt) (r : EStateM.Result Halt Machine α), (∀ e, reason ≠ .failed e) →
      (HaltsFor reason (next r) ↔ HaltsFor reason r))
    (h : P.Keeps r r') : P.Keeps (next r) (next r') := by
  rcases h with ⟨rfl, hleft⟩ | ⟨hleft, hright⟩
  · exact Or.inl ⟨rfl, fun h => hleft ((hpass _ _ P.left_ne_failed).mp h)⟩
  · refine Or.inr ⟨(hpass _ _ P.left_ne_failed).mpr hleft, fun reason hmem => ?_⟩
    have hne : ∀ e, reason ≠ .failed e := fun e he => P.right_ne_failed e (he ▸ hmem)
    exact (hpass reason r' hne).mpr (hright reason hmem)

theorem keeps_bind {α β : Type} {x y : Eval α} {f g : α → Eval β} {m : Machine}
    (hx : P.Keeps (x m) (y m)) (hf : ∀ a m', x m = .ok a m' → P.Keeps (f a m') (g a m')) :
    P.Keeps ((x >>= f) m) ((y >>= g) m) := by
  rcases hx with ⟨heq, hleft⟩ | ⟨⟨m', hm⟩, hright⟩
  · cases hxm : x m with
    | ok a m' =>
        rw [Eval.bind_ok f hxm, Eval.bind_ok g (heq.symm.trans hxm)]
        exact hf a m' hxm
    | error halt m' =>
        rw [hxm] at hleft
        rw [Eval.bind_error f hxm, Eval.bind_error g (heq.symm.trans hxm)]
        exact Or.inl ⟨rfl, fun h => hleft (haltsFor_error.mpr (haltsFor_error.mp h))⟩
  · refine Or.inr ⟨⟨m', Eval.bind_error f hm⟩, fun reason hmem => ?_⟩
    obtain ⟨m'', hm'⟩ := hright reason hmem
    exact ⟨m'', Eval.bind_error g hm'⟩

theorem keeps_onMachine {α : Type} {r r' : EStateM.Result Halt Machine α}
    (change : Machine → Machine) (h : P.Keeps r r') :
    P.Keeps (Eval.onMachine change r) (Eval.onMachine change r') :=
  keeps_map (Eval.onMachine change) (fun _ r _ => haltsFor_onMachine change r) h

theorem follows_inScope {α : Type} (scope : ScopeRef) {x y : Eval α} (hx : P.Follows x y) :
    P.Follows (Eval.inScope scope x) (Eval.inScope scope y) := by
  intro m
  rw [Eval.inScope_apply, Eval.inScope_apply]
  exact keeps_onMachine _ (hx { m with environment := scope })

theorem follows_inCall {α : Type} (frame : Option Frame) {x y : Eval α} (hx : P.Follows x y) :
    P.Follows (Eval.inCall frame x) (Eval.inCall frame y) := by
  intro m
  rw [Eval.inCall_apply, Eval.inCall_apply]
  exact keeps_onMachine _ (hx { m with frames := frame :: m.frames })

theorem follows_inNewScope {α : Type} {bindings : Dict Binding} {parent : ScopeRef} {x y : Eval α}
    (hx : P.Follows x y) :
    P.Follows (Eval.inNewScope bindings parent x) (Eval.inNewScope bindings parent y) :=
  fun m => keeps_bind (follows_of_elementary (Eval.elementary_alloc _) m) fun scope m' _ =>
    follows_inScope scope hx m'

theorem follows_inNewCall {α : Type} {frame : Option Frame} {bindings : Dict Binding}
    {closure : ScopeRef} {x y : Eval α} (hx : P.Follows x y) :
    P.Follows (Eval.inNewCall frame bindings closure x)
      (Eval.inNewCall frame bindings closure y) :=
  fun m => keeps_bind (follows_of_elementary (Eval.elementary_alloc _) m) fun scope m' _ =>
    follows_inCall frame (follows_inScope scope hx) m'

variable (P)

/-- Keeping together as a relation. -/
def relation : EvalRelation where
  rel := P.Follows
  fits _ := True
  fits_mono _ _ := trivial
  pure a := follows_of_elementary (Eval.elementary_pure a)
  bind hx hf m := keeps_bind (hx m) fun a m' _ => hf a m'
  ask hf m := hf m.heap m.environment m.frame? m.callDepth m
  fail cause pos _ := follows_of_elementary (Eval.elementary_fail cause pos)
  getMember target key pos := follows_of_elementary (Eval.elementary_getMember target key pos)
  newArray _ := follows_of_elementary (Eval.elementary_alloc _)
  newInstance _ := follows_of_elementary (Eval.elementary_alloc _)
  newFunction _ _ _ := follows_of_elementary (Eval.elementary_alloc _)
  declareClass _ _ _ _ _ := follows_of_elementary (Eval.elementary_alloc _)
  declare name value constant pos := follows_of_elementary (Eval.elementary_declare name value constant pos)
  assign name value pos := follows_of_elementary (Eval.elementary_assign name value pos)
  setField target name value pos := follows_of_settles fun m _ h => by
    refine Eval.setMember_settles ?_ value pos h
    cases target <;> rfl
  noteExports _ := follows_of_settles (Eval.settles_of_ok fun _ => ⟨_, _, rfl⟩)
  inNewScope bindings parent _ _ hx := follows_inNewScope hx

variable {P}

/-! ## Calls and imports -/

section Runners

variable {run run' : Runner}

theorem follows_callRoutine (hs : ∀ s, P.Follows (run.execute s) (run'.execute s))
    (routine : Routine) (closure : ScopeRef) (arguments : List Value) (frame : Option Frame)
    (pos : Position) :
    P.Follows (run.callRoutine routine closure arguments frame pos)
      (run'.callRoutine routine closure arguments frame pos) := by
  intro m
  have hbody : P.Follows (run.activate routine closure arguments frame)
      (run'.activate routine closure arguments frame) :=
    EvalRelation.activate (R := P.relation) run run' (fun _ _ _ hx => follows_inNewCall hx) fun s _ => hs s
  rw [Runner.callRoutine_eq, Runner.callRoutine_eq]
  by_cases hdeep : m.limits.maxCallDepth ≤ m.callDepth
  · rw [if_pos hdeep, if_pos hdeep]
    exact follows_of_elementary (Eval.elementary_fail _ pos) m
  · rw [if_neg hdeep, if_neg hdeep]
    exact hbody m

theorem follows_importProgram (hs : ∀ s, P.Follows (run.execute s) (run'.execute s))
    (specifier : String) (id : ModuleId) (program : Program) (pos : Position) :
    P.Follows (run.importProgram specifier id program pos)
      (run'.importProgram specifier id program pos) := by
  intro m
  have hrun : P.Follows (run.runModule program) (run'.runModule program) := by
    rw [Runner.runModule_eq, Runner.runModule_eq]
    exact P.relation.bind (EvalRelation.executeProgram (R := P.relation) run run' _ fun s _ => hs s)
      fun _ => follows_of_elementary Eval.elementary_collectExports
  rw [Runner.importProgram_eq, Runner.importProgram_eq]
  refine keeps_map (Eval.ofModule specifier id pos (m.resume · id)) (fun reason r hreason => ?_)
    (hrun (m.startModule id))
  unfold Eval.ofModule
  cases r with
  | ok exports ended => simp only [not_haltsFor_ok]
  | error halt ended =>
      rw [haltsFor_error, haltsFor_error]
      cases halt with
      | failed e =>
          -- the failure is rewritten, but it stays a failure
          exact ⟨fun h => absurd h.symm (hreason _), fun h => absurd h.symm (hreason _)⟩
      | conflict => exact Iff.rfl
      | exhausted => exact Iff.rfl

theorem follows_loadModule (hs : ∀ s, P.Follows (run.execute s) (run'.execute s))
    (specifier : String) (pos : Position) :
    P.Follows (run.loadModule specifier pos) (run'.loadModule specifier pos) := by
  intro m
  rcases Runner.loadModule_cases specifier pos m.modules m.moduleId with
    ⟨cause, hfail⟩ | ⟨exports, hdone⟩ | ⟨id, _, program, _, _, _, hrun⟩
  · rw [hfail run m rfl rfl, hfail run' m rfl rfl]
    exact follows_of_elementary (Eval.elementary_fail cause pos) m
  · rw [hdone run m rfl rfl, hdone run' m rfl rfl]
    exact P.relation.pure exports m
  · rw [hrun run m rfl rfl, hrun run' m rfl rfl]
    exact follows_importProgram hs specifier id program pos m

variable (run run')

/-- Runners that keep together on trees keep together on everything that is made of them. -/
theorem respects (he : ∀ e, P.Follows (run.evaluate e) (run'.evaluate e))
    (hs : ∀ s, P.Follows (run.execute s) (run'.execute s)) (d : Nat) :
    P.relation.Respects d run run' where
  evaluate e _ := he e
  execute s _ := hs s
  callValue := ExprRelation.callValue run run' (follows_callRoutine hs)
  callMethod := ExprRelation.callMethod run run' (follows_callRoutine hs)
  loop condition body pos _ _ m :=
    EvalRelation.loop (R := P.relation) run run' m.limits.maxIterations
      (fun m => follows_of_elementary (Eval.elementary_fail _ pos) m) (he condition) (hs body) m
  print _ := follows_of_settles (Eval.settles_of_ok fun _ => ⟨_, _, rfl⟩)
  loadModule specifier pos := follows_loadModule hs specifier pos

end Runners

end Parting

end Lipi
