import Lipi.Proofs.Machine.Nesting
import Lipi.Module.Memory
import Lipi.Session

set_option autoImplicit false

/-! # How runs end

**Every run of a session ends**, whatever the program, the limits and the modules are, and the bound
on the nesting has no part in how it ends (`Session.runProgram_ends`). It ends well, it fails, or it
is aborted by a conflict; and it is aborted exactly if it comes to an assignment that sets a member
of an instance under a key whose text mentions that very instance.

To say that a run comes to such an assignment, the run is watched: `Runner.until` runs a program
until it is about to evaluate an expression at which it is told to stop. The run itself and the
watched run are a `Parting`.
-/

namespace Lipi

/-! ## Watched runs -/

mutual

/-- Evaluates an expression, but stops in front of every expression at which `stop` says so, given
the bound on the nesting inside it. A run that is stopped halts as `exhausted`. -/
def evaluateUntil (stop : Nat → Expr → Machine → Bool) : Nat → Expr → Eval Value
  | 0, _ => throw .exhausted
  | n + 1, e => fun m =>
    if stop n e m then .error .exhausted m
    else Runner.expression ⟨evaluateUntil stop n, executeUntil stop n⟩ e m

/-- Executes a statement up to an expression at which `stop` says to stop. -/
def executeUntil (stop : Nat → Expr → Machine → Bool) : Nat → Statement → Eval Completion
  | 0, _ => throw .exhausted
  | n + 1, s => Runner.statement ⟨evaluateUntil stop n, executeUntil stop n⟩ s

end

/-- The runner of a watched run. -/
def Runner.until (stop : Nat → Expr → Machine → Bool) (n : Nat) : Runner :=
  ⟨evaluateUntil stop n, executeUntil stop n⟩

namespace Conflict

/-- Whether an expression is an assignment `o[k] = v` whose parts all have values, where `o` is an
instance and the text of `k` mentions it. -/
def clashes (n : Nat) (e : Expr) (m : Machine) : Bool :=
  match e with
  | .assign (.index object key _) value _ =>
    match evaluate n object m with
    | .error _ _ => false
    | .ok o m₁ =>
      match evaluate n key m₁ with
      | .error _ _ => false
      | .ok k m₂ =>
        match evaluate n value m₂ with
        | .error _ _ => false
        | .ok _ m₃ => Machine.conflicts m₃.heap o (.computed k)
  | _ => false

section Assignment

variable {n : Nat} {object key value : Expr} {keyPos pos : Position} {m m₁ m₂ m₃ : Machine}
  {o k v : Value}

theorem clashes_of_values (ho : evaluate n object m = .ok o m₁) (hk : evaluate n key m₁ = .ok k m₂)
    (hv : evaluate n value m₂ = .ok v m₃) :
    clashes n (.assign (.index object key keyPos) value pos) m
      = Machine.conflicts m₃.heap o (.computed k) := by
  simp only [clashes, ho, hk, hv]

theorem values_of_clashes (h : clashes n (.assign (.index object key keyPos) value pos) m = true) :
    ∃ o k v m₁ m₂ m₃, evaluate n object m = .ok o m₁ ∧ evaluate n key m₁ = .ok k m₂ ∧
      evaluate n value m₂ = .ok v m₃ ∧ Machine.conflicts m₃.heap o (.computed k) = true := by
  unfold clashes at h
  cases ho : evaluate n object m with
  | error halt m₁ => simp only [ho] at h; cases h
  | ok o m₁ =>
      cases hk : evaluate n key m₁ with
      | error halt m₂ => simp only [ho, hk] at h; cases h
      | ok k m₂ =>
          cases hv : evaluate n value m₂ with
          | error halt m₃ => simp only [ho, hk, hv] at h; cases h
          | ok v m₃ =>
              simp only [ho, hk, hv] at h
              exact ⟨o, k, v, m₁, m₂, m₃, rfl, hk, hv, h⟩

/-- An assignment that clashes aborts the run. -/
theorem assign_of_clashes
    (h : clashes n (.assign (.index object key keyPos) value pos) m = true) :
    HaltsFor .conflict ((Runner.within n).assign (.index object key keyPos) value pos m) := by
  obtain ⟨o, k, v, m₁, m₂, m₃, ho, hk, hv, hclash⟩ := values_of_clashes h
  have hset : Eval.setMember o (.computed k) v pos m₃ = .error .conflict m₃ := if_pos hclash
  -- the operands give their values one after another, and the setting of the member aborts
  refine ⟨m₃, ?_⟩
  calc (Runner.within n).assign (.index object key keyPos) value pos m
      = _ := Eval.bind_ok _ ho
    _ = _ := Eval.bind_ok _ hk
    _ = _ := Eval.bind_ok _ hv
    _ = .error .conflict m₃ := Eval.bind_error _ hset

end Assignment

/-- A run and the same run watched for clashes part where the run aborts. -/
def parting : Parting where
  left := .conflict
  right := some .exhausted
  left_ne_failed := Halt.conflict_ne_failed
  right_ne_failed e h := Halt.exhausted_ne_failed e (Option.mem_some.mp h)

/-- An assignment that does not clash keeps the run and the watched run together. -/
theorem keeps_assign {n : Nat} {object key value : Expr} {keyPos pos : Position} {m : Machine}
    (he : ∀ e, parting.Follows (evaluate n e) (evaluateUntil clashes n e))
    (hfree : clashes n (.assign (.index object key keyPos) value pos) m = false) :
    parting.Keeps ((Runner.within n).assign (.index object key keyPos) value pos m)
      ((Runner.until clashes n).assign (.index object key keyPos) value pos m) := by
  refine Parting.keeps_bind (he object m) fun o m₁ ho => ?_
  refine Parting.keeps_bind (he key m₁) fun k m₂ hk => ?_
  refine Parting.keeps_bind (he value m₂) fun v m₃ hv => ?_
  -- the operands have kept together, so that both runs set the same member on the same heap
  have hset : Machine.conflicts m₃.heap o (.computed k) = false := by
    rw [← clashes_of_values ho hk hv, hfree]
  refine Parting.keeps_bind (Or.inl ⟨rfl, fun h => ?_⟩) fun _ m₄ _ => parting.relation.pure v m₄
  obtain ⟨e, he⟩ := Eval.setMember_settles hset v pos h
  cases he

/-- **A run and the same run watched for clashes keep together.** -/
theorem follows_until (n : Nat) :
    (∀ e, parting.Follows (evaluate n e) (evaluateUntil clashes n e)) ∧
    (∀ s, parting.Follows (execute n s) (executeUntil clashes n s)) := by
  induction n with
  | zero =>
      have hzero : ∀ {α : Type}, parting.Follows (throw .exhausted : Eval α) (throw .exhausted) :=
        fun m => Or.inl ⟨rfl, fun h => by cases haltsFor_error.mp h⟩
      exact ⟨fun _ => hzero, fun _ => hzero⟩
  | succ n ih =>
      obtain ⟨he, hs⟩ := ih
      have hrun := Parting.respects (Runner.within n) (Runner.until clashes n) he hs
      refine ⟨fun e m => ?_, fun s => EvalRelation.statement trivial (hrun s.depth)⟩
      show parting.Keeps ((Runner.within n).expression e m)
        (if clashes n e m then .error .exhausted m else (Runner.until clashes n).expression e m)
      by_cases hassign : ∃ object key keyPos value pos,
          e = .assign (.index object key keyPos) value pos
      · obtain ⟨object, key, keyPos, value, pos, rfl⟩ := hassign
        cases hclash : clashes n (.assign (.index object key keyPos) value pos) m with
        | true =>
            refine Or.inr ⟨assign_of_clashes hclash, fun reason hreason => ?_⟩
            cases hreason
            exact ⟨m, rfl⟩
        | false => exact keeps_assign he hclash
      · -- the run is stopped in front of nothing else
        have hfree : clashes n e m = false := by
          unfold clashes
          split
          · exact absurd ⟨_, _, _, _, _, rfl⟩ hassign
          · rfl
        rw [hfree, if_neg Bool.false_ne_true]
        exact ExprRelation.expression (hrun e.depth).toRespectsParts
          (fun object key keyPos value pos heq => absurd ⟨_, _, _, _, _, heq⟩ hassign) m

end Conflict

/-! ## Sessions -/

/-- Whether a run was aborted by a conflict. -/
def Outcome.isAborted : Outcome → Bool
  | .halted .conflict _ => true
  | _ => false

theorem Outcome.isAborted_iff {outcome : Outcome} :
    outcome.isAborted = true ↔ ∃ lines, outcome = .halted .conflict lines := by
  cases outcome with
  | rejected errors => simp [isAborted]
  | completed lines => simp [isAborted]
  | halted reason lines => cases reason <;> simp [isAborted]

namespace Session

/-- Runs a program, nesting at most `n` deep. -/
def runWithin (session : Session) (n : Nat) (program : Program) : Outcome :=
  match (Runner.within n).executeProgram program.body session.machine with
  | .ok _ m => .completed m.output.toList
  | .error halt m => .halted halt m.output.toList

/-- The run of a program comes to an assignment that sets a member of an instance under a key whose
text mentions the instance: watched for this, it is stopped under every bound that is large
enough. -/
def Clashes (session : Session) (program : Program) : Prop :=
  ∃ bound, ∀ n, bound ≤ n → HaltsFor .exhausted
    ((Runner.until Conflict.clashes n).executeProgram program.body session.machine)

/-- A run whose nesting has room enough is aborted if and only if it is stopped when watched. -/
theorem haltsFor_conflict_iff (session : Session) (program : Program) {n : Nat}
    (hn : session.machine.nesting program.depth ≤ n) :
    HaltsFor .conflict (Machine.interpret program session.machine) ↔ HaltsFor .exhausted
      ((Runner.until Conflict.clashes n).executeProgram program.body session.machine) := by
  obtain ⟨heq, hends⟩ := Nesting.interpret_eq program session.machine hn
  have hkeeps : Conflict.parting.Keeps
      ((Runner.within n).executeProgram program.body session.machine)
      ((Runner.until Conflict.clashes n).executeProgram program.body session.machine) :=
    EvalRelation.executeProgram (R := Conflict.parting.relation) (Runner.within n)
      (Runner.until Conflict.clashes n) _ (fun s _ => (Conflict.follows_until n).2 s)
      session.machine
  rw [heq] at hkeeps
  rcases hkeeps with ⟨hsame, hfree⟩ | ⟨hconflict, hstopped⟩
  · rw [← hsame]
    exact ⟨fun h => absurd h hfree, fun h => absurd h hends⟩
  · exact ⟨fun _ => hstopped _ rfl, fun _ => hconflict⟩

/-- **Every run of a session ends, whatever bound on the nesting it is given from some bound on**:
it completes, it fails, or it is aborted, and it is aborted exactly if it comes to an assignment
that sets a member of an instance under a key whose text mentions the instance. -/
theorem runProgram_ends (session : Session) (program : Program) :
    (∃ bound, ∀ n, bound ≤ n → session.runWithin n program = session.runProgram program) ∧
    ((∃ lines, session.runProgram program = .completed lines) ∨
      (∃ e lines, session.runProgram program = .halted (.failed e) lines) ∨
      (∃ lines, session.runProgram program = .halted .conflict lines)) ∧
    ((∃ lines, session.runProgram program = .halted .conflict lines) ↔
      session.Clashes program) := by
  have hends := (Nesting.interpret_eq program session.machine (Nat.le_refl _)).2
  refine ⟨⟨session.machine.nesting program.depth, fun n hn => ?_⟩, ?_, ?_⟩
  · have hsame := (Nesting.interpret_eq program session.machine hn).1
    unfold runWithin runProgram
    cases hrun : Machine.interpret program session.machine with
    | ok _ m => rw [hsame.trans hrun]
    | error halt m => rw [hsame.trans hrun]
  · unfold runProgram
    cases hrun : Machine.interpret program session.machine with
    | ok _ m => exact Or.inl ⟨_, rfl⟩
    | error halt m =>
        rw [hrun] at hends
        cases halt with
        | failed e => exact Or.inr (Or.inl ⟨e, _, rfl⟩)
        | conflict => exact Or.inr (Or.inr ⟨_, rfl⟩)
        | exhausted => exact absurd ⟨m, rfl⟩ hends
  · have haborted : (∃ lines, session.runProgram program = .halted .conflict lines) ↔
        HaltsFor .conflict (Machine.interpret program session.machine) := by
      unfold runProgram
      cases Machine.interpret program session.machine with
      | ok _ m => simp only [not_haltsFor_ok, reduceCtorEq, exists_false]
      | error halt m =>
          simp only [haltsFor_error, Outcome.halted.injEq, exists_and_left, exists_eq', and_true]
    rw [haborted]
    constructor
    · intro h
      exact ⟨session.machine.nesting program.depth,
        fun n hn => (session.haltsFor_conflict_iff program hn).mp h⟩
    · rintro ⟨bound, hbound⟩
      have hstopped := hbound _ (Nat.le_max_right (session.machine.nesting program.depth) bound)
      exact (session.haltsFor_conflict_iff program (Nat.le_max_left _ bound)).mpr hstopped

/-- A field of an instance that is set under the instance itself: the run neither completes nor
fails. -/
theorem run_aborts :
    ∃ lines, (⟨.standard, MemoryModules.empty.loader, none⟩ : Session).run
      "kaksha A \x7b\x7d\nrakho o = naya A()\no[o] = 1" = .halted .conflict lines := by
  have haborted : ((⟨.standard, MemoryModules.empty.loader, none⟩ : Session).run
      "kaksha A \x7b\x7d\nrakho o = naya A()\no[o] = 1").isAborted = true := by
    decide +kernel
  exact Outcome.isAborted_iff.mp haborted

end Session

end Lipi
