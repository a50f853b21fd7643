import Lipi.Module.Memory
import Lipi.Proofs.Machine.Restoration
import Lipi.Proofs.Session.Inspecting

set_option autoImplicit false

/-! # Ceilings of loops and calls

A loop counts its rounds down from what the limits allow. To say what this comes to, the loop
without a limit is described on its own, by what its condition and its body do, round by round
(`Runner.LoopEnds`). **The loop of the machine ends as the loop without a limit does if that runs its
body at most as often as is allowed; it fails for its limit exactly if the condition holds once more
after that many whole rounds** (`loop_ceiling`). Whatever conditions and bodies do, they leave the
limits as they are, so that the number in the message is the one that the loop started with.

Calls are counted by the frames that are active. On a lawful machine there are never more of them
than allowed, and **a call is refused exactly if there are as many** (`Machine.Lawful.callsCapped`);
what it would run has no part in that, and the machine stays as it is.

Hence **both limits of a session are exact** throughout all runs (`Session.ceilings_exact`).
-/

namespace Lipi

/-! ## The loop without a limit -/

namespace Runner

section Loops

variable (run : Runner) (condition : Expr) (body : Statement)

/-- From the first machine `k` whole rounds lead to the second: in each of them the condition holds
and the body comes to its end. -/
inductive Rounds : Nat → Machine → Machine → Prop where
  | none {m : Machine} : Rounds 0 m m
  | round {k : Nat} {m m₁ m₂ m₃ : Machine} {v : Value} : run.evaluate condition m = .ok v m₁ →
    v.isTruthy = true → run.execute body m₁ = .ok .normal m₂ → Rounds k m₂ m₃ →
    Rounds (k + 1) m m₃

/-- The loop ends like this if there is no limit, and it has run its body `k` times then. -/
inductive LoopEnds : Machine → Nat → EStateM.Result Halt Machine Completion → Prop where
  | testHalts {m m₁ : Machine} {halt : Halt} : run.evaluate condition m = .error halt m₁ →
    LoopEnds m 0 (.error halt m₁)
  | done {m m₁ : Machine} {v : Value} : run.evaluate condition m = .ok v m₁ →
    v.isTruthy = false → LoopEnds m 0 (.ok .normal m₁)
  | bodyHalts {m m₁ m₂ : Machine} {v : Value} {halt : Halt} :
    run.evaluate condition m = .ok v m₁ → v.isTruthy = true →
    run.execute body m₁ = .error halt m₂ → LoopEnds m 1 (.error halt m₂)
  | returns {m m₁ m₂ : Machine} {v w : Value} : run.evaluate condition m = .ok v m₁ →
    v.isTruthy = true → run.execute body m₁ = .ok (.returned w) m₂ →
    LoopEnds m 1 (.ok (.returned w) m₂)
  | round {k : Nat} {m m₁ m₂ : Machine} {v : Value} {r : EStateM.Result Halt Machine Completion} :
    run.evaluate condition m = .ok v m₁ → v.isTruthy = true →
    run.execute body m₁ = .ok .normal m₂ → LoopEnds m₂ k r → LoopEnds m (k + 1) r

/-- After `n` whole rounds the condition holds once more, at the second machine. -/
def WantsMore (n : Nat) (m m' : Machine) : Prop :=
  ∃ m₁ v, run.Rounds condition body n m m₁ ∧ run.evaluate condition m₁ = .ok v m' ∧
    v.isTruthy = true

variable {run condition body} {m m' m₁ m₂ : Machine} {v : Value} (pos : Position)

/-! ### One round -/

theorem loop_testHalts {halt : Halt} (htest : run.evaluate condition m = .error halt m₁) (n : Nat) :
    run.loop condition body pos n m = .error halt m₁ := by
  cases n <;> exact Eval.bind_error _ htest

theorem loop_done (htest : run.evaluate condition m = .ok v m₁) (hv : v.isTruthy = false) (n : Nat) :
    run.loop condition body pos n m = .ok .normal m₁ := by
  cases n <;>
  · rw [loop, Eval.bind_ok _ htest, hv]
    rfl

theorem loop_over (htest : run.evaluate condition m = .ok v m₁) (hv : v.isTruthy = true) :
    run.loop condition body pos 0 m =
      .error (.failed ⟨.loopLimit m₁.limits.maxIterations, some pos⟩) m₁ := by
  rw [loop, Eval.bind_ok _ htest, hv]
  rfl

/-- What a loop makes of the end of its body. -/
theorem loop_body (htest : run.evaluate condition m = .ok v m₁) (hv : v.isTruthy = true) (n : Nat) :
    run.loop condition body pos (n + 1) m = (run.execute body >>= fun
      | .normal => run.loop condition body pos n
      | .returned value => return .returned value) m₁ := by
  rw [loop, Eval.bind_ok _ htest, hv]
  rfl

/-! ### All rounds -/

/-- A loop that may run its body often enough ends as the one without a limit. -/
theorem LoopEnds.loop_eq {k n : Nat} {r : EStateM.Result Halt Machine Completion}
    (h : run.LoopEnds condition body m k r) (hk : k ≤ n) : run.loop condition body pos n m = r := by
  induction h generalizing n with
  | testHalts htest => exact loop_testHalts pos htest n
  | done htest hv => exact loop_done pos htest hv n
  | bodyHalts htest hv hbody =>
      obtain ⟨n, rfl⟩ := Nat.exists_eq_add_of_le' hk
      rw [loop_body pos htest hv, Eval.bind_error _ hbody]
  | returns htest hv hbody =>
      obtain ⟨n, rfl⟩ := Nat.exists_eq_add_of_le' hk
      rw [loop_body pos htest hv, Eval.bind_ok _ hbody]
      rfl
  | round htest hv hbody _ ih =>
      obtain ⟨n, rfl⟩ := Nat.exists_eq_add_of_le' (Nat.le_trans (Nat.le_add_left 1 _) hk)
      rw [loop_body pos htest hv, Eval.bind_ok _ hbody]
      exact ih (Nat.le_of_succ_le_succ hk)

/-- A loop whose condition holds once more after all its rounds fails. -/
theorem WantsMore.loop_eq {n : Nat} (h : run.WantsMore condition body n m m') :
    run.loop condition body pos n m =
      .error (.failed ⟨.loopLimit m'.limits.maxIterations, some pos⟩) m' := by
  obtain ⟨m₁, v, hrounds, htest, hv⟩ := h
  induction hrounds with
  | none => exact loop_over pos htest hv
  | round htest' hv' hbody _ ih =>
      rw [loop_body pos htest' hv', Eval.bind_ok _ hbody]
      exact ih htest

/-- A loop ends while it runs its body at most `n` times, or its condition holds once more after
that. -/
theorem loopEnds_or_wantsMore (run : Runner) (condition : Expr) (body : Statement) (n : Nat)
    (m : Machine) : (∃ k ≤ n, ∃ r, run.LoopEnds condition body m k r) ∨
      ∃ m', run.WantsMore condition body n m m' := by
  induction n generalizing m with
  | zero =>
      cases htest : run.evaluate condition m with
      | error halt m₁ => exact .inl ⟨0, Nat.le_refl 0, _, .testHalts htest⟩
      | ok v m₁ =>
          cases hv : v.isTruthy with
          | false => exact .inl ⟨0, Nat.le_refl 0, _, .done htest hv⟩
          -- no iteration is left, and the condition holds
          | true => exact .inr ⟨m₁, m, v, .none, htest, hv⟩
  | succ n ih =>
      cases htest : run.evaluate condition m with
      | error halt m₁ => exact .inl ⟨0, Nat.zero_le _, _, .testHalts htest⟩
      | ok v m₁ =>
          cases hv : v.isTruthy with
          | false => exact .inl ⟨0, Nat.zero_le _, _, .done htest hv⟩
          | true =>
              cases hbody : run.execute body m₁ with
              | error halt m₂ => exact .inl ⟨1, Nat.le_add_left 1 n, _, .bodyHalts htest hv hbody⟩
              | ok completion m₂ =>
                  cases completion with
                  | returned w => exact .inl ⟨1, Nat.le_add_left 1 n, _, .returns htest hv hbody⟩
                  | normal =>
                      rcases ih m₂ with ⟨k, hk, r, hends⟩ | ⟨m', m₃, w, hrounds, htest', hw⟩
                      · exact .inl ⟨k + 1, Nat.succ_le_succ hk, r, .round htest hv hbody hends⟩
                      · exact .inr ⟨m', m₃, w, .round htest hv hbody hrounds, htest', hw⟩

/-- The two exclude each other. -/
theorem LoopEnds.not_wantsMore {k n : Nat} {r : EStateM.Result Halt Machine Completion}
    (h : run.LoopEnds condition body m k r) (hk : k ≤ n) :
    ¬ run.WantsMore condition body n m m' := by
  rintro ⟨m₁, v, hrounds, hmore, hv⟩
  -- runs are deterministic, so rounds and end go through the same machines
  induction h generalizing n with
  | testHalts htest =>
      cases hrounds with
      | none => exact nomatch htest.symm.trans hmore
      | round htest' => exact nomatch htest.symm.trans htest'
  | done htest hfalse =>
      cases hrounds with
      | none =>
          cases htest.symm.trans hmore
          exact Bool.false_ne_true (hfalse.symm.trans hv)
      | round htest' htrue =>
          cases htest.symm.trans htest'
          exact Bool.false_ne_true (hfalse.symm.trans htrue)
  | bodyHalts htest _ hbody =>
      cases hrounds with
      | none => exact absurd hk (Nat.not_succ_le_zero 0)
      | round htest' _ hbody' =>
          cases htest.symm.trans htest'
          exact nomatch hbody.symm.trans hbody'
  | returns htest _ hbody =>
      cases hrounds with
      | none => exact absurd hk (Nat.not_succ_le_zero 0)
      | round htest' _ hbody' =>
          cases htest.symm.trans htest'
          exact nomatch hbody.symm.trans hbody'
  | round htest _ hbody _ ih =>
      cases hrounds with
      | none => exact absurd hk (Nat.not_succ_le_zero _)
      | round htest' _ hbody' hrounds =>
          cases htest.symm.trans htest'
          cases hbody.symm.trans hbody'
          exact ih (Nat.le_of_succ_le_succ hk) hrounds

end Loops

end Runner

/-! ## The loop of the machine -/

namespace Restoration

/-- Rounds leave the limits as they are. -/
theorem limits_of_wantsMore {n k : Nat} {condition : Expr} {body : Statement} {m m' : Machine}
    (h : (Runner.within n).WantsMore condition body k m m') : m'.limits = m.limits := by
  -- conditions and bodies end, well or not, under the limits with which they start
  obtain ⟨htest, hbody⟩ := restores_within n
  obtain ⟨m₁, v, hrounds, hmore, -⟩ := h
  induction hrounds with
  | none => exact ((htest condition).of_ok hmore).limits
  | round htested _ hran _ ih =>
      have hround := ((htest condition).of_ok htested).trans ((hbody body).of_ok hran)
      exact (ih hmore).trans hround.limits

end Restoration

/-- What a loop does at a machine that allows it `N` iterations: it ends as the loop without a limit
does if that runs its body at most `N` times, and fails for its own limit exactly if the condition
holds once more after `N` whole rounds. -/
structure LoopCapped (run : Runner) (condition : Expr) (body : Statement) (pos : Position)
    (m : Machine) (N : Nat) (result : EStateM.Result Halt Machine Completion) : Prop where
  ends : ∀ r, result = r ↔
    (∃ k ≤ N, run.LoopEnds condition body m k r) ∨
    ∃ m', run.WantsMore condition body N m m' ∧ r = .error (.failed ⟨.loopLimit N, some pos⟩) m'
  exclusive : ¬ ((∃ k ≤ N, ∃ r, run.LoopEnds condition body m k r) ∧
    ∃ m', run.WantsMore condition body N m m')

/-- **The ceiling of a loop is exact**, whatever its condition and its body do. -/
theorem loop_ceiling (n : Nat) (condition : Expr) (body : Statement) (pos : Position) (m : Machine) :
    LoopCapped (Runner.within n) condition body pos m m.limits.maxIterations
      (execute (n + 1) (.loop condition body pos) m) := by
  have hloop : execute (n + 1) (.loop condition body pos) m =
      (Runner.within n).loop condition body pos m.limits.maxIterations m := rfl
  refine ⟨fun r => ?_, fun ⟨⟨k, hk, r, hends⟩, m', hmore⟩ => hends.not_wantsMore hk hmore⟩
  rw [hloop]
  constructor
  · rintro rfl
    rcases Runner.loopEnds_or_wantsMore (Runner.within n) condition body m.limits.maxIterations m
      with ⟨k, hk, r, hends⟩ | ⟨m', hmore⟩
    · refine .inl ⟨k, hk, ?_⟩
      rw [hends.loop_eq pos hk]
      exact hends
    · refine .inr ⟨m', hmore, ?_⟩
      rw [hmore.loop_eq pos, Restoration.limits_of_wantsMore hmore]
  · rintro (⟨k, hk, hends⟩ | ⟨m', hmore, rfl⟩)
    · exact hends.loop_eq pos hk
    · rw [hmore.loop_eq pos, Restoration.limits_of_wantsMore hmore]

/-! ## Calls -/

/-- What the ceiling of calls comes to at a machine that allows `D` of them. -/
structure Machine.CallsCapped (m : Machine) (D : Nat) : Prop where
  /-- No more calls are active than allowed. -/
  depth : m.callDepth ≤ D
  /-- A call fails for its own limit, whatever would run its body, and leaves the machine as it is,
  exactly if as many calls are active. -/
  refused : ∀ (routine : Routine) (closure : ScopeRef) (vs : List Value) (frame : Option Frame)
    (p : Position), (∀ run : Runner, run.callRoutine routine closure vs frame p m =
      .error (.failed ⟨.recursionLimit D, some p⟩) m) ↔ m.callDepth = D
  /-- Every other call binds its parameters and runs its body, as one more active call. -/
  entered : m.callDepth ≠ D → ∀ (run : Runner) (routine : Routine) (closure : ScopeRef)
    (vs : List Value) (frame : Option Frame) (p : Position),
    let bindings := Heap.parameterBindings routine.parameters vs .empty
    (m.enterCall frame bindings closure).callDepth ≤ D ∧
      run.callRoutine routine closure vs frame p m = (Eval.inNewCall frame bindings closure
        (run.executeAll routine.body) >>= Eval.callResult) m

/-- A runner that does nothing. -/
def Runner.idle : Runner := ⟨fun _ => pure .null, fun _ => pure .normal⟩

theorem Runner.executeAll_idle (ss : List Statement) : idle.executeAll ss = pure .normal := by
  induction ss with
  | nil => rfl
  | cons s ss ih => exact ih

/-- A body that does nothing comes to its end. -/
theorem Runner.activate_idle (routine : Routine) (closure : ScopeRef) (vs : List Value)
    (frame : Option Frame) (m : Machine) :
    ∃ m', idle.activate routine closure vs frame m = .ok .null m' := by
  obtain ⟨m₁, hcall⟩ : ∃ m₁, Eval.inNewCall frame
      (Heap.parameterBindings routine.parameters vs .empty) closure
      (idle.executeAll routine.body) m = .ok .normal m₁ := by
    rw [executeAll_idle, Eval.inNewCall_apply]
    exact ⟨_, rfl⟩
  rw [activate_eq, Eval.bind_ok _ hcall]
  exact ⟨_, rfl⟩

/-- **The ceiling of calls is exact.** -/
theorem Machine.Lawful.callsCapped {m : Machine} (l : m.Lawful) :
    m.CallsCapped m.limits.maxCallDepth := by
  refine ⟨l.depth, fun routine closure vs frame p => ?_, fun hdepth => ?_⟩
  · constructor
    · -- with room for one more call, a body that does nothing would come to its end
      intro hrefused
      by_contra hdepth
      have hroom : ¬ m.limits.maxCallDepth ≤ m.callDepth := fun hle =>
        hdepth (Nat.le_antisymm l.depth hle)
      obtain ⟨m', hok⟩ := Runner.activate_idle routine closure vs frame m
      have hsame := hrefused Runner.idle
      rw [Runner.callRoutine_eq, if_neg hroom, hok] at hsame
      cases hsame
    · intro hdepth run
      rw [Runner.callRoutine_eq, if_pos (Nat.le_of_eq hdepth.symm)]
  · intro run routine closure vs frame p bindings
    have hroom : m.callDepth < m.limits.maxCallDepth := Nat.lt_of_le_of_ne l.depth hdepth
    refine ⟨hroom, ?_⟩
    rw [Runner.callRoutine_eq, if_neg (Nat.not_le_of_lt hroom), Runner.activate_eq]

namespace Inspection

/-- Inspects that calls are capped. -/
def callsCapped (D : Nat) : Inspection where
  note _ _ := none
  asks _ m _ := m.CallsCapped D

theorem sound_callsCapped {limits : Limits} : (callsCapped limits.maxCallDepth).Sound limits := by
  intro past m sight _ hunder l _ _
  rw [← hunder]
  exact l.callsCapped

end Inspection

/-! ## Sessions -/

namespace Session

/-- **The ceilings of loops and calls are exact**, also where no iteration or no call is allowed. -/
theorem ceilings_exact (session : Session) (programs : List Program) :
    (∀ (n : Nat) (condition : Expr) (body : Statement) (pos : Position) (m : Machine),
      LoopCapped (Runner.within n) condition body pos m m.limits.maxIterations
        (execute (n + 1) (.loop condition body pos) m)) ∧
    session.Throughout programs (.callsCapped session.limits.maxCallDepth) :=
  ⟨loop_ceiling, session.throughout_of_sound programs Inspection.sound_callsCapped⟩

/-- A loop that runs as often as is allowed, one that needs more, and a call where none is allowed. -/
example :
    let session : Session := ⟨⟨2, 0⟩, MemoryModules.empty.loader, none⟩
    (session.run "rakho i = 0\njabtak i < 2 i = i + 1").reason? = none ∧
    (session.run "rakho i = 0\njabtak i < 3 i = i + 1").reason? =
      some (.failed ⟨.loopLimit 2, some ⟨2, 1⟩⟩) ∧
    (session.run "kaam f() \x7b chaap 1 \x7d\nf()").reason? =
      some (.failed ⟨.recursionLimit 0, some ⟨2, 2⟩⟩) := by
  refine ⟨?_, ?_, ?_⟩ <;> decide +kernel

end Session

end Lipi
