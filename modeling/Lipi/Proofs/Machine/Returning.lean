import Lipi.Module.Memory
import Lipi.Proofs.Machine.Ceilings

set_option autoImplicit false

/-! # What becomes of a return

A return is under way from the statement that gives a value back to the call whose body this is part
of; blocks, branches, loops and exports each pass it on in their own way. **None of them loses it,
none of them goes on after it, and where no call is active there is none** (`returns_kept`).

Nothing is lost: whatever statement a body comes to, at whatever depth (`Reaches`), if this one
returns, so does the body, and the machine stays as the return has left it, but for the scope and the
calls that are left (`Reaches.returns`).

Nothing goes on: what a construct does it does with the runner that it is given, so it is given one
that can tell. A return leaves a mark behind, one more active call than there are, and
`Runner.guarded` refuses to evaluate or execute anything at a machine with this mark. Bodies run with
it just as they run without it (`executeGuarded_eq`).

Where no call is active, a statement comes to its end or fails. That is true of every machine, as
the calls that are made on the way are left before the statement goes on.
-/

namespace Lipi

open Restoration (Restores restores_within)

/-- As many calls are active as before. -/
theorem Machine.Restored.callDepth {m m' : Machine} (h : m.Restored m') :
    m'.callDepth = m.callDepth :=
  congrArg List.length h.frames

/-! ## Where no call is active -/

namespace Eval

/-- The computation ends in a return from no machine without active calls. -/
def NeverReturns (x : Eval Completion) : Prop :=
  ∀ m : Machine, m.callDepth = 0 → ∀ v m', x m ≠ .ok (.returned v) m'

/-- The computation ends in no return. -/
def EndsNormally (x : Eval Completion) : Prop :=
  ∀ m v m', x m ≠ .ok (.returned v) m'

variable {α : Type} {x : Eval α} {f : α → Eval Completion}

theorem EndsNormally.neverReturns {x : Eval Completion} (h : EndsNormally x) : NeverReturns x :=
  fun m _ => h m

theorem endsNormally_normal : EndsNormally (pure .normal) := by
  intro m v m' heq
  cases heq

theorem endsNormally_bind (x : Eval α) (hf : ∀ a, EndsNormally (f a)) : EndsNormally (x >>= f) := by
  intro m v m' hret
  cases hx : x m with
  | ok a m₁ =>
      rw [bind_ok f hx] at hret
      exact hf a m₁ v m' hret
  | error halt m₁ =>
      rw [bind_error f hx] at hret
      cases hret

/-- What stands behind a computation runs with no more active calls than the computation. -/
theorem NeverReturns.bind (hx : Restores x)
    (hf : ∀ m a m', m.callDepth = 0 → x m = .ok a m' → NeverReturns (f a)) :
    NeverReturns (x >>= f) := by
  intro m hm v m' hret
  cases hxm : x m with
  | ok a m₁ =>
      rw [bind_ok f hxm] at hret
      have hm₁ : m₁.callDepth = 0 := (hx.of_ok hxm).callDepth.trans hm
      exact hf m a m₁ hm hxm m₁ hm₁ v m' hret
  | error halt m₁ =>
      rw [bind_error f hxm] at hret
      cases hret

end Eval

namespace Runner

open Eval (NeverReturns EndsNormally endsNormally_bind endsNormally_normal)

section Outside

variable {run : Runner} (he : ∀ e, Restores (run.evaluate e)) (hs : ∀ s, Restores (run.execute s))
  (hnever : ∀ s, NeverReturns (run.execute s))

include hs hnever

theorem neverReturns_executeAll (ss : List Statement) : NeverReturns (run.executeAll ss) := by
  induction ss with
  | nil => exact endsNormally_normal.neverReturns
  | cons s ss ih =>
      refine NeverReturns.bind (hs s) fun m c m' hm hran => ?_
      cases c with
      | normal => exact ih
      | returned v => exact absurd hran (hnever s m hm v m')

include he

theorem neverReturns_loop (condition : Expr) (body : Statement) (pos : Position) (k : Nat) :
    NeverReturns (run.loop condition body pos k) := by
  induction k with
  | zero =>
      refine NeverReturns.bind (he condition) fun _ v _ _ _ m hm w m' hret => ?_
      cases hv : v.isTruthy with
      | true =>
          rw [hv] at hret
          cases hret
      | false =>
          rw [hv] at hret
          cases hret
  | succ k ih =>
      refine NeverReturns.bind (he condition) fun _ v _ _ _ => ?_
      cases v.isTruthy with
      | true =>
          refine NeverReturns.bind (hs body) fun m c m' hm hran => ?_
          cases c with
          | normal => exact ih
          | returned w => exact absurd hran (hnever body m hm w m')
      | false => exact endsNormally_normal.neverReturns

theorem neverReturns_statement (s : Statement) : NeverReturns (run.statement s) := by
  cases s with
  -- a statement with nothing inside that could return ends normally
  | binding constant name initializer pos =>
      exact (endsNormally_bind _ fun _ => endsNormally_bind _ fun _ =>
        endsNormally_normal).neverReturns
  | function name parameters body pos =>
      exact (endsNormally_bind _ fun _ => endsNormally_bind _ fun _ => endsNormally_bind _ fun _ =>
        endsNormally_normal).neverReturns
  | classDecl name superclass methods pos =>
      exact (endsNormally_bind _ fun _ => endsNormally_normal).neverReturns
  | conditional condition thenBranch elseBranch pos =>
      refine NeverReturns.bind (he condition) fun _ v _ _ _ => ?_
      cases v.isTruthy with
      | true => exact hnever thenBranch
      | false =>
          cases elseBranch with
          | some elseBranch => exact hnever elseBranch
          | none => exact endsNormally_normal.neverReturns
  | loop condition body pos =>
      exact fun m => neverReturns_loop he hs hnever condition body pos m.limits.maxIterations m
  -- outside of calls a return fails
  | giveBack value pos =>
      intro m hm v m' hret
      have hfail : run.giveBack value pos m =
          .error (.failed ⟨.returnOutsideFunction, some pos⟩) m := by
        show (if m.callDepth = 0 then _ else _ : Eval Completion) m = _
        rw [if_pos hm]
        rfl
      have hstatement : run.statement (.giveBack value pos) m = run.giveBack value pos m := rfl
      rw [hstatement, hfail] at hret
      cases hret
  | print value pos =>
      exact (endsNormally_bind _ fun _ => endsNormally_bind _ fun _ => endsNormally_bind _ fun _ =>
        endsNormally_normal).neverReturns
  -- entering a scope enters no call
  | block ss pos =>
      intro m hm v m' hret
      have hblock : run.statement (.block ss pos) m =
          Eval.inNewScope .empty m.environment (run.executeAll ss) m := rfl
      rw [hblock, Eval.inNewScope_apply] at hret
      cases hall : run.executeAll ss (m.enterScope .empty m.environment) with
      | ok c m₁ =>
          rw [hall] at hret
          cases hret
          exact neverReturns_executeAll hs hnever ss (m.enterScope .empty m.environment) hm v m₁ hall
      | error halt m₁ =>
          rw [hall] at hret
          cases hret
  | expression e pos => exact (endsNormally_bind _ fun _ => endsNormally_normal).neverReturns
  | empty pos => exact endsNormally_normal.neverReturns
  | importNames names source pos =>
      exact (endsNormally_bind _ fun _ => endsNormally_normal).neverReturns
  | exportDecl declaration pos =>
      refine NeverReturns.bind (hs declaration) fun m c m' hm hran => ?_
      cases c with
      | normal => exact (endsNormally_bind _ fun _ => endsNormally_normal).neverReturns
      | returned w => exact absurd hran (hnever declaration m hm w m')
  | exportNames names pos => exact (endsNormally_bind _ fun _ => endsNormally_normal).neverReturns

end Outside

end Runner

/-- **Where no call is active, no statement returns.** -/
theorem neverReturns_within (n : Nat) (s : Statement) : Eval.NeverReturns (execute n s) := by
  induction n generalizing s with
  | zero =>
      intro m _ v m' hret
      cases hret
  | succ n ih =>
      obtain ⟨he, hs⟩ := restores_within n
      exact @Runner.neverReturns_statement (Runner.within n) he hs ih s

/-- A program ignores how its statements end, and yet runs as if it stopped at the first return. -/
theorem executeProgram_eq_executeAll (n : Nat) (ss : List Statement) {m : Machine}
    (hm : m.callDepth = 0) : (Runner.within n).executeProgram ss m =
      ((Runner.within n).executeAll ss >>= fun _ => pure ()) m := by
  induction ss generalizing m with
  | nil => rfl
  | cons s ss ih =>
      cases hran : (Runner.within n).execute s m with
      | ok c m₁ =>
          have hm₁ : m₁.callDepth = 0 := (((restores_within n).2 s).of_ok hran).callDepth.trans hm
          cases c with
          | normal =>
              have hall : (Runner.within n).executeAll (s :: ss) m =
                  (Runner.within n).executeAll ss m₁ := by
                rw [Runner.executeAll, Eval.bind_ok _ hran]
              rw [Runner.executeProgram, Eval.bind_ok _ hran, ih hm₁, Eval.bind_congr _ hall]
          | returned v => exact absurd hran (neverReturns_within n s m hm v m₁)
      | error halt m₁ =>
          have hall : (Runner.within n).executeAll (s :: ss) m = .error halt m₁ := by
            rw [Runner.executeAll, Eval.bind_error _ hran]
          rw [Runner.executeProgram, Eval.bind_error _ hran, Eval.bind_error _ hall]

/-! ## Reaching a statement -/

/-- A run of `s` at `m` that nests at most `n` deep comes, through blocks, branches and loops, to a
statement inside it, which it runs at another machine. What stands behind that statement is not
asked for anything. -/
inductive Reaches : Nat → Statement → Machine → Nat → Statement → Machine → Prop where
  | here {n : Nat} {s : Statement} {m : Machine} : Reaches n s m n s m
  | thenBranch {n k : Nat} {condition : Expr} {s inner : Statement} {elseBranch : Option Statement}
      {pos : Position} {m m₁ m' : Machine} {v : Value} :
    evaluate n condition m = .ok v m₁ → v.isTruthy = true → Reaches n s m₁ k inner m' →
    Reaches (n + 1) (.conditional condition s elseBranch pos) m k inner m'
  | elseBranch {n k : Nat} {condition : Expr} {thenBranch s inner : Statement} {pos : Position}
      {m m₁ m' : Machine} {v : Value} :
    evaluate n condition m = .ok v m₁ → v.isTruthy = false → Reaches n s m₁ k inner m' →
    Reaches (n + 1) (.conditional condition thenBranch (some s) pos) m k inner m'
  /-- After some whole rounds the condition holds once more. -/
  | round {n k rounds : Nat} {condition : Expr} {s inner : Statement} {pos : Position}
      {m m₁ m₂ m' : Machine} {v : Value} :
    (Runner.within n).Rounds condition s rounds m m₁ → rounds < m.limits.maxIterations →
    evaluate n condition m₁ = .ok v m₂ → v.isTruthy = true → Reaches n s m₂ k inner m' →
    Reaches (n + 1) (.loop condition s pos) m k inner m'
  | block {n k : Nat} {before after : List Statement} {s inner : Statement} {pos : Position}
      {m m₁ m' : Machine} :
    (Runner.within n).executeAll before (m.enterScope .empty m.environment) = .ok .normal m₁ →
    Reaches n s m₁ k inner m' → Reaches (n + 1) (.block (before ++ s :: after) pos) m k inner m'

/-- A run of a list of statements comes to a statement inside one of them. -/
def ReachesIn (n : Nat) (ss : List Statement) (m : Machine) (k : Nat) (inner : Statement)
    (m' : Machine) : Prop :=
  ∃ before s after m₁, ss = before ++ s :: after ∧
    (Runner.within n).executeAll before m = .ok .normal m₁ ∧ Reaches n s m₁ k inner m'

section Reaching

variable {run : Runner} {m m₁ m₂ : Machine} {v : Value}

/-- Statements behind a return have no part in how a list of statements ends. -/
theorem Runner.executeAll_returned {before : List Statement} {s : Statement}
    (after : List Statement) (hbefore : run.executeAll before m = .ok .normal m₁)
    (hs : run.execute s m₁ = .ok (.returned v) m₂) :
    run.executeAll (before ++ s :: after) m = .ok (.returned v) m₂ := by
  induction before generalizing m with
  | nil =>
      cases hbefore
      rw [List.nil_append, executeAll, Eval.bind_ok _ hs]
      rfl
  | cons first before ih =>
      rw [executeAll] at hbefore
      rw [List.cons_append, executeAll]
      cases hfirst : run.execute first m with
      | error halt m' =>
          rw [Eval.bind_error _ hfirst] at hbefore
          cases hbefore
      | ok c m' =>
          rw [Eval.bind_ok _ hfirst] at hbefore ⊢
          cases c with
          | normal => exact ih hbefore
          | returned w => cases hbefore

/-- Behind whole rounds a loop ends as its body returns. -/
theorem Runner.Rounds.loopEnds {condition : Expr} {body : Statement} {rounds : Nat}
    {m₃ : Machine} {w : Value} (h : run.Rounds condition body rounds m m₁)
    (htest : run.evaluate condition m₁ = .ok w m₂) (hw : w.isTruthy = true)
    (hbody : run.execute body m₂ = .ok (.returned v) m₃) :
    run.LoopEnds condition body m (rounds + 1) (.ok (.returned v) m₃) := by
  induction h with
  | none => exact .returns htest hw hbody
  | round htested htrue hran _ ih => exact .round htested htrue hran (ih htest)

/-- Whole rounds end where they have started. -/
theorem Runner.Rounds.restored {n rounds : Nat} {condition : Expr} {body : Statement}
    (h : (Runner.within n).Rounds condition body rounds m m₁) : m.Restored m₁ := by
  obtain ⟨htest, hbody⟩ := restores_within n
  induction h with
  | none => exact .refl _
  | round htested _ hran _ ih =>
      exact (((htest condition).of_ok htested).trans ((hbody body).of_ok hran)).trans ih

theorem Restoration.restores_executeAll (n : Nat) (ss : List Statement) :
    Restores ((Runner.within n).executeAll ss) :=
  EvalRelation.executeAll (R := relation) (Runner.within n) (Runner.within n) ss
    fun s _ => (restores_within n).2 s

/-- The statement that is reached runs in the same calls. -/
theorem Reaches.frames {n k : Nat} {s inner : Statement} {m' : Machine}
    (h : Reaches n s m k inner m') : m'.frames = m.frames := by
  induction h with
  | here => rfl
  | thenBranch htest _ _ ih | elseBranch htest _ _ ih =>
      exact ih.trans (((restores_within _).1 _).of_ok htest).frames
  | round hrounds _ htest _ _ ih =>
      exact ih.trans ((((restores_within _).1 _).of_ok htest).frames.trans hrounds.restored.frames)
  | block hbefore _ ih =>
      exact ih.trans ((Restoration.restores_executeAll _ _).of_ok hbefore).frames

/-- **A statement that is reached returns for the whole.** The machine stays as the return has left
it; only the scopes of the blocks around it are left. -/
theorem Reaches.returns {n k : Nat} {s inner : Statement} {m' : Machine}
    (h : Reaches n s m k inner m') (hreturn : execute k inner m' = .ok (.returned v) m₂) :
    execute n s m = .ok (.returned v) { m₂ with environment := m.environment } := by
  induction h with
  | @here n s m =>
      have hscope : m₂.environment = m.environment :=
        (((restores_within n).2 s).of_ok hreturn).environment
      rw [hreturn, ← hscope]
  -- a test leaves the scope as it was, so that the scope to come back to is the same
  | @thenBranch n k condition s inner elseBranch pos m m₁ m' w htest hw _ ih =>
      have hscope : m₁.environment = m.environment :=
        (((restores_within n).1 condition).of_ok htest).environment
      have hstep : execute (n + 1) (.conditional condition s elseBranch pos) m = execute n s m₁ := by
        show (evaluate n condition >>= fun w => if w.isTruthy then execute n s else _) m = _
        rw [Eval.bind_ok _ htest, if_pos hw]
      rw [hstep, ih hreturn, hscope]
  | @elseBranch n k condition thenBranch s inner pos m m₁ m' w htest hw _ ih =>
      have hscope : m₁.environment = m.environment :=
        (((restores_within n).1 condition).of_ok htest).environment
      have hstep : execute (n + 1) (.conditional condition thenBranch (some s) pos) m =
          execute n s m₁ := by
        show (evaluate n condition >>= fun w =>
          if w.isTruthy then execute n thenBranch else execute n s) m = _
        rw [Eval.bind_ok _ htest, hw, if_neg Bool.false_ne_true]
      rw [hstep, ih hreturn, hscope]
  -- the rounds before the one that returns have ended normally
  | @round n k rounds condition s inner pos m m₁ m₃ m' w hrounds hfew htest hw _ ih =>
      have hscope : m₃.environment = m.environment :=
        (((restores_within n).1 condition).of_ok htest).environment.trans
          hrounds.restored.environment
      have hends := hrounds.loopEnds htest hw (ih hreturn)
      have hstep : execute (n + 1) (.loop condition s pos) m =
          (Runner.within n).loop condition s pos m.limits.maxIterations m := rfl
      rw [hstep, hends.loop_eq pos hfew, hscope]
  -- this is the one construct that leaves a scope on the way out
  | @block n k before after s inner pos m m₁ m' hbefore _ ih =>
      have hstep : execute (n + 1) (.block (before ++ s :: after) pos) m =
          Eval.inNewScope .empty m.environment
            ((Runner.within n).executeAll (before ++ s :: after)) m := rfl
      rw [hstep, Eval.inNewScope_apply, Runner.executeAll_returned after hbefore (ih hreturn)]
      rfl

end Reaching

/-! ## Refusing to go on -/

/-- The machine with the mark that a return is under way: one more active call. -/
def Machine.mark (m : Machine) : Machine :=
  { m with frames := none :: m.frames }

namespace Eval

/-- Runs a computation unless more than `depth` calls are active. -/
def guarded {α : Type} (depth : Nat) (x : Eval α) : Eval α :=
  fun m => if depth < m.callDepth then .error .exhausted m else x m

/-- A result, with its machine marked if a return from the call at `depth` is under way. -/
def marked (depth : Nat) : EStateM.Result Halt Machine Completion →
    EStateM.Result Halt Machine Completion
  | .ok (.returned v) m => .ok (.returned v) (if m.callDepth = depth then m.mark else m)
  | r => r

end Eval

/-- Executes a statement of a body in the call at `depth`. **As soon as a return is under way there,
nothing is evaluated or executed any more**: that would halt the run. -/
def executeGuarded (depth : Nat) : Nat → Statement → Eval Completion
  | 0, _ => throw .exhausted
  | n + 1, s => fun m => Eval.marked depth (Eval.guarded depth (Runner.statement
      ⟨fun e => Eval.guarded depth (evaluate n e), executeGuarded depth n⟩ s) m)

/-- The runner that goes on only while no return from the call at `depth` is under way. -/
def Runner.guarded (depth n : Nat) : Runner :=
  ⟨fun e => Eval.guarded depth (Lipi.evaluate n e), executeGuarded depth n⟩

namespace Eval

variable {α : Type} {depth : Nat} {m : Machine}

theorem guarded_apply {x : Eval α} (hm : m.callDepth ≤ depth) : guarded depth x m = x m :=
  if_neg (Nat.not_lt.mpr hm)

/-- A mark is set once. -/
theorem marked_marked (r : EStateM.Result Halt Machine Completion) :
    marked depth (marked depth r) = marked depth r := by
  cases r with
  | error halt m => rfl
  | ok c m =>
      cases c with
      | normal => rfl
      | returned v =>
          unfold marked
          by_cases hm : m.callDepth = depth
          · have hmark : m.mark.callDepth ≠ depth := by
              show m.callDepth + 1 ≠ depth
              omega
            dsimp only
            rw [if_pos hm, if_neg hmark]
          · dsimp only
            rw [if_neg hm, if_neg hm]

/-- Where another number of calls is active nothing is marked. -/
theorem marked_of_ne {x : Eval Completion} (hx : Restores x) (hm : m.callDepth ≠ depth) :
    marked depth (x m) = x m := by
  cases hxm : x m with
  | error halt m' => rfl
  | ok c m' =>
      cases c with
      | normal => rfl
      | returned v =>
          have hm' : m'.callDepth = m.callDepth := (hx.of_ok hxm).callDepth
          unfold marked
          dsimp only
          rw [if_neg (hm' ▸ hm)]

/-- What goes on behind a computation that both runners run alike. -/
theorem marked_bind {x x' : Eval α} {f f' : α → Eval Completion} (hx : Restores x)
    (hsame : x' m = x m)
    (hf : ∀ a m', m'.callDepth = m.callDepth → f' a m' = marked depth (f a m')) :
    (x' >>= f') m = marked depth ((x >>= f) m) := by
  cases hxm : x m with
  | ok a m' =>
      have hm' : m'.callDepth = m.callDepth := (hx.of_ok hxm).callDepth
      rw [bind_ok _ (hsame.trans hxm), bind_ok _ hxm]
      exact hf a m' hm'
  | error halt m' =>
      rw [bind_error _ (hsame.trans hxm), bind_error _ hxm]
      rfl

/-- What goes on behind a statement; a return is passed on. -/
theorem marked_andThen {x x' : Eval Completion} {f f' : Completion → Eval Completion}
    (hx : Restores x) (hsame : x' m = marked depth (x m))
    (hf : ∀ m', m'.callDepth = m.callDepth → f' .normal m' = marked depth (f .normal m'))
    (hreturned : ∀ v, f (.returned v) = pure (.returned v))
    (hreturned' : ∀ v, f' (.returned v) = pure (.returned v)) :
    (x' >>= f') m = marked depth ((x >>= f) m) := by
  cases hxm : x m with
  | error halt m' =>
      rw [hxm] at hsame
      rw [bind_error _ hsame, bind_error _ hxm]
      rfl
  | ok c m' =>
      have hm' : m'.callDepth = m.callDepth := (hx.of_ok hxm).callDepth
      rw [hxm] at hsame
      cases c with
      | normal =>
          rw [bind_ok _ hsame, bind_ok _ hxm]
          exact hf m' hm'
      | returned v =>
          rw [bind_ok _ hsame, bind_ok _ hxm, hreturned, hreturned']
          rfl

/-- Leaving a scope keeps the mark. -/
theorem marked_leaveScope (scope : ScopeRef) (r : EStateM.Result Halt Machine Completion) :
    onMachine ({ · with environment := scope }) (marked depth r) =
      marked depth (onMachine ({ · with environment := scope }) r) := by
  cases r with
  | error halt m => rfl
  | ok c m =>
      cases c with
      | normal => rfl
      | returned v =>
          show EStateM.Result.ok _ { (if m.callDepth = depth then m.mark else m) with
            environment := scope } = .ok _ (if m.callDepth = depth then _ else _)
          split <;> rfl

end Eval

namespace Runner

section Guarded

variable {depth n : Nat} {m : Machine}

/-- The two runners run the programs of modules alike, as no call is active there. -/
theorem importNames_congr {run run' : Runner} (hs : ∀ s, Restores (run.execute s))
    (hsame : ∀ s m, m.callDepth = 0 → run'.execute s m = run.execute s m) (names : List String)
    (specifier : String) (pos : Position) :
    run'.importNames names specifier pos m = run.importNames names specifier pos m := by
  have hprogram : ∀ (ss : List Statement) (m : Machine), m.callDepth = 0 →
      run'.executeProgram ss m = run.executeProgram ss m := by
    intro ss
    induction ss with
    | nil => exact fun _ _ => rfl
    | cons s ss ih =>
        intro m hm
        cases hran : run.execute s m with
        | error halt m' =>
            rw [executeProgram, Eval.bind_error _ ((hsame s m hm).trans hran), executeProgram,
              Eval.bind_error _ hran]
        | ok c m' =>
            -- a statement leaves the calls as they were, so none is active for the next one
            have hm' : m'.callDepth = m.callDepth := ((hs s).of_ok hran).callDepth
            rw [executeProgram, Eval.bind_ok _ ((hsame s m hm).trans hran), executeProgram,
              Eval.bind_ok _ hran]
            exact ih m' (hm'.trans hm)
  -- only the loading runs anything
  refine Eval.bind_congr _ ?_
  rcases loadModule_cases specifier pos m.modules m.moduleId with
    ⟨cause, hfail⟩ | ⟨exports, hdone⟩ | ⟨id, _, program, _, _, _, hrun⟩
  · rw [hfail run m rfl rfl, hfail run' m rfl rfl]
  · rw [hdone run m rfl rfl, hdone run' m rfl rfl]
  · have hmodule : run'.runModule program (m.startModule id) =
        run.runModule program (m.startModule id) := by
      rw [runModule_eq, runModule_eq]
      exact Eval.bind_congr _ (hprogram program.body (m.startModule id) rfl)
    rw [hrun run m rfl rfl, hrun run' m rfl rfl, importProgram_eq, importProgram_eq, hmodule]

theorem guarded_evaluate (e : Expr) (hm : m.callDepth ≤ depth) :
    (guarded depth n).evaluate e m = (Runner.within n).evaluate e m :=
  Eval.guarded_apply hm

variable (ih : ∀ s m, m.callDepth ≤ depth →
  executeGuarded depth n s m = Eval.marked depth (Lipi.execute n s m))

include ih

theorem guarded_executeAll (ss : List Statement) {m : Machine} (hm : m.callDepth ≤ depth) :
    (guarded depth n).executeAll ss m =
      Eval.marked depth ((Runner.within n).executeAll ss m) := by
  induction ss generalizing m with
  | nil => rfl
  | cons s ss ihs =>
      refine Eval.marked_andThen ((restores_within n).2 s) (ih s m hm) (fun m' hm' => ?_)
        (fun _ => rfl) fun _ => rfl
      exact ihs (Nat.le_trans (Nat.le_of_eq hm') hm)

theorem guarded_loop (condition : Expr) (body : Statement) (pos : Position) (k : Nat) {m : Machine}
    (hm : m.callDepth ≤ depth) :
    (guarded depth n).loop condition body pos k m =
      Eval.marked depth ((Runner.within n).loop condition body pos k m) := by
  induction k generalizing m with
  | zero =>
      refine Eval.marked_bind ((restores_within n).1 condition) (guarded_evaluate condition hm)
        fun v m' _ => ?_
      cases v.isTruthy <;> rfl
  | succ k ihk =>
      refine Eval.marked_bind ((restores_within n).1 condition) (guarded_evaluate condition hm)
        fun v m' hm' => ?_
      cases v.isTruthy with
      | false => rfl
      | true =>
          have hin : m'.callDepth ≤ depth := Nat.le_trans (Nat.le_of_eq hm') hm
          refine Eval.marked_andThen ((restores_within n).2 body) (ih body m' hin)
            (fun m'' hm'' => ?_) (fun _ => rfl) fun _ => rfl
          exact ihk (Nat.le_trans (Nat.le_of_eq hm'') hin)

theorem guarded_statement (hdepth : 0 < depth) (s : Statement) (hm : m.callDepth ≤ depth) :
    Eval.marked depth ((guarded depth n).statement s m) =
      Eval.marked depth ((Runner.within n).statement s m) := by
  -- the expression of a statement is evaluated first, when no return is under way yet
  have hfirst : ∀ {α : Type} (e : Expr) (f : Value → Eval α),
      ((guarded depth n).evaluate e >>= f) m = ((Runner.within n).evaluate e >>= f) m :=
    fun e f => Eval.bind_congr f (guarded_evaluate e hm)
  cases s with
  | binding constant name initializer pos => exact congrArg _ (hfirst initializer _)
  | function name parameters body pos => rfl
  | classDecl name superclass methods pos => rfl
  | conditional condition thenBranch elseBranch pos =>
      refine Eq.trans (congrArg _ ?_) (Eval.marked_marked _)
      refine Eval.marked_bind ((restores_within n).1 condition) (guarded_evaluate condition hm)
        fun v m' hm' => ?_
      have hin : m'.callDepth ≤ depth := Nat.le_trans (Nat.le_of_eq hm') hm
      cases v.isTruthy with
      | true => exact ih thenBranch m' hin
      | false =>
          cases elseBranch with
          | some elseBranch => exact ih elseBranch m' hin
          | none => rfl
  | loop condition body pos =>
      refine Eq.trans (congrArg _ ?_) (Eval.marked_marked _)
      exact guarded_loop ih condition body pos m.limits.maxIterations hm
  | giveBack value pos =>
      show Eval.marked depth ((if m.callDepth = 0 then _ else _ : Eval Completion) m) =
        Eval.marked depth ((if m.callDepth = 0 then _ else _ : Eval Completion) m)
      by_cases houtside : m.callDepth = 0
      · rw [if_pos houtside, if_pos houtside]
      · rw [if_neg houtside, if_neg houtside]
        cases value with
        | some e => exact congrArg _ (hfirst e _)
        | none => rfl
  | print value pos => exact congrArg _ (hfirst value _)
  | block ss pos =>
      refine Eq.trans (congrArg _ ?_) (Eval.marked_marked _)
      have hblock : ∀ run : Runner, run.statement (.block ss pos) m =
          Eval.inNewScope .empty m.environment (run.executeAll ss) m := fun _ => rfl
      have hin : (m.enterScope .empty m.environment).callDepth ≤ depth := hm
      rw [hblock, hblock, Eval.inNewScope_apply, Eval.inNewScope_apply, guarded_executeAll ih ss hin,
        Eval.marked_leaveScope]
  | expression e pos => exact congrArg _ (hfirst e _)
  | empty pos => rfl
  | importNames names source pos =>
      have hsame : ∀ s m₀, m₀.callDepth = 0 →
          (guarded depth n).execute s m₀ = (Runner.within n).execute s m₀ := by
        intro s m₀ hm₀
        have hne : m₀.callDepth ≠ depth := by omega
        exact (ih s m₀ (by omega)).trans (Eval.marked_of_ne ((restores_within n).2 s) hne)
      exact congrArg _ (Eval.bind_congr _
        (importNames_congr (restores_within n).2 hsame names source pos))
  | exportDecl declaration pos =>
      refine Eq.trans (congrArg _ ?_) (Eval.marked_marked _)
      have hexport : ∀ run : Runner, run.statement (.exportDecl declaration pos) m =
          (run.execute declaration >>= fun c =>
            noteExports declaration.declaredName?.toList >>= fun _ => pure c) m := fun _ => rfl
      have hdeclaration : (guarded depth n).execute declaration m =
          Eval.marked depth ((Runner.within n).execute declaration m) := ih declaration m hm
      rw [hexport, hexport]
      cases hran : (Runner.within n).execute declaration m with
      | error halt m' =>
          rw [hran] at hdeclaration
          rw [Eval.bind_error _ hdeclaration, Eval.bind_error _ hran]
          rfl
      | ok c m' =>
          rw [hran] at hdeclaration
          cases c with
          | normal =>
              rw [Eval.bind_ok _ hdeclaration, Eval.bind_ok _ hran]
              rfl
          | returned v =>
              rw [Eval.bind_ok _ hdeclaration, Eval.bind_ok _ hran]
              show EStateM.Result.ok _ _ = .ok _ (if m'.callDepth = depth then _ else _)
              split <;> rfl
  | exportNames names pos => rfl

end Guarded

end Runner

/-- **What runs without a guard runs with it**, and a return has been marked: behind it nothing has
been evaluated or executed. -/
theorem executeGuarded_eq {depth : Nat} (hdepth : 0 < depth) (n : Nat) (s : Statement) {m : Machine}
    (hm : m.callDepth ≤ depth) :
    executeGuarded depth n s m = Eval.marked depth (execute n s m) := by
  induction n generalizing s m with
  | zero => rfl
  | succ n ih =>
      have hguard : executeGuarded depth (n + 1) s m = Eval.marked depth
          (Eval.guarded depth ((Runner.guarded depth n).statement s) m) := rfl
      rw [hguard, Eval.guarded_apply hm]
      exact Runner.guarded_statement (fun s m => ih s) hdepth s hm

/-! ## The value of a call -/

/-- A call whose body returns has the value of the return, and comes back to the scope and the calls
that were there. -/
theorem Runner.callRoutine_returned {run : Runner} {routine : Routine} {closure : ScopeRef}
    {vs : List Value} {frame : Option Frame} {v : Value} {m m₂ : Machine}
    (hroom : m.callDepth < m.limits.maxCallDepth)
    (hbody : run.executeAll routine.body (m.enterCall frame
      (Heap.parameterBindings routine.parameters vs .empty) closure) = .ok (.returned v) m₂)
    (pos : Position) : run.callRoutine routine closure vs frame pos m =
      .ok v { m₂ with environment := m.environment, frames := m₂.frames.tail } := by
  have hcall : Eval.inNewCall frame (Heap.parameterBindings routine.parameters vs .empty) closure
      (run.executeAll routine.body) m = .ok (.returned v)
        { m₂ with environment := m.environment, frames := m₂.frames.tail } := by
    rw [Eval.inNewCall_apply, hbody]
    rfl
  rw [callRoutine_eq, if_neg (Nat.not_le_of_lt hroom), activate_eq, Eval.bind_ok _ hcall]
  rfl

/-- What becomes of returns in the runs from a machine. -/
structure Machine.ReturnsKept (m : Machine) : Prop where
  /-- Where no call is active, a statement that comes to an end has not returned. -/
  outside : m.callDepth = 0 → ∀ n s c m', execute n s m = .ok c m' → c = .normal
  /-- The statements of a program or a module run as if the first return would stop them. -/
  program : m.callDepth = 0 → ∀ n ss, (Runner.within n).executeProgram ss m =
    ((Runner.within n).executeAll ss >>= fun _ => pure ()) m
  /-- So do those of a program that is interpreted. -/
  interpreted : m.callDepth = 0 → ∀ p : Program, Machine.interpret p m =
    Machine.bounded p.depth (fun run => run.executeAll p.body >>= fun _ => pure ()) m
  /-- A statement that a body comes to runs in the call of this body, and if it returns, its value is
  the value of the call. The call ends on the machine that the return has left, in the scope and the
  calls around it. -/
  value : m.callDepth < m.limits.maxCallDepth → ∀ n routine closure vs frame pos k inner m₁,
    ReachesIn n routine.body (m.enterCall frame
      (Heap.parameterBindings routine.parameters vs .empty) closure) k inner m₁ →
    m₁.frames = frame :: m.frames ∧ ∀ v m₂, execute k inner m₁ = .ok (.returned v) m₂ →
      (Runner.within n).callRoutine routine closure vs frame pos m =
        .ok v { m₂ with environment := m.environment, frames := m.frames }
  /-- Inside a call, statements run as they do when nothing at all is evaluated or executed after a
  return from this call. -/
  stops : m.callDepth ≠ 0 → ∀ n ss, (Runner.guarded m.callDepth n).executeAll ss m =
    Eval.marked m.callDepth ((Runner.within n).executeAll ss m)

/-- **No return is lost, and nothing goes on after one**, on every machine: without an active call
there is none, and with one it is passed on, through all blocks, branches and loops, to the call whose
body it stands in. -/
theorem returns_kept (m : Machine) : m.ReturnsKept where
  outside hm n s c m' hran := by
    cases c with
    | normal => rfl
    | returned v => exact absurd hran (neverReturns_within n s m hm v m')
  program hm n ss := executeProgram_eq_executeAll n ss hm
  interpreted hm p := executeProgram_eq_executeAll (m.nesting p.depth) p.body hm
  value hroom n routine closure vs frame pos k inner m₁ hreaches := by
    obtain ⟨before, s, after, m₀, hbody, hbefore, hinner⟩ := hreaches
    have hcalls : m₁.frames = frame :: m.frames :=
      hinner.frames.trans ((Restoration.restores_executeAll n before).of_ok hbefore).frames
    refine ⟨hcalls, fun v m₂ hreturn => ?_⟩
    have hall : (Runner.within n).executeAll routine.body (m.enterCall frame
        (Heap.parameterBindings routine.parameters vs .empty) closure) =
        .ok (.returned v) { m₂ with environment := m₀.environment } := by
      rw [hbody]
      exact Runner.executeAll_returned after hbefore (hinner.returns hreturn)
    have hleft : m₂.frames = frame :: m.frames :=
      (((restores_within k).2 inner).of_ok hreturn).frames.trans hcalls
    rw [Runner.callRoutine_returned hroom hall pos, hleft]
    rfl
  stops hm n ss := Runner.guarded_executeAll
    (fun s _ => executeGuarded_eq (Nat.pos_of_ne_zero hm) n s) ss (Nat.le_refl _)

/-- A return in a block in a loop, with a print behind it in the block and one behind the loop. -/
theorem returns_kept_nested :
    let p := Position.start
    let inner := Statement.giveBack (some (.literal (.string "v") p)) p
    let print := Statement.print (.literal .null p) p
    let body := [Statement.loop (.literal (.bool true) p) (.block [inner, print] p) p, print]
    let m := Machine.start .empty .standard (.fresh MemoryModules.empty.loader) none
    ∃ m', (Runner.within 4).callRoutine ⟨"f", [], body⟩ m.globals [] none p m =
      .ok (.string "v") m' ∧ m'.output = #[] ∧ m'.frames = [] := by
  intro p inner print body m
  let called := m.enterCall none (Heap.parameterBindings [] [] .empty) m.globals
  let inside := called.enterScope .empty called.environment
  have hblock : Reaches 3 (.block ([] ++ inner :: [print]) p) called 2 inner inside :=
    .block rfl .here
  have hloop : Reaches 4 (.loop (.literal (.bool true) p) (.block [inner, print] p) p) called 2 inner
      inside :=
    .round .none (by decide) rfl rfl hblock
  have hreaches : ReachesIn 4 body called 2 inner inside := ⟨[], _, [print], called, rfl, rfl, hloop⟩
  obtain ⟨-, hvalue⟩ := (returns_kept m).value (by decide) 4 ⟨"f", [], body⟩ m.globals [] none p 2
    inner inside hreaches
  exact ⟨_, hvalue (.string "v") inside rfl, rfl, rfl⟩

end Lipi
