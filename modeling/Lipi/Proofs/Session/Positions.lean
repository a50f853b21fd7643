import Lipi.Module.Memory
import Lipi.Proofs.Machine.Alike
import Lipi.Proofs.Machine.Nesting
import Lipi.Session
import Lipi.Statement.Printer

set_option autoImplicit false

/-! # Runs do not depend on positions

**Two programs that agree behave in the same way** (`Session.runs_agree`), whatever the limits and
the modules are: they print the same lines, and if they fail, they fail for the same cause. So a
program can be replaced by its canonical text wherever that text is read back.
-/

namespace Lipi

/-- Two runs end in the same way, with the same lines. -/
inductive Outcome.Alike : Outcome → Outcome → Prop where
  | rejected (errors : List CompileError) : Outcome.Alike (.rejected errors) (.rejected errors)
  | completed (lines : List String) : Outcome.Alike (.completed lines) (.completed lines)
  | halted {reason reason' : Halt} (lines : List String) : reason.Alike reason' →
    Outcome.Alike (.halted reason lines) (.halted reason' lines)

namespace Alike

/-- **Programs that agree make the same of machines that are alike.** -/
theorem interpret {p q : Program} (hagree : p.agrees q = true) {m m' : Machine} (hs : m.Alike m') :
    kinship.Meets m.heap Kinship.anything (Machine.interpret p m) (Machine.interpret q m') := by
  -- one bound on the nesting that is large enough for both
  let n := max (m.nesting p.depth) (m'.nesting q.depth)
  have hleft := (Nesting.interpret_eq p m (n := n) (Nat.le_max_left _ _)).1
  have hright := (Nesting.interpret_eq q m' (n := n) (Nat.le_max_right _ _)).1
  have hbody : List.Forall₂ (Statement.Like .agreement) p.body q.body := by
    unfold Program.agrees at hagree
    rw [Bool.and_eq_true] at hagree
    exact Statement.likeAll_of_agrees p.body q.body hagree.2
  have hrunners := accord.within n
  rw [show Runner.hooked accord.hooks n = Runner.within n from Runner.hooked_plain n] at hrunners
  rw [← hleft, ← hright]
  exact hrunners.executeProgram (h := m.heap) hbody m m' trivial hs

end Alike

namespace Session

theorem runProgram_alike (session : Session) {p q : Program} (hagree : p.agrees q = true) :
    (session.runProgram p).Alike (session.runProgram q) := by
  have hmeet := Alike.interpret hagree session.machine.alike_refl
  unfold runProgram
  generalize Machine.interpret p session.machine = r at hmeet
  generalize Machine.interpret q session.machine = r' at hmeet
  cases hmeet with
  | ok _ hs _ =>
      dsimp only
      rw [hs.output]
      exact .completed _
  | error _ hs he =>
      dsimp only
      rw [hs.output]
      exact .halted _ he

/-- **Runs of two programs that agree end in the same way**, and so do a run of a text and a run of
the canonical text of its program, if that is read back as an equal program. -/
theorem runs_agree (session : Session) :
    (∀ p q : Program, p.agrees q = true → (session.runProgram p).Alike (session.runProgram q)) ∧
    ∀ (text : String) (p q : Program), Program.ofText text = .ok p →
      Program.ofText p.text = .ok q → p.agrees q = true →
      (session.run text).Alike (session.run p.text) := by
  refine ⟨fun p q hagree => session.runProgram_alike hagree, fun text p q hread hback hagree => ?_⟩
  unfold run
  rw [hread, hback]
  exact session.runProgram_alike hagree

/-- A program that prints and then fails, and its canonical text, which has other positions. -/
theorem runs_agree_print :
    ∃ p q, Program.ofText "chaap  [1]\nchaap  x" = .ok p ∧ Program.ofText p.text = .ok q ∧
      p.agrees q = true ∧
      ((⟨.standard, MemoryModules.empty.loader, none⟩ : Session).run "chaap  [1]\nchaap  x").Alike
        ((⟨.standard, MemoryModules.empty.loader, none⟩ : Session).run p.text) := by
  have hback : ((Program.ofText "chaap  [1]\nchaap  x").toOption.bind fun p =>
      (Program.ofText p.text).toOption.map fun q => p.agrees q) = some true := by
    decide +kernel
  cases hread : Program.ofText "chaap  [1]\nchaap  x" with
  | error errors =>
      rw [hread] at hback
      cases hback
  | ok p =>
      cases hread' : Program.ofText p.text with
      | error errors =>
          simp [hread, hread', Except.toOption] at hback
      | ok q =>
          have hagree : p.agrees q = true := by
            simpa [hread, hread', Except.toOption] using hback
          exact ⟨p, q, rfl, hread', hagree, (runs_agree _).2 _ p q hread hread' hagree⟩

end Session

end Lipi
