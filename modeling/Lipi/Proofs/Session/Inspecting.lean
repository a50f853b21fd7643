import Lipi.Proofs.Machine.Inspection
import Lipi.Proofs.Machine.Nesting
import Lipi.Session

set_option autoImplicit false

/-! # What is the case throughout the runs of a session

Programs can be run one after another on the machine of a session, each from where the one before
has ended, well or not. **What a sound inspection asks is the case throughout such runs**
(`Session.throughout_of_sound`): inspected, no run is stopped, and each ends as it does when it is not
inspected. An inspection that asks for something else stops the runs (`Throughout.asks_between`).
-/

namespace Lipi

/-- The results of programs that are run one after another. -/
def Program.results (run : Program → Eval Unit) :
    List Program → Machine → List (EStateM.Result Halt Machine Unit)
  | [], _ => []
  | program :: programs, m =>
    run program m :: results run programs (Eval.machineOf (run program m))

/-- Why a run has not gone on. -/
def Outcome.reason? : Outcome → Option Halt
  | .halted reason _ => some reason
  | _ => none

/-- The machine to which programs lead that are run one after another. -/
def Machine.after (m : Machine) : List Program → Machine
  | [] => m
  | program :: programs => (Eval.machineOf (Machine.interpret program m)).after programs

/-- The inspected run of a program, nesting at most `n` deep. -/
noncomputable def Inspection.interpret (i : Inspection) (n : Nat) (program : Program) : Eval Unit :=
  i.around ((Runner.hooked i.hooks n).executeProgram program.body)

/-- Two results are the same, apart from the output. -/
def Eval.SameBut {α : Type} (r r' : EStateM.Result Halt Machine α) : Prop :=
  ∃ journal, r' = Eval.onMachine (·.withOutput journal) r

/-- Whether a computation has come to its end. -/
def Eval.completed {α : Type} : EStateM.Result Halt Machine α → Bool
  | .ok _ _ => true
  | .error _ _ => false

theorem Eval.SameBut.completed {α : Type} {r r' : EStateM.Result Halt Machine α}
    (h : Eval.SameBut r r') : Eval.completed r' = Eval.completed r := by
  obtain ⟨journal, rfl⟩ := h
  cases r <;> rfl

/-- Results that meet under an inspection are the same, apart from the output. -/
theorem Inspection.sameBut_of_meets {i : Inspection} {limits : Limits} {α : Type} {h : Heap}
    {rel : Heap → α → α → Prop} (hrel : ∀ h a b, rel h a b → b = a)
    {r r' : EStateM.Result Halt Machine α} (hrun : (i.kinship limits).Meets h rel r r') :
    Eval.SameBut r r' ∧ i.Shows limits (Eval.machineOf r) (Eval.machineOf r') := by
  cases hrun with
  | ok _ hs ha =>
      obtain ⟨journal, hsame⟩ := hs.same
      refine ⟨⟨journal, ?_⟩, hs⟩
      rw [hsame, hrel _ _ _ ha]
      rfl
  | error _ hs he =>
      cases he
      obtain ⟨journal, hsame⟩ := hs.same
      refine ⟨⟨journal, ?_⟩, hs⟩
      rw [hsame]
      rfl

namespace Session

/-- Throughout the runs of programs, one after another, what an inspection asks is the case:
inspected, no run is stopped but each ends as it does when it is not inspected, apart from the output,
under every bound on the nesting that is large enough. -/
def Throughout (session : Session) (programs : List Program) (i : Inspection) : Prop :=
  ∃ bound, ∀ n, bound ≤ n →
    List.Forall₂ Eval.SameBut (Program.results Machine.interpret programs session.machine)
      (Program.results (i.interpret n) programs session.machine)

theorem machine_lawful (session : Session) : session.machine.Lawful := by
  refine Machine.lawful_start Heap.lawful_empty session.limits (fun id => ?_) session.scriptId
  unfold modules
  cases session.scriptId <;> rfl

/-- An inspected run of a program and the run itself lead to the same machines. -/
theorem interpret_inspected {i : Inspection} {limits : Limits} (hi : i.Sound limits)
    (program : Program) {m m' : Machine} (hs : i.Shows limits m m') {n : Nat} (hn : m.nesting program.depth ≤ n) :
    Eval.SameBut (Machine.interpret program m) (i.interpret n program m') ∧
      i.Shows limits (Eval.machineOf (Machine.interpret program m))
        (Eval.machineOf (i.interpret n program m')) := by
  have hbody := ((Inspection.accord hi).within n).executeProgram (h := m.heap)
    (Statement.likeAll_refl .same program.body)
  have hrun := Inspection.follow_around hi hbody m m' (Heap.grows_refl _) hs
  rw [(Nesting.interpret_eq program m hn).1] at hrun
  exact Inspection.sameBut_of_meets (fun _ _ _ _ => rfl) hrun

/-- A run leads from a lawful machine to a lawful one, as an inspection that asks nothing shows. -/
theorem lawful_interpret {m : Machine} (l : m.Lawful) (program : Program) :
    (Eval.machineOf (Machine.interpret program m)).Lawful := by
  let i : Inspection := ⟨fun _ _ => none, fun _ _ _ => True⟩
  have hi : i.Sound m.limits := fun _ _ _ _ _ _ _ _ => trivial
  have hs : i.Shows m.limits m m.bare := ⟨l, rfl, [], fun _ hshown => (nomatch hshown), rfl⟩
  exact (interpret_inspected hi program hs (Nat.le_refl _)).2.lawful

theorem lawful_after {m : Machine} (l : m.Lawful) (programs : List Program) :
    (m.after programs).Lawful := by
  induction programs generalizing m with
  | nil => exact l
  | cons program programs ih => exact ih (lawful_interpret l program)

/-- **What a sound inspection asks is the case throughout all runs.** -/
theorem throughout_of_sound (session : Session) (programs : List Program) {i : Inspection}
    (hi : i.Sound session.limits) : session.Throughout programs i := by
  have hall : ∀ (programs : List Program) (m : Machine), ∃ bound, ∀ n, bound ≤ n → ∀ m',
      i.Shows session.limits m m' → List.Forall₂ Eval.SameBut (Program.results Machine.interpret programs m)
        (Program.results (i.interpret n) programs m') := by
    intro programs
    induction programs with
    | nil => exact fun m => ⟨0, fun _ _ _ _ => .nil⟩
    | cons program programs ih =>
        intro m
        obtain ⟨bound, hbound⟩ := ih (Eval.machineOf (Machine.interpret program m))
        refine ⟨max (m.nesting program.depth) bound, fun n hn m' hs => ?_⟩
        obtain ⟨hsame, hs'⟩ := interpret_inspected hi program hs
          (Nat.le_trans (Nat.le_max_left _ _) hn)
        exact .cons hsame (hbound n (Nat.le_trans (Nat.le_max_right _ _) hn) _ hs')
  obtain ⟨bound, hbound⟩ := hall programs session.machine
  refine ⟨bound, fun n hn => hbound n hn _ ⟨session.machine_lawful, rfl, [], ?_, rfl⟩⟩
  exact fun shown hshown => nomatch hshown

/-! ## An inspection that asks too much -/

/-- An inspected run that comes to its end as the run itself does is not stopped at its start. -/
theorem asks_of_sameBut {i : Inspection} {n : Nat} {program : Program} {m : Machine}
    {journal : Array String} (hsame : Eval.SameBut (Machine.interpret program m)
      (i.interpret n program (m.withOutput journal))) : i.asks journal.toList m.bare .state := by
  refine Classical.byContradiction fun hnot => ?_
  have hlook : i.look .state (m.withOutput journal) = .error .exhausted (m.withOutput journal) :=
    if_neg hnot
  obtain ⟨_, hsame⟩ := hsame
  unfold Inspection.interpret Inspection.around at hsame
  rw [Eval.bind_error _ hlook] at hsame
  exact Nesting.onMachine_interpret_ne program m _ _ hsame.symm

/-- An inspected run of programs that ends as the run itself does is not stopped at the start of any of
them. By induction on the programs before. -/
theorem asks_of_results {i : Inspection} {n : Nat} (before : List Program) {after : List Program}
    {program : Program} {m : Machine} {journal : Array String}
    (hall : List.Forall₂ Eval.SameBut (Program.results Machine.interpret (before ++ program :: after) m)
      (Program.results (i.interpret n) (before ++ program :: after) (m.withOutput journal))) :
    ∃ journal, i.asks journal (m.after before).bare .state := by
  induction before generalizing m journal with
  | nil => exact ⟨_, asks_of_sameBut (List.forall₂_cons.mp hall).1⟩
  | cons first before ih =>
      obtain ⟨⟨journal', hfirst⟩, hrest⟩ := List.forall₂_cons.mp hall
      have hnext : Eval.machineOf (i.interpret n first (m.withOutput journal)) =
          (Eval.machineOf (Machine.interpret first m)).withOutput journal' := by
        rw [hfirst]
        cases Machine.interpret first m <;> rfl
      rw [hnext] at hrest
      exact ih hrest

/-- **An inspection that asks for something that is not the case stops the runs**: what is asked
throughout programs that are run one after another is the case at the start of each of them. -/
theorem Throughout.asks_between {session : Session} (before : List Program)
    {after : List Program} {program : Program} {i : Inspection}
    (h : session.Throughout (before ++ program :: after) i) :
    ∃ journal, i.asks journal (session.machine.after before).bare .state := by
  obtain ⟨bound, hbound⟩ := h
  exact asks_of_results before (hbound bound (Nat.le_refl bound))

end Session

end Lipi
