import Lipi.Proofs.Program.Concatenation
import Lipi.Proofs.Session.Positions

set_option autoImplicit false

/-! # Programs that run one after the other

**Running the whole of two texts is running the one and then the other on the same machine**
(`Machine.interpret_lines`). The statements of the whole are those of the parts, up to positions
(`Program.ofText_append`), and runs do not depend on positions (`Alike.interpret`); what a machine has
done so far is all that the second program finds of the first one (`Machine.interpret_append`).
-/

namespace Lipi

/-! ## Statements one after the other -/

/-- The statements of two programs run one after the other, and not at all behind one that fails. -/
theorem Runner.executeProgram_append (run : Runner) (ss ts : List Statement) :
    run.executeProgram (ss ++ ts) = run.executeProgram ss >>= fun _ => run.executeProgram ts := by
  induction ss with
  | nil => rfl
  | cons s ss ih =>
      rw [List.cons_append, executeProgram, executeProgram, ih, bind_assoc]

namespace Machine

/-- **A program is run by running the one part of it and then the other.** -/
theorem interpret_append (p q : Program) (markers : Bool) (m : Machine) :
    interpret ⟨p.body ++ q.body, markers⟩ m = (interpret p >>= fun _ => interpret q) m := by
  cases hfirst : interpret p m with
  | error reason m₁ =>
      let n := max (m.nesting (⟨p.body ++ q.body, markers⟩ : Program).depth) (m.nesting p.depth)
      have hwhole := (Nesting.interpret_eq ⟨p.body ++ q.body, markers⟩ m (n := n)
        (Nat.le_max_left _ _)).1
      have hpart := (Nesting.interpret_eq p m (n := n) (Nat.le_max_right _ _)).1
      rw [← hwhole, Runner.executeProgram_append, Eval.bind_error _ (hpart.trans hfirst),
        Eval.bind_error _ hfirst]
  | ok _ m₁ =>
      -- one bound on the nesting that is large enough for all three runs
      let n := max (m.nesting (⟨p.body ++ q.body, markers⟩ : Program).depth)
        (max (m.nesting p.depth) (m₁.nesting q.depth))
      have hwhole := (Nesting.interpret_eq ⟨p.body ++ q.body, markers⟩ m (n := n)
        (Nat.le_max_left _ _)).1
      have hpart := (Nesting.interpret_eq p m (n := n) (by omega)).1
      have hpart' := (Nesting.interpret_eq q m₁ (n := n) (by omega)).1
      rw [← hwhole, Runner.executeProgram_append, Eval.bind_ok _ (hpart.trans hfirst), hpart',
        Eval.bind_ok _ hfirst]

/-! ## What can be seen of a run -/

/-- The two machines have printed the same lines, and the same global names have values with the same
text. -/
structure LooksLike (m m' : Machine) : Prop where
  output : m'.output = m.output
  globals : ∀ name, (m'.global? name).map m'.heap.text = (m.global? name).map m.heap.text

theorem Alike.looksLike {m m' : Machine} (h : m.Alike m') : m.LooksLike m' := by
  refine ⟨h.output, fun name => ?_⟩
  have hvalue := h.heap.lookup? m.globals name
  unfold global?
  rw [h.globals]
  generalize m.heap.lookup? m.globals name = v at hvalue
  generalize m'.heap.lookup? m.globals name = v' at hvalue
  cases hvalue with
  | none => rfl
  | some hv => exact congrArg some (h.heap.text hv)

/-- Two runs succeed, or fail for the same reason, and leave machines that look alike. -/
inductive EndAlike :
    EStateM.Result Halt Machine Unit → EStateM.Result Halt Machine Unit → Prop where
  | ok {m m' : Machine} : m.LooksLike m' → EndAlike (.ok () m) (.ok () m')
  | error {reason reason' : Halt} {m m' : Machine} : reason.Alike reason' → m.LooksLike m' →
    EndAlike (.error reason m) (.error reason' m')

theorem interpret_endAlike {p q : Program} (h : p.agrees q = true) (m : Machine) :
    EndAlike (interpret p m) (interpret q m) := by
  have hmeet := Lipi.Alike.interpret h m.alike_refl
  generalize interpret p m = r at hmeet
  generalize interpret q m = r' at hmeet
  cases hmeet with
  | ok _ hs _ => exact .ok hs.looksLike
  | error _ hs he => exact .error he hs.looksLike

/-- **Texts compose**: if no program markers stand around two texts and the last token of the first
one is a semicolon, then the first text, the end of a line and the second text are read as the
statements of both. Running that whole on any machine ends as running the second program does on the
machine that the first one leaves, or as running the first one does if that fails. -/
theorem interpret_lines {text text' : String} {p q : Program} {ts : List Token}
    (hts : tokenize text = .ok ts)
    (hlast : ts.dropLast.getLast?.map Token.kind = some (.sign .semicolon))
    (hp : Program.ofText text = .ok p) (hq : Program.ofText text' = .ok q)
    (hpm : p.markers = false) (hqm : q.markers = false) :
    ∃ c, Program.ofText (text ++ "\n" ++ text') = .ok c ∧
      (⟨p.body ++ q.body, false⟩ : Program).agrees c = true ∧
      ∀ m, EndAlike ((interpret p >>= fun _ => interpret q) m) (interpret c m) := by
  obtain ⟨c, hc, hcm, hbody⟩ := Program.ofText_append hts hlast hp hq hpm hqm
  have hnames : (⟨p.body ++ q.body, false⟩ : Program).memberNames = c.memberNames :=
    List.forall₂_eq_eq_eq ▸ Statement.memberNamesAll_of_renamed hbody
  have hwell : Statement.AllWellFormed true (p.body ++ q.body) := by
    rw [Statement.allWellFormed_iff]
    refine List.forall_mem_append.mpr ⟨?_, ?_⟩
    · exact Statement.allWellFormed_iff.mp (Program.wellFormed_of_ofText hp)
    · exact Statement.allWellFormed_iff.mp (Program.wellFormed_of_ofText hq)
  have hagree : (⟨p.body ++ q.body, false⟩ : Program).agrees c = true :=
    Program.agrees_of_renamed hwell hcm hbody hnames
  refine ⟨c, hc, hagree, fun m => ?_⟩
  rw [← interpret_append p q false m]
  exact interpret_endAlike hagree m

/-- Two texts are programs without markers, and the first one ends with a semicolon. -/
def canFollow (text text' : String) : Bool :=
  match tokenize text, Program.ofText text, Program.ofText text' with
  | .ok ts, .ok p, .ok q =>
    ts.dropLast.getLast?.any (fun t => t.kind == .sign .semicolon) && !p.markers && !q.markers
  | _, _, _ => false

/-- A text that ends with a conditional, and one that starts with a bracket, in a fresh session. -/
theorem interpret_lines_bracket :
    let text := "rakho x = [sahi]; agar (x) chaap x;"
    let text' := "[x]\nkaam f() \x7b chaap x \x7d\nf()"
    let session : Session := ⟨.standard, MemoryModules.empty.loader, none⟩
    ∃ p q c, Program.ofText text = .ok p ∧ Program.ofText text' = .ok q ∧
      Program.ofText (text ++ "\n" ++ text') = .ok c ∧
      (⟨p.body ++ q.body, false⟩ : Program).agrees c = true ∧
      EndAlike ((interpret p >>= fun _ => interpret q) session.machine)
        (interpret c session.machine) := by
  intro text text' session
  -- what can be seen of the two texts by running the reader
  have hseen : canFollow text text' = true := by decide +kernel
  unfold canFollow at hseen
  split at hseen
  · next ts p q hts hp hq =>
    simp only [Bool.and_eq_true, Bool.not_eq_true'] at hseen
    obtain ⟨⟨hany, hpm⟩, hqm⟩ := hseen
    have hlast : ts.dropLast.getLast?.map Token.kind = some (.sign .semicolon) := by
      cases ht : ts.dropLast.getLast? with
      | none =>
          rw [ht] at hany
          cases hany
      | some t =>
          rw [ht, Option.any_some] at hany
          exact congrArg some ((TokenKind.beq_sign t.kind .semicolon).mp hany)
    obtain ⟨c, hc, hagree, hruns⟩ := interpret_lines hts hlast hp hq hpm hqm
    exact ⟨p, q, c, hp, hq, hc, hagree, hruns session.machine⟩
  · cases hseen

end Machine

end Lipi
