import Lipi.Proofs.Heap.Visits
import Lipi.Proofs.Machine.Steps
import Lipi.Proofs.Session.Ending

set_option autoImplicit false

/-! # Fields under computed keys

`o[k] = v` sets the field of the instance `o` whose name is the text of `k`. While the field is
being set the instance cannot be read, and the text of `k` may have to read it. **The assignment
completes, and the field can be read back, exactly if writing `k` down does not visit `o`**; if it
does, however deep in the arrays of `k` the instance stands, the run is aborted with nothing changed
(`Runner.computedField`).
-/

namespace Lipi

namespace Eval

variable {m : Machine} {o : InstanceRef} {k v : Value}

/-- Setting a field under a key that visits the instance aborts the run. -/
theorem setMember_of_visits (hvisits : m.heap.Visits o k) (pos : Position) :
    setMember (.object o) (.computed k) v pos m = .error .conflict m :=
  if_pos (Heap.mentions_iff.mpr hvisits)

/-- Under any other key the field is set. -/
theorem setMember_of_not_visits (hfree : ¬ m.heap.Visits o k) (pos : Position) :
    setMember (.object o) (.computed k) v pos m =
      .ok () { m with heap := m.heap.setField o (m.heap.text k) v } :=
  if_neg fun hconflict => hfree (Heap.mentions_iff.mp hconflict)

/-- A field that has been set under a key is found under that key. -/
theorem getMember_setField (ho : o.index < m.heap.instances.size) (pos : Position) :
    getMember (.object o) (.computed k) pos
        { m with heap := m.heap.setField o (m.heap.text k) v } =
      .ok v { m with heap := m.heap.setField o (m.heap.text k) v } := by
  rw [getMember_eq, Machine.getMember_object]
  -- setting the field has not changed the text of the key
  have htext : Key.text (m.heap.setField o (m.heap.text k) v) (.computed k) = m.heap.text k :=
    Heap.text_setField m.heap o (m.heap.text k) v k
  dsimp only
  rw [htext, Heap.field_setField ho]
  rfl

end Eval

/-- **An assignment to a field under a computed key**, whose operands have the values `o`, `k` and
`v`: it aborts the run if writing `k` down visits `o`, and leaves the machine as it is; otherwise it
has the value `v`, changes that field of `o` and nothing else, and reading `o[k]` then gives `v`. -/
theorem Runner.computedField (run : Runner) {object key value : Expr} {m m₁ m₂ m₃ : Machine}
    {o : InstanceRef} {k v : Value} (hobject : run.evaluate object m = .ok (.object o) m₁)
    (hkey : run.evaluate key m₁ = .ok k m₂) (hvalue : run.evaluate value m₂ = .ok v m₃)
    (ho : o.index < m₃.heap.instances.size) (keyPos pos readPos : Position) :
    (m₃.heap.Visits o k →
      run.expression (.assign (.index object key keyPos) value pos) m = .error .conflict m₃) ∧
    (¬ m₃.heap.Visits o k →
      ∃ m₄, run.expression (.assign (.index object key keyPos) value pos) m = .ok v m₄ ∧
        m₄ = { m₃ with heap := m₃.heap.setField o (m₃.heap.text k) v } ∧
        Eval.getMember (.object o) (.computed k) readPos m₄ = .ok v m₄) := by
  have hoperands : run.expression (.assign (.index object key keyPos) value pos) m =
      (Eval.setMember (.object o) (.computed k) v pos >>= fun _ => pure v) m₃ :=
    calc run.expression (.assign (.index object key keyPos) value pos) m
        = _ := Eval.bind_ok _ hobject
      _ = _ := Eval.bind_ok _ hkey
      _ = _ := Eval.bind_ok _ hvalue
  rw [hoperands]
  constructor
  · intro hvisits
    exact Eval.bind_error _ (Eval.setMember_of_visits hvisits pos)
  · intro hfree
    refine ⟨_, Eval.bind_ok _ (Eval.setMember_of_not_visits hfree pos), rfl, ?_⟩
    exact Eval.getMember_setField ho readPos

/-- A machine that runs a method on the one instance that there is. -/
def Machine.inMethod : Machine where
  heap := { Heap.empty with instances := #[⟨⟨0⟩, .empty⟩] }
  globals := ⟨0⟩
  environment := ⟨0⟩
  frames := [some ⟨some ⟨0⟩, ⟨0⟩⟩]
  limits := .standard
  output := #[]
  exports := #[]
  moduleId := none
  modules := .fresh MemoryModules.empty.loader

/-- In a method, `yeh["x"] = khali` completes and `yeh["x"]` is then `khali`, while
`yeh[yeh] = khali` aborts. -/
theorem Runner.computedField_receiver :
    (∃ m₄, (Runner.within 1).expression (.assign (.index (.receiver .start)
        (.literal (.string "x") .start) .start) (.literal .null .start) .start) Machine.inMethod =
          .ok .null m₄ ∧
        Eval.getMember (.object ⟨0⟩) (.computed (.string "x")) .start m₄ = .ok .null m₄) ∧
    (Runner.within 1).expression (.assign (.index (.receiver .start) (.receiver .start) .start)
      (.literal .null .start) .start) Machine.inMethod = .error .conflict Machine.inMethod := by
  have hreceiver : (Runner.within 1).evaluate (.receiver .start) Machine.inMethod =
      .ok (.object ⟨0⟩) Machine.inMethod := rfl
  have hkey : (Runner.within 1).evaluate (.literal (.string "x") .start) Machine.inMethod =
      .ok (.string "x") Machine.inMethod := rfl
  have hnull : (Runner.within 1).evaluate (.literal .null .start) Machine.inMethod =
      .ok .null Machine.inMethod := rfl
  have hfree : ¬ Machine.inMethod.heap.Visits ⟨0⟩ (.string "x") := by
    intro hvisits
    cases hvisits
  constructor
  · obtain ⟨m₄, hrun, -, hread⟩ := (Runner.computedField (Runner.within 1) hreceiver hkey hnull
      (by decide) .start .start .start).2 hfree
    exact ⟨m₄, hrun, hread⟩
  · exact (Runner.computedField (Runner.within 1) hreceiver hreceiver hnull (by decide)
      .start .start .start).1 .object

/-- A field of an instance that is set under an array that holds the instance: the run neither
completes, so that the field could be read, nor fails. -/
theorem Session.run_aborts_on_array_key :
    ∃ lines, (⟨.standard, MemoryModules.empty.loader, none⟩ : Session).run
      "kaksha A \x7b\x7d\nrakho o = naya A()\no[[o]] = 1\nchaap o[[o]]" =
        .halted .conflict lines := by
  have haborted : ((⟨.standard, MemoryModules.empty.loader, none⟩ : Session).run
      "kaksha A \x7b\x7d\nrakho o = naya A()\no[[o]] = 1\nchaap o[[o]]").isAborted = true := by
    decide +kernel
  exact Outcome.isAborted_iff.mp haborted

end Lipi
