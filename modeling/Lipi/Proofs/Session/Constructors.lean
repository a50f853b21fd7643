import Lipi.Module.Memory
import Lipi.Proofs.Session.Access
import Lipi.Proofs.Session.Allowance
import Lipi.Proofs.Session.Receivers

set_option autoImplicit false

/-! # Access to constructors

A constructor is a method and may be declared not to be public. There are three ways to it. Where
it is read as a member of an instance, access is tested; where `upar(…)` runs it, the running method
acts for the class that declares it. **`naya` runs the nearest constructor on the new instance
whoever asks** (`Session.constructors_entered`), so a private constructor can be run from anywhere
(`Session.private_constructor_runs`).
-/

namespace Lipi

namespace Machine

/-- The nearest constructor from a class upward, which is not public. -/
structure Restricted (m : Machine) (c home : ClassRef) (f : MethodRef) : Prop where
  nearest : m.heap.Nearest c .ofInstances Method.constructorName home f
  constructs : (m.heap.method f).isConstructor = true
  restricted : (m.heap.method f).access ≠ .sabka

/-- The machine with a new instance of a class. -/
def withInstance (m : Machine) (c : ClassRef) : Machine :=
  { m with heap := (m.heap.newInstance c).2 }

/-- How a constructor that is not public is entered, whatever runs the expressions inside. -/
structure EntersConstructors (m : Machine) : Prop where
  /-- It is read as a member of an instance by who acts for its class, and refused to others. -/
  read : ∀ (run : Runner) (object : Expr) (o : InstanceRef) (home : ClassRef) (f : MethodRef)
    (p : Position) (before : Machine), (∀ q, object ≠ .super q) →
    run.evaluate object before = .ok (.object o) m →
    (m.heap.instanceObject o).fields.get? Method.constructorName = none →
    m.Restricted (m.heap.classOf o) home f →
    (m.ActsFor home ∧ run.expression (.member object Method.constructorName p) before =
      .ok (.bound (some o) f home) m) ∨
    (¬ m.ActsFor home ∧ run.expression (.member object Method.constructorName p) before =
      .error (.failed ⟨.inaccessibleMethod Method.constructorName (m.heap.classObject home).name
        (m.heap.method f).access, some p⟩) m)
  /-- `upar(…)` runs it for who acts for its class. -/
  super : ∀ (run : Runner) (frame : Frame) (parent home : ClassRef) (f : MethodRef)
    (vs : List Value) (p : Position), Eval.superTarget p m = .ok (frame, parent) m →
    m.Restricted parent home f → m.ActsFor home ∧
    run.callSuper vs p m = (run.callMethod frame.receiver f home vs p >>= fun _ => pure .null) m
  /-- `naya` runs it on a new instance whoever asks, once the class and the arguments have been
  found: its body is run unless as many calls are active as are allowed. -/
  new : ∀ (run : Runner) (className : String) (es : List Expr) (c home : ClassRef) (f : MethodRef)
    (vs : List Value) (p : Position) (before between : Machine),
    Eval.classNamed className p before = .ok c between → run.evaluateAll es between = .ok vs m →
    m.Restricted c home f →
    run.expression (.new className es p) before =
      if m.limits.maxCallDepth ≤ m.callDepth then
        .error (.failed ⟨.recursionLimit m.limits.maxCallDepth, some p⟩) (m.withInstance c)
      else
        (run.activate (m.heap.method f).routine (m.heap.classObject home).closure vs
          (some ⟨some (m.heap.newInstance c).1, home⟩) >>=
            fun _ => pure (.object (m.heap.newInstance c).1)) (m.withInstance c)
  /-- An argument that fails keeps `naya` from running anything. -/
  argument : ∀ (run : Runner) (className : String) (es : List Expr) (c : ClassRef) (halt : Halt)
    (p : Position) (before between : Machine), Eval.classNamed className p before = .ok c between →
    run.evaluateAll es between = .error halt m →
    run.expression (.new className es p) before = .error halt m

section Entering

variable {m : Machine}

/-- The search for a constructor finds the nearest one. -/
theorem Restricted.findConstructor? (l : m.Lawful) {c home : ClassRef} {f : MethodRef}
    (hf : m.Restricted c home f) : m.heap.findConstructor? c = some (home, f) := by
  unfold Heap.findConstructor?
  rw [(l.heap.ancestral.findMethod?_iff _ _ _ _ _).mpr hf.nearest, Option.filter_some,
    if_pos hf.constructs]

/-- Making an instance changes nothing about constructors. -/
theorem findConstructor?_withInstance (m : Machine) (c d : ClassRef) :
    (m.withInstance c).heap.findConstructor? d = m.heap.findConstructor? d := by
  have hclasses : (m.withInstance c).heap.classes = m.heap.classes := rfl
  unfold Heap.findConstructor?
  rw [Heap.findMethod?_congr hclasses]
  rfl

/-- With the class and the arguments found, an instance is made and its constructor run. -/
theorem newInstance_eq {run : Runner} {className : String} {es : List Expr} {c : ClassRef}
    {vs : List Value} {p : Position} {before between : Machine}
    (hclass : Eval.classNamed className p before = .ok c between)
    (hargs : run.evaluateAll es between = .ok vs m) :
    run.newInstance className es p before =
      (run.constructBy (some (m.heap.newInstance c).1) vs p (m.heap.findConstructor? c) >>=
        fun _ => pure (.object (m.heap.newInstance c).1)) (m.withInstance c) := by
  have hmade : Eval.alloc (·.newInstance c) m = .ok (m.heap.newInstance c).1 (m.withInstance c) :=
    rfl
  unfold Runner.newInstance
  rw [Eval.bind_ok _ hclass, Eval.bind_ok _ hargs, Eval.bind_ok _ hmade,
    ← findConstructor?_withInstance m c c]
  rfl

/-- **How constructors are entered at a lawful machine.** -/
theorem Lawful.entersConstructors (l : m.Lawful) : m.EntersConstructors where
  read run object o home f p before hobject heval hfield hf :=
    l.guardsAccess.member run object Method.constructorName p (.object o) before hobject heval
      (some o) f home (.ofInstance hfield hf.nearest) hf.restricted
  super run frame parent home f vs p htarget hf := by
    obtain ⟨_, hacts, hrun⟩ :=
      l.guardsAccess.superConstructor frame parent home f p htarget (hf.findConstructor? l)
    exact ⟨hacts, hrun run vs⟩
  new run className es c home f vs p before between hclass hargs hf := by
    show run.newInstance className es p before = _
    rw [newInstance_eq hclass hargs, hf.findConstructor? l]
    simp only [Runner.constructBy, bind_assoc, pure_bind]
    -- neither the access of the method nor the innermost frame is looked at
    have hcall := Runner.callRoutine_eq run (m.heap.method f).routine
      (m.heap.classObject home).closure vs (some ⟨some (m.heap.newInstance c).1, home⟩) p
      (m.withInstance c)
    by_cases hdeep : m.limits.maxCallDepth ≤ m.callDepth
    · rw [if_pos hdeep]
      exact Eval.bind_error _ (hcall.trans (if_pos hdeep))
    · rw [if_neg hdeep]
      exact Eval.bind_congr _ (hcall.trans (if_neg hdeep))
  argument run className es c halt p before between hclass hargs := by
    show run.newInstance className es p before = _
    unfold Runner.newInstance
    rw [Eval.bind_ok _ hclass, Eval.bind_error _ hargs]

end Entering

end Machine

/-- Inspects how constructors are entered. -/
def Inspection.constructors : Inspection where
  note _ _ := none
  asks _ m _ := m.EntersConstructors

theorem Inspection.sound_constructors {limits : Limits} : constructors.Sound limits :=
  fun _ _ _ _ _ l _ _ => l.entersConstructors

namespace Session

/-- **Where access to constructors is tested**: throughout all runs, a constructor that is not
public is read as a member of an instance and run by `upar(…)` for who acts for its class only, and
run by `naya` for everyone. -/
theorem constructors_entered (session : Session) (programs : List Program) :
    session.Throughout programs .constructors :=
  session.throughout_of_sound programs Inspection.sound_constructors

/-- A private constructor is run from outside all methods, where it cannot be read. -/
theorem private_constructor_runs :
    ((⟨.standard, MemoryModules.empty.loader, none⟩ : Session).run
      "kaksha A \x7b niji nirmaan() \x7b chaap 1 \x7d \x7d\nnaya A()").lines = ["1"] ∧
    ((⟨.standard, MemoryModules.empty.loader, none⟩ : Session).run
      "kaksha A \x7b niji nirmaan() \x7b chaap 1 \x7d \x7d\n(naya A()).constructor").reason? =
        some (.failed ⟨.inaccessibleMethod "constructor" "A" .niji, some ⟨2, 11⟩⟩) := by
  constructor <;> decide +kernel

end Session

end Lipi
