import Lipi.Proofs.Machine.Lawful

set_option autoImplicit false

/-! # Reaching the superclass

**`upar` goes to the nearest proper ancestor of the home of the running method** that declares what
is asked for, whatever the class of the receiver is, and keeps the receiver
(`Lawful.reachesSuper`).
-/

namespace Lipi.Machine

/-- What `upar` does at a machine whose innermost call has this frame. -/
structure ReachesSuper (m : Machine) (frame : Frame) : Prop where
  /-- A method of the superclass is the nearest one in the table that goes with the receiver, and is
  bound to the receiver. -/
  member : ∀ (name : String) (p : Position) (v : Value) (m' : Machine),
    Eval.superMember name p m = .ok v m' ↔ m' = m ∧ ∃ home f,
      v = .bound frame.receiver f home ∧
      m.heap.NearestAbove frame.home (Eval.superTable frame) name home f
  /-- The constructor of the superclass is the nearest one, and is called on the receiver. -/
  constructor : ∀ (run : Runner) (arguments : List Value) (p : Position) (home : ClassRef)
    (f : MethodRef),
    m.heap.NearestAbove frame.home .ofInstances Method.constructorName home f →
    (m.heap.method f).isConstructor = true →
    run.callSuper arguments p m =
      (run.callMethod frame.receiver f home arguments p >>= fun _ => pure .null) m
  /-- A superclass without a constructor is passed over. -/
  noConstructor : ∀ (run : Runner) (arguments : List Value) (p : Position) (parent : ClassRef),
    m.heap.Parent frame.home parent →
    (∀ home f, m.heap.NearestAbove frame.home .ofInstances Method.constructorName home f →
      (m.heap.method f).isConstructor = false) →
    run.callSuper arguments p m = .ok .null m

variable {m : Machine}

theorem superTarget_of_parent {frame : Frame} (hframe : m.frame? = some frame) {parent : ClassRef}
    (hparent : m.heap.Parent frame.home parent) (p : Position) :
    Eval.superTarget p m = .ok (frame, parent) m := by
  rw [Eval.superTarget_eq, hframe]
  dsimp only
  rw [show (m.heap.classObject frame.home).superclass = some parent from hparent]

/-- What is found from the superclass is what is nearest above. -/
theorem superMember_iff (l : m.Lawful) {frame : Frame} (hframe : m.frame? = some frame)
    (name : String) (p : Position) (v : Value) (m' : Machine) :
    Eval.superMember name p m = .ok v m' ↔ m' = m ∧ ∃ home f,
      v = .bound frame.receiver f home ∧
      m.heap.NearestAbove frame.home (Eval.superTable frame) name home f := by
  rw [Eval.superMember_eq]
  constructor
  · intro hok
    cases htarget : Eval.superTarget p m with
    | error halt m₁ =>
        rw [htarget] at hok
        cases hok
    | ok t m₁ =>
        obtain ⟨rfl, hcaller, hparent⟩ := Eval.superTarget_ok p m htarget
        obtain ⟨caller, parent⟩ := t
        cases hframe.symm.trans hcaller
        rw [htarget] at hok
        dsimp only at hok
        cases hfound : m₁.heap.findMethod? parent (Eval.superTable caller) name with
        | none =>
            rw [hfound] at hok
            cases hok
        | some found =>
            obtain ⟨home, f⟩ := found
            rw [hfound] at hok
            cases hok
            exact ⟨rfl, home, f, rfl, (Heap.nearestAbove_iff hparent).mpr
              ((l.heap.ancestral.findMethod?_iff _ _ _ _ _).mp hfound)⟩
  · rintro ⟨rfl, home, f, rfl, hnearest⟩
    -- there is something above, so there is a parent to start from
    obtain ⟨parent, hparent, _⟩ := Relation.TransGen.head'_iff.mp hnearest.ancestor
    have hfound := (l.heap.ancestral.findMethod?_iff _ _ _ _ _).mpr
      ((Heap.nearestAbove_iff hparent).mp hnearest)
    rw [superTarget_of_parent hframe hparent]
    dsimp only
    rw [hfound]

theorem callSuper_eq {frame : Frame} (hframe : m.frame? = some frame) {parent : ClassRef}
    (hparent : m.heap.Parent frame.home parent) (run : Runner) (arguments : List Value)
    (p : Position) :
    run.callSuper arguments p m =
      (run.constructBy frame.receiver arguments p (m.heap.findConstructor? parent) >>=
        fun _ => pure .null) m := by
  unfold Runner.callSuper
  rw [Eval.bind_ok _ (superTarget_of_parent hframe hparent p)]
  rfl

/-- **The innermost call of a lawful machine reaches the superclass of its home.** -/
theorem Lawful.reachesSuper (l : m.Lawful) {frame : Frame} (hframe : m.frame? = some frame) :
    m.ReachesSuper frame where
  member := superMember_iff l hframe
  constructor run arguments p home f hnearest hconstructor := by
    obtain ⟨parent, hparent, _⟩ := Relation.TransGen.head'_iff.mp hnearest.ancestor
    have hfound := (l.heap.ancestral.findMethod?_iff _ _ _ _ _).mpr
      ((Heap.nearestAbove_iff hparent).mp hnearest)
    have hsearch : m.heap.findConstructor? parent = some (home, f) := by
      unfold Heap.findConstructor?
      rw [hfound]
      simp [hconstructor]
    rw [callSuper_eq hframe hparent, hsearch]
    simp only [Runner.constructBy, bind_assoc, pure_bind]
  noConstructor run arguments p parent hparent hnone := by
    have hsearch : m.heap.findConstructor? parent = none := by
      unfold Heap.findConstructor?
      cases hfound : m.heap.findMethod? parent .ofInstances Method.constructorName with
      | none => rfl
      | some found =>
          obtain ⟨home, f⟩ := found
          have hnot := hnone home f ((Heap.nearestAbove_iff hparent).mpr
            ((l.heap.ancestral.findMethod?_iff _ _ _ _ _).mp hfound))
          simp [hnot]
    rw [callSuper_eq hframe hparent, hsearch]
    rfl

end Lipi.Machine
