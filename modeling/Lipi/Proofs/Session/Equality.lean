import Lipi.Proofs.Session.Allowance
import Lipi.Proofs.Session.Inspecting
import Lipi.Proofs.Value

set_option autoImplicit false

/-! # Equal values are interchangeable

Equality compares what is shared by identity and bound methods by method and receiver. It does not
look at the home of a method, on which access and `upar` depend. **Nothing is lost by that**
(`Session.equality_of_values`): a method is declared once, by one class, and is bound with this class
as its home only, so that bound methods that are equal are one value. Hence all that is equal, up to
the sign of a zero, is one value, and calling it gives one outcome.

The values of a run are those that stand in the heap or among exports, and those that expressions
give. A value that has been met may be kept anywhere; what is met later is compared with it.
-/

namespace Lipi

/-! ## One home -/

namespace Heap

/-- A method that is at home somewhere is declared there. -/
theorem Homed.declares {h : Heap} {receiver : Option InstanceRef} {f : MethodRef} {home : ClassRef}
    (hf : h.Homed receiver f home) : ∃ table name, h.Declares home table name f := by
  cases hf with
  | ofInstance _ _ hd => exact ⟨_, _, hd⟩
  | ofClass hd => exact ⟨_, _, hd⟩

/-- A method has one home. -/
theorem Lawful.home_unique {h : Heap} (l : h.Lawful) {receiver receiver' : Option InstanceRef}
    {f : MethodRef} {home home' : ClassRef} (hf : h.Homed receiver f home)
    (hf' : h.Homed receiver' f home') : home' = home := by
  obtain ⟨_, _, hd⟩ := hf.declares
  obtain ⟨_, _, hd'⟩ := hf'.declares
  exact (l.once _ _ _ _ _ _ _ hd' hd).1

end Heap

/-- Good values that are equal are numbers, which may differ in the sign of a zero, or one value. -/
theorem Value.Good.same_of_equals {h : Heap} (l : h.Lawful) {u v : Value} (hu : u.Good h)
    (hv : v.Good h) (hequal : u.equals v = true) :
    (∃ x y, u = .number x ∧ v = .number y ∧ Number.Same x y) ∨ v = u := by
  cases Value.equals_iff.mp hequal with
  | number hxy => exact .inl ⟨_, _, rfl, rfl, Number.same_of_beq hxy⟩
  | bound receiver f home home' => exact .inr (congrArg (Value.bound receiver f) (l.home_unique hu hv))
  | same _ => exact .inr rfl

/-! ## What is met in a run -/

namespace Machine

/-- A value is met: it stands in the heap or among exports, or an expression has just given it. -/
def Meets (m : Machine) (sight : Sight) (v : Value) : Prop := m.Holds v ∨ sight = .value v

/-- Two values do the same for each other at a machine. -/
structure Interchangeable (m : Machine) (u v : Value) : Prop where
  /-- If they are no numbers they are one value. -/
  same : (∀ x, u ≠ .number x) → v = u
  /-- Bound methods have one home. -/
  homes : ∀ receiver receiver' f f' home home', u = .bound receiver f home →
    v = .bound receiver' f' home' → home' = home
  /-- A call of the one, with whatever arguments, ends as a call of the other. -/
  calls : ∀ (run : Runner) (vs : List Value) (p : Position),
    run.callValue v vs p m = run.callValue u vs p m

/-- What is met is good. -/
theorem Meets.good {m : Machine} {sight : Sight} {v : Value} (hv : m.Meets sight v) (l : m.Lawful)
    (hsight : sight.Lawful m) : v.Good m.heap := by
  rcases hv with hheld | rfl
  · exact l.values v hheld
  · cases hsight with
    | value hgood => exact hgood

/-- Good values that are equal are interchangeable. -/
theorem Lawful.interchangeable {m : Machine} (l : m.Lawful) {u v : Value} (hu : u.Good m.heap)
    (hv : v.Good m.heap) (hequal : u.equals v = true) : m.Interchangeable u v := by
  rcases Value.Good.same_of_equals l.heap hu hv hequal with ⟨x, y, rfl, rfl, hxy⟩ | rfl
  · refine ⟨fun hnumber => absurd rfl (hnumber x), nofun, fun run vs p => ?_⟩
    show Eval.fail (.notCallable (Number.text y)) p m = Eval.fail (.notCallable (Number.text x)) p m
    rw [hxy.text]
  · refine ⟨fun _ => rfl, ?_, fun _ _ _ => rfl⟩
    rintro receiver receiver' f f' home home' rfl hsame
    cases hsame
    rfl

end Machine

namespace Inspection

open scoped Classical in
/-- Inspects that every value that is met and equals `u`, which is met or has been met before, is
interchangeable with it. -/
noncomputable def equalTo (u : Value) : Inspection where
  note m sight := if m.Meets sight u then some "met" else none
  asks journal m sight := "met" ∈ journal ∨ m.Meets sight u →
    ∀ v, m.Meets sight v → u.equals v = true → m.Interchangeable u v

theorem sound_equalTo {limits : Limits} (u : Value) : (equalTo u).Sound limits := by
  intro past m sight _ _ l hsight hpast hmet v hv hequal
  -- what was good when it was met is good still
  have hu : u.Good m.heap := by
    rcases hmet with hnoted | hnow
    · obtain ⟨⟨earlier, seen⟩, hmem, hnote⟩ := List.mem_filterMap.mp hnoted
      by_cases hbefore : earlier.Meets seen u
      · have hshown := hpast _ hmem
        exact hshown.grows.good (hbefore.good hshown.lawful hshown.sight)
      · rw [show (equalTo u).note earlier seen = none from if_neg hbefore] at hnote
        cases hnote
    · exact hnow.good l hsight
  exact l.interchangeable hu (hv.good l hsight) hequal

end Inspection

namespace Session

/-- **Equality is a partial equivalence that leaves out undefined numbers only, and values that are
equal are interchangeable**: throughout all runs, whatever value has been met, every value that
equals it is the same one if it is no number, with the same home if it is a method, and a call of
either gives the same outcome. -/
theorem equality_of_values (session : Session) (programs : List Program) :
    (Std.Symm fun v w : Value => v.equals w = true) ∧
    (IsTrans Value fun v w => v.equals w = true) ∧
    (∀ v : Value, v.equals v = true ↔ ¬ v.IsNaN) ∧
    ∀ u, session.Throughout programs (.equalTo u) :=
  ⟨Value.equals_symm, Value.equals_trans, Value.equals_self_iff,
    fun u => session.throughout_of_sound programs (Inspection.sound_equalTo u)⟩

/-- A static method, found from the class that declares it and from a class below. -/
example : ((⟨.standard, MemoryModules.empty.loader, none⟩ : Session).run
    "kaksha A \x7b sthir f() \x7b\x7d \x7d\nkaksha B virasat A \x7b\x7d\nchaap A.f == B.f").lines =
      ["true"] := by
  decide +kernel

end Session

end Lipi
