import Lipi.Module.Memory
import Lipi.Proofs.Session.Inspecting

set_option autoImplicit false

/-! # Receivers

Where `yeh` is defined. A call with a receiver is a call of an instance method; a call without one is
a call of a static method, **or of a constructor that `upar(…)` runs for a static method**
(`Session.calls_have_receivers`). That constructor has no receiver, and `yeh` fails in it
(`Session.upar_in_static_method`).
-/

namespace Lipi

namespace Machine

/-- How a method comes to be called at a machine. -/
inductive Calls (m : Machine) : Option InstanceRef → MethodRef → ClassRef → Prop where
  /-- A method from the table of instance methods has a receiver. -/
  | ofInstance {o : InstanceRef} {f : MethodRef} {home : ClassRef} {name : String} :
    m.heap.Lineage (m.heap.classOf o) home → m.heap.Declares home .ofInstances name f →
    Calls m (some o) f home
  /-- A method without a receiver stands in a table of static methods and in no table of instance
  methods. -/
  | ofClass {f : MethodRef} {home : ClassRef} {name : String} :
    m.heap.Declares home .ofClass name f → (∀ c name, ¬ m.heap.Declares c .ofInstances name f) →
    Calls m none f home
  /-- A method without a receiver runs the nearest constructor above its home, without a receiver. -/
  | constructor {caller home : ClassRef} {f : MethodRef} : m.frame? = some ⟨none, caller⟩ →
    m.heap.NearestAbove caller .ofInstances Method.constructorName home f →
    (m.heap.method f).isConstructor = true → Calls m none f home

/-- `yeh` is the receiver of the innermost call, and is defined if there is one. -/
def KnowsReceiver (m : Machine) : Prop :=
  ∀ frame, m.frame? = some frame → ∀ p,
    (∀ o, frame.receiver = some o ↔ Eval.receiver p m = .ok (.object o) m) ∧
    (frame.receiver = none ↔
      Eval.receiver p m = .error (.failed ⟨.thisOutsideMethod, some p⟩) m)

theorem knowsReceiver (m : Machine) : m.KnowsReceiver := by
  intro frame hframe p
  rw [Eval.receiver_eq, hframe, Option.bind_some]
  cases frame.receiver <;> simp

/-- **Every call of a lawful machine comes about in one of three ways.** -/
theorem Lawful.calls {m : Machine} (l : m.Lawful) {receiver : Option InstanceRef} {f : MethodRef}
    {home : ClassRef} (hcall : m.Callable receiver f home) : m.Calls receiver f home := by
  cases hcall with
  | homed hf =>
      cases hf with
      | ofInstance _ hline hd => exact .ofInstance hline hd
      | ofClass hd =>
          refine .ofClass hd fun c name hother => ?_
          have htables := (l.heap.once _ _ _ _ _ _ _ hd hother).2.1
          cases htables
  | super hframe hparent hfound =>
      obtain ⟨hsearch, hconstructor⟩ := Option.filter_eq_some_iff.mp hfound
      have hnearest := (l.heap.ancestral.findMethod?_iff _ _ _ _ _).mp hsearch
      exact .constructor hframe ((Heap.nearestAbove_iff hparent).mpr hnearest) hconstructor

end Machine

/-- Inspects how methods are called, and what `yeh` is. -/
def Inspection.receivers : Inspection where
  note _ _ := none
  asks
    | _, m, .call receiver f home => m.Calls receiver f home
    | _, m, _ => m.KnowsReceiver

theorem Inspection.sound_receivers {limits : Limits} : receivers.Sound limits := by
  intro past m sight _ _ l hsight _
  cases hsight with
  | state => exact m.knowsReceiver
  | value _ => exact m.knowsReceiver
  | call hcall => exact l.calls hcall

namespace Session

/-- **Calls have receivers**: throughout all runs, instance methods are called with a receiver, and a
method that is called without one is static, unless it is a constructor that `upar(…)` runs from a
call without a receiver. -/
theorem calls_have_receivers (session : Session) (programs : List Program) :
    session.Throughout programs .receivers :=
  session.throughout_of_sound programs Inspection.sound_receivers

/-- A static method runs the constructor of the superclass, and `yeh` is not defined there. -/
theorem upar_in_static_method :
    ((⟨.standard, MemoryModules.empty.loader, none⟩ : Session).run
      "kaksha A \x7b nirmaan() \x7b yeh.x = 1 \x7d \x7d\nkaksha B virasat A \x7b sthir f() \x7b upar() \x7d \x7d\nB.f()").reason? =
      some (.failed ⟨.thisOutsideMethod, some ⟨1, 24⟩⟩) := by
  decide +kernel

end Session

end Lipi
