import Lipi.Module.Memory
import Lipi.Proofs.Machine.CallingUp
import Lipi.Proofs.Session.Inspecting

set_option autoImplicit false

/-! # Methods and their homes

Throughout a run, a method that is bound to a receiver or that runs with one is at home in the class
of the receiver or in an ancestor of it; `upar` goes from the home of the running method to the
nearest proper ancestor that declares what is asked for; and hence **overrides that all call up are
run once each, from the most derived to the most basic** (`Session.methods_at_home`).
-/

namespace Lipi

namespace Machine

/-- Every method that is bound to a receiver, and every active call with a receiver, is at home in
the class of the receiver or in one of its ancestors. -/
structure MethodsAtHome (m : Machine) : Prop where
  held : ∀ (o : InstanceRef) (f : MethodRef) (home : ClassRef),
    m.Holds (.bound (some o) f home) → m.heap.Lineage (m.heap.classOf o) home
  active : ∀ (o : InstanceRef) (home : ClassRef), some ⟨some o, home⟩ ∈ m.frames →
    m.heap.Lineage (m.heap.classOf o) home

/-- Classes have no cycle of ancestors, and the innermost call reaches the superclass of its home. -/
structure SuperAboveHome (m : Machine) : Prop where
  acyclic : ∀ c, ¬ m.heap.Ancestor c c
  reaches : ∀ frame, m.frame? = some frame → m.ReachesSuper frame

/-- The overrides that an instance has of a method stand in a chain. The first of them is the one that
is found from the class of the instance. If a call of it cascades, then however calls are noted, the
calls that are noted are those of the overrides in the order of the chain, all of them if the call
comes to its end. The call that is noted ends as the call itself does. -/
def OverridesInChain (m : Machine) (o : InstanceRef) (name : String) : Prop :=
  ∃ chain, m.heap.Overrides (m.heap.Lineage (m.heap.classOf o)) name chain ∧
    ∀ home f rest, chain = (home, f) :: rest →
      m.heap.findMethod? (m.heap.classOf o) .ofInstances name = some (home, f) ∧
      ∀ (tag : Option InstanceRef → MethodRef → ClassRef → Option String) (n : Nat)
        (vs : List Value) (p : Position), (∀ v ∈ vs, v.Good m.heap) →
        m.CallCascades (Inspection.calls tag).hooks name n o f home vs →
        Cascaded (noteOf tag o) chain m ((Inspection.calls tag).hooks.callMethod
            (Runner.hooked (Inspection.calls tag).hooks n) (some o) f home vs p m) ∧
        Eval.SameBut ((Runner.within n).callMethod (some o) f home vs p m)
          ((Inspection.calls tag).hooks.callMethod
            (Runner.hooked (Inspection.calls tag).hooks n) (some o) f home vs p m)

end Machine

namespace Inspection

/-- Inspects that methods with a receiver are at home: those that are held, those that run, those
that expressions give and those that are called. -/
def homes : Inspection where
  note _ _ := none
  asks
    | _, m, .state => m.MethodsAtHome
    | _, m, .value v => ∀ o f home, v = .bound (some o) f home →
      m.heap.Lineage (m.heap.classOf o) home
    | _, m, .call receiver _ home => ∀ o, receiver = some o →
      m.heap.Lineage (m.heap.classOf o) home

/-- Inspects that `upar` goes up from the home of the running method. -/
def superAboveHome : Inspection where
  note _ _ := none
  asks _ m _ := m.SuperAboveHome

/-- Inspects that the overrides of every method of every instance stand in a chain. -/
def overridesInChain : Inspection where
  note _ _ := none
  asks _ m _ := ∀ o name, o.index < m.heap.instances.size → m.OverridesInChain o name

theorem sound_homes {limits : Limits} : homes.Sound limits := by
  intro past m sight _ _ l hsight _
  cases hsight with
  | state =>
      refine ⟨fun o f home hheld => ?_, fun o home hmem => (l.frames _ hmem o rfl).2⟩
      have hgood : m.heap.Homed (some o) f home := l.values _ hheld
      exact (hgood.frame o rfl).2
  | value hv =>
      rintro o f home rfl
      have hgood : m.heap.Homed (some o) f home := hv
      exact (hgood.frame o rfl).2
  | call hcall =>
      rintro o rfl
      exact (hcall.frame o rfl).2

theorem sound_superAboveHome {limits : Limits} : superAboveHome.Sound limits :=
  fun _ _ _ _ _ l _ _ => ⟨l.heap.ancestral.acyclic, fun _ hframe => l.reachesSuper hframe⟩

/-- A call of a method that is at home ends as it does when calls are noted. -/
theorem callMethod_calls {m : Machine} (hbare : m.output = #[]) (l : m.Lawful)
    {receiver : Option InstanceRef} {f : MethodRef} {home : ClassRef}
    (hcall : m.Callable receiver f home) {vs : List Value} (hvs : ∀ v ∈ vs, v.Good m.heap)
    (tag : Option InstanceRef → MethodRef → ClassRef → Option String) (n : Nat) (p : Position) :
    Eval.SameBut ((Runner.within n).callMethod receiver f home vs p m)
      ((calls tag).hooks.callMethod (Runner.hooked (calls tag).hooks n) receiver f home vs p m) := by
  have hs : (calls tag).Shows m.limits m m := by
    refine ⟨l, rfl, [], fun _ hshown => (nomatch hshown), ?_⟩
    show m = { m with output := #[] }
    rw [← hbare]
  have hrun : ((calls tag).kinship m.limits).Meets m.heap ((calls tag).kinship m.limits).value
      ((Runner.within n).callMethod receiver f home vs p m)
      ((calls tag).hooks.callMethod (Runner.hooked (calls tag).hooks n) receiver f home vs p m) :=
    ((accord (sound_calls tag)).within n).callMethod hs hcall (values_iff.mpr ⟨rfl, hvs⟩) rfl
  exact (sameBut_of_meets (fun _ _ _ hv => hv.1) hrun).1

/-- The overrides of an instance stand in a chain. -/
theorem sound_overridesInChain {limits : Limits} : overridesInChain.Sound limits := by
  intro past m sight hbare _ l _ _ o name ho
  have ha := l.heap.ancestral
  obtain ⟨chain, hchain⟩ := ha.exists_overrides (m.heap.classOf o) name
  refine ⟨chain, hchain, ?_⟩
  rintro home f rest rfl
  refine ⟨(ha.findMethod?_iff _ _ _ _ _).mpr (hchain.nearest ha), ?_⟩
  intro tag n vs p hvs ⟨m₁, hcalled, hup, hlast⟩
  obtain ⟨hline, hdeclares⟩ := (hchain.complete home f).mp List.mem_cons_self
  have habove := hchain.tail_of_lineage ha
  refine ⟨cascaded_call p hcalled ?_,
    callMethod_calls hbare l (.homed (.ofInstance ho hline hdeclares)) hvs tag n p⟩
  have hkeeps : Heap.KeepsClasses m.heap m₁.heap := by
    rw [called_calls] at hcalled
    cases hcalled
    exact Heap.keepsClasses_refl _
  cases rest with
  | nil =>
      have hcalm := hlast fun d g hd hg => nomatch (habove.complete d g).mpr ⟨hd, hg⟩
      refine ⟨hcalm.frames, hcalm.classes, [], List.nil_prefix, ?_, fun _ _ _ => rfl⟩
      rw [List.filterMap_nil]
      exact hcalm.output.trans (Array.append_empty).symm
  | cons head rest =>
      have hsome := (habove.complete head.1 head.2).mp List.mem_cons_self
      exact (hup ⟨head.1, head.2, hsome⟩).cascaded ha hdeclares.valid rfl hkeeps habove

end Inspection

/-- All overrides have been noted if the call has come to its end. -/
theorem Cascaded.all_noted {α : Type} {tag : ClassRef × MethodRef → Option String}
    {above : List (ClassRef × MethodRef)} {m : Machine} {r : EStateM.Result Halt Machine α}
    (hr : Cascaded tag above m r) (hend : Eval.completed r = true) :
    (Eval.machineOf r).output = m.output ++ (above.filterMap tag).toArray := by
  obtain ⟨called, _, houtput, hall⟩ := hr.noted
  cases r with
  | ok a m' => rw [houtput, hall a m' rfl]
  | error halt m' => cases hend

namespace Session

/-- **Methods are at home**, `upar` goes up from the home, and overrides that call up run once each. -/
theorem methods_at_home (session : Session) (programs : List Program) :
    session.Throughout programs .homes ∧
    session.Throughout programs .superAboveHome ∧
    session.Throughout programs .overridesInChain :=
  ⟨session.throughout_of_sound programs Inspection.sound_homes,
    session.throughout_of_sound programs Inspection.sound_superAboveHome,
    session.throughout_of_sound programs Inspection.sound_overridesInChain⟩

end Session

/-! ## Three classes -/

/-- A class with a method `f` that prints the name of the class and then calls `upar.f()`, if there
is a superclass. -/
def tellingClass (name : String) (superclass : Option String) : Statement :=
  let callUp : Statement :=
    .expression (.call (.member (.super .start) "f" .start) [] .start) .start
  let body : List Statement :=
    .print (.literal (.string name) .start) .start :: superclass.toList.map fun _ => callUp
  .classDecl name superclass [.mk .sabka false false "f" [] body .start] .start

/-- Three such classes, one below the other, and an instance of the lowest one. -/
def threeClasses : Program :=
  ⟨[tellingClass "A" none, tellingClass "B" (some "A"), tellingClass "C" (some "B"),
    .binding true "c" (.new "C" [] .start) .start], false⟩

/-- The machine on which the classes and the instance have been made. -/
def threeClassesMachine : Machine :=
  ((Session.machine ⟨.standard, MemoryModules.empty.loader, none⟩).after [threeClasses]).bare

theorem threeClassesMachine_lawful : threeClassesMachine.Lawful :=
  (Session.lawful_after (Session.machine_lawful _) _).congr rfl rfl rfl fun _ => rfl

/-- Each of the classes declares its own method, and the chain goes from one to the next. -/
theorem threeClasses_overrides :
    let h := threeClassesMachine.heap
    h.Overrides (h.Lineage (h.classOf ⟨0⟩)) "f" [(⟨2⟩, ⟨2⟩), (⟨1⟩, ⟨1⟩), (⟨0⟩, ⟨0⟩)] := by
  intro h
  have hclass : threeClassesMachine.heap.classOf ⟨0⟩ = ⟨2⟩ := by decide +kernel
  have hdeclares : ∀ i < 3, ((threeClassesMachine.heap.classObject ⟨i⟩).table .ofInstances).get? "f" =
      some ⟨i⟩ := by decide +kernel
  have hsuper : ∀ i < 3, (threeClassesMachine.heap.classObject ⟨i⟩).superclass =
      [none, some ⟨0⟩, some ⟨1⟩][i]?.join := by decide +kernel
  have hA := Heap.overrides_declared (Heap.overrides_root (hsuper 0 (by decide)))
    (hdeclares 0 (by decide))
  have hB := Heap.overrides_declared (Heap.overrides_above (hsuper 1 (by decide)) hA)
    (hdeclares 1 (by decide))
  have hC := Heap.overrides_declared (Heap.overrides_above (hsuper 2 (by decide)) hB)
    (hdeclares 2 (by decide))
  exact hclass ▸ hC

/-- Calls `f` on that instance. -/
def callOnInstance : Program :=
  ⟨[.expression (.call (.member (.identifier "c" .start) "f" .start) [] .start) .start], false⟩

namespace Session

/-- On the lowest of three classes, whose methods all call up, a call runs the overrides from the most
derived to the most basic. Not everything is the case throughout these runs: an inspection that asks
that there be no instances stops them. -/
theorem methods_at_home_three_classes :
    let session : Session := ⟨.standard, MemoryModules.empty.loader, none⟩
    let programs := [threeClasses, callOnInstance]
    let noInstances : Inspection := ⟨fun _ _ => none, fun _ m _ => m.heap.instances.size = 0⟩
    let tag := fun (_ : Option InstanceRef) (_ : MethodRef) (home : ClassRef) =>
      ["A", "B", "C"][home.index]?
    let k := (Inspection.calls tag).hooks
    (session.Throughout programs .homes ∧ session.Throughout programs .superAboveHome ∧
      session.Throughout programs .overridesInChain) ∧
    ¬ session.Throughout programs noInstances ∧
    (Eval.machineOf (k.callMethod (Runner.hooked k 20) (some ⟨0⟩) ⟨2⟩ ⟨2⟩ [] .start
      threeClassesMachine)).output = #["C", "B", "A"] := by
  intro session programs noInstances tag k
  have hall := session.methods_at_home programs
  have hsize : threeClassesMachine.heap.instances.size = 1 := by decide +kernel
  refine ⟨hall, fun hnone => ?_, ?_⟩
  · obtain ⟨_, hasks⟩ := hnone.asks_between [threeClasses]
    exact absurd (hsize.symm.trans hasks) Nat.one_ne_zero
  -- the overrides that stand in a chain between the two programs are those of the three classes
  obtain ⟨_, hasks⟩ := hall.2.2.asks_between [threeClasses]
  obtain ⟨chain, hchain, hcalls⟩ := hasks ⟨0⟩ "f" (hsize ▸ Nat.one_pos)
  have ha := threeClassesMachine_lawful.heap.ancestral
  have hthree := threeClasses_overrides
  cases hchain.unique ha (fun _ _ hline hanc => hline.trans hanc.to_reflTransGen) hthree
  -- a call of the first one cascades, as the bodies print and call up
  have hbodies : threeClassesMachine.heap.printsUpward "f"
      [(⟨2⟩, ⟨2⟩), (⟨1⟩, ⟨1⟩), (⟨0⟩, ⟨0⟩)] = true := by decide +kernel
  have hcascades := Machine.callCascades_of_bodies threeClassesMachine_lawful hthree tag
    (cascadingBodies_of_printsUpward tag hbodies) 20 []
  obtain ⟨hcascaded, hsame⟩ := (hcalls _ _ _ rfl).2 tag 20 [] .start (List.forall_mem_nil _) hcascades
  have hends : Eval.completed ((Runner.within 20).callMethod (some ⟨0⟩) ⟨2⟩ ⟨2⟩ [] .start
      threeClassesMachine) = true := by decide +kernel
  exact hcascaded.all_noted (hsame.completed.trans hends)

end Session

end Lipi
