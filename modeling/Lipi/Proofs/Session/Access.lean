import Lipi.Proofs.Machine.Superclass
import Lipi.Proofs.Session.Inspecting

set_option autoImplicit false

/-! # Access to methods

A method that is not public is for the methods of its class and its subclasses. Where a member of an
instance or of a class is read, this is tested. **Where `upar` reaches a method or a constructor, it
is not tested and holds all the same**: the home of a running method is the class of its receiver or
an ancestor of it, and `upar` goes up from the home (`Lawful.actsFor`). So throughout all runs access
is guarded wherever a member is read or `upar` is used (`Session.access_guarded`).
-/

namespace Lipi

/-- The class for which a method runs: the class of its receiver, or without one its home. -/
def Frame.actor (h : Heap) (frame : Frame) : ClassRef :=
  match frame.receiver with
  | some o => h.classOf o
  | none => frame.home

namespace Machine

/-- The innermost call is a call of a method, and runs for the given class or a descendant of it. -/
def ActsFor (m : Machine) (home : ClassRef) : Prop :=
  ∃ frame, m.frame? = some frame ∧ m.heap.Lineage (frame.actor m.heap) home

/-- Reading a member of a value comes to a method and the class that declares it. A field of the same
name hides the methods of an instance. -/
inductive Selects (m : Machine) (name : String) :
    Value → Option InstanceRef → MethodRef → ClassRef → Prop where
  | ofInstance {o : InstanceRef} {f : MethodRef} {home : ClassRef} :
    (m.heap.instanceObject o).fields.get? name = none →
    m.heap.Nearest (m.heap.classOf o) .ofInstances name home f →
    Selects m name (.object o) (some o) f home
  | ofClass {c : ClassRef} {f : MethodRef} {home : ClassRef} :
    m.heap.Nearest c .ofClass name home f → Selects m name (.ofClass c) none f home

/-- The result of reading a member at a machine, where it comes to a method that is not public: the
method, if the innermost call runs for its class or a descendant of that, and else an error. -/
def Guards (m : Machine) (target : Value) (name : String) (p : Position)
    (r : EStateM.Result Halt Machine Value) : Prop :=
  ∀ receiver f home, m.Selects name target receiver f home →
    (m.heap.method f).access ≠ .sabka →
    (m.ActsFor home ∧ r = .ok (.bound receiver f home) m) ∨
    (¬ m.ActsFor home ∧ r = .error (.failed ⟨.inaccessibleMethod name (m.heap.classObject home).name
      (m.heap.method f).access, some p⟩) m)

/-- Access to methods is guarded at a machine, whatever runs the expressions inside a member
expression. -/
structure GuardsAccess (m : Machine) : Prop where
  /-- A member is read by its name, once the value has been found. -/
  member : ∀ (run : Runner) (object : Expr) (name : String) (p : Position) (target : Value)
    (before : Machine), (∀ q, object ≠ .super q) → run.evaluate object before = .ok target m →
    m.Guards target name p (run.expression (.member object name p) before)
  /-- A member is read by a key, once the value and the key have been found. -/
  index : ∀ (run : Runner) (object key : Expr) (p : Position) (target k : Value)
    (before between : Machine), run.evaluate object before = .ok target between →
    run.evaluate key between = .ok k m →
    m.Guards target (m.heap.text k) p (run.expression (.index object key p) before)
  /-- A method of the superclass is reached only from where it may be used. -/
  superMember : ∀ (name : String) (p : Position) (v : Value) (m' : Machine),
    Eval.superMember name p m = .ok v m' → ∃ receiver f home table,
      v = .bound receiver f home ∧ m.heap.Declares home table name f ∧ m.ActsFor home
  /-- The constructor of the superclass is reached only from where it may be used. -/
  superConstructor : ∀ (frame : Frame) (parent home : ClassRef) (f : MethodRef) (p : Position),
    Eval.superTarget p m = .ok (frame, parent) m →
    m.heap.findConstructor? parent = some (home, f) →
    m.heap.Declares home .ofInstances Method.constructorName f ∧ m.ActsFor home ∧
    ∀ (run : Runner) (arguments : List Value), run.callSuper arguments p m =
      (run.callMethod frame.receiver f home arguments p >>= fun _ => pure .null) m

namespace Lawful

variable {m : Machine} (l : m.Lawful)
include l

/-- **A running method acts for every ancestor of its home.** -/
theorem actsFor {frame : Frame} (hframe : m.frame? = some frame) {home : ClassRef}
    (hline : m.heap.Lineage frame.home home) : m.ActsFor home := by
  refine ⟨frame, hframe, ?_⟩
  unfold Frame.actor
  cases hreceiver : frame.receiver with
  | none => exact hline
  | some o =>
      have hhome := (l.frame hframe o hreceiver).2
      exact Relation.ReflTransGen.trans hhome hline

/-- The test of `Machine.mayUse` is whether the innermost call acts for the class. -/
theorem mayUse_iff {access : Access} (haccess : access ≠ .sabka) (home : ClassRef) :
    m.mayUse access home = true ↔ m.ActsFor home := by
  have htest : m.mayUse access home =
      (m.frame?.map (·.actor m.heap)).any fun c => m.heap.isSubclass c home := by
    cases access with
    | sabka => exact absurd rfl haccess
    | niji | surakshit => rfl
  rw [htest]
  unfold ActsFor
  cases m.frame? with
  | none => simp
  | some frame => simp [l.heap.ancestral.isSubclass_iff]

/-- A method is bound if it may be used, and nothing is given if it may not. -/
theorem guards_getMember (target : Value) (key : Key) (p : Position) :
    m.Guards target (key.text m.heap) p (Eval.getMember target key p m) := by
  intro receiver f home hselects haccess
  have hmember : m.getMember target key =
      if m.mayUse (m.heap.method f).access home then .ok (.bound receiver f home)
      else .error (.inaccessibleMethod (key.text m.heap) (m.heap.classObject home).name
        (m.heap.method f).access) := by
    cases hselects with
    | ofInstance hfield hnearest =>
        rw [getMember_object, hfield]
        unfold methodMember
        rw [(l.heap.ancestral.findMethod?_iff _ _ _ _ _).mpr hnearest]
    | @ofClass c _ _ hnearest =>
        show m.methodMember (.ofClass c) none c .ofClass (key.text m.heap) = _
        unfold methodMember
        rw [(l.heap.ancestral.findMethod?_iff _ _ _ _ _).mpr hnearest]
  rw [Eval.getMember_eq, hmember]
  by_cases hacts : m.ActsFor home
  · rw [if_pos ((l.mayUse_iff haccess home).mpr hacts)]
    exact Or.inl ⟨hacts, rfl⟩
  · rw [if_neg fun hmay => hacts ((l.mayUse_iff haccess home).mp hmay)]
    exact Or.inr ⟨hacts, rfl⟩

/-- **Access to methods is guarded at every lawful machine.** -/
theorem guardsAccess : m.GuardsAccess where
  member run object name p target before hobject heval := by
    have hread : run.expression (.member object name p) before =
        Eval.getMember target (.name name) p m := by
      have hplain : run.expression (.member object name p) =
          (run.evaluate object >>= fun o => Eval.getMember o (.name name) p) := by
        cases object with
        | super q => exact absurd rfl (hobject q)
        | _ => rfl
      rw [hplain, Eval.bind_ok _ heval]
    rw [hread]
    exact l.guards_getMember target (.name name) p
  index run object key p target k before between hobject hkey := by
    have hread : run.expression (.index object key p) before =
        Eval.getMember target (.computed k) p m := by
      show (run.evaluate object >>= fun o => run.evaluate key >>= fun k =>
        Eval.getMember o (.computed k) p) before = _
      rw [Eval.bind_ok _ hobject, Eval.bind_ok _ hkey]
    rw [hread]
    exact l.guards_getMember target (.computed k) p
  superMember name p v m' hmember := by
    cases hframe : m.frame? with
    | none =>
        rw [Eval.superMember_eq, Eval.superTarget_eq, hframe] at hmember
        cases hmember
    | some frame =>
        obtain ⟨_, home, f, hv, hnearest⟩ := (superMember_iff l hframe name p v m').mp hmember
        exact ⟨_, f, home, _, hv, hnearest.declares, l.actsFor hframe hnearest.ancestor.to_reflTransGen⟩
  superConstructor frame parent home f p htarget hfound := by
    obtain ⟨_, hframe, hparent⟩ := Eval.superTarget_ok p m htarget
    obtain ⟨hsearch, _⟩ := Option.filter_eq_some_iff.mp hfound
    have hnearest := (l.heap.ancestral.findMethod?_iff _ _ _ _ _).mp hsearch
    refine ⟨hnearest.declares, l.actsFor hframe (.head hparent hnearest.lineage),
      fun run arguments => ?_⟩
    rw [callSuper_eq hframe hparent, hfound]
    simp only [Runner.constructBy, bind_assoc, pure_bind]

end Lawful

end Machine

/-- Inspects that access to methods is guarded. -/
def Inspection.access : Inspection where
  note _ _ := none
  asks _ m _ := m.GuardsAccess

theorem Inspection.sound_access {limits : Limits} : access.Sound limits :=
  fun _ _ _ _ _ l _ _ => l.guardsAccess

namespace Session

/-- **Access modifiers hold** throughout all runs: where a member expression, `upar.name` or
`upar(…)` comes to a method or constructor that is not public, the innermost call runs for the class
that declares it or for a descendant of that class; elsewhere the member expression fails. -/
theorem access_guarded (session : Session) (programs : List Program) :
    session.Throughout programs .access :=
  session.throughout_of_sound programs Inspection.sound_access

end Session

end Lipi
