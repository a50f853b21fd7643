import Lipi.Proofs.Machine.Restoration

set_option autoImplicit false

/-! # What the elementary steps of a run leave aside

The elementary steps of a run, which fail, read members, make objects, bind names and set members,
work on the heap, the current scope and the active calls. They cannot tell two machines apart that
differ in other parts, and they leave these parts as they are. **A change of a machine that is aside
of what they look at can be made before such a step or after it** (`Eval.Oblivious`). Among the
parts that are aside are the limits and the output.
-/

namespace Lipi

/-- A change of a machine concerns neither heap, scopes, calls nor the names to be exported. -/
structure Machine.Aside (change : Machine → Machine) : Prop where
  heap : ∀ m, (change m).heap = m.heap
  globals : ∀ m, (change m).globals = m.globals
  environment : ∀ m, (change m).environment = m.environment
  frames : ∀ m, (change m).frames = m.frames
  exports : ∀ m, (change m).exports = m.exports
  after : ∀ m heap exports,
    change { m with heap, exports } = { change m with heap, exports }

namespace Machine

theorem Aside.setHeap {change : Machine → Machine} (h : Aside change) (m : Machine) (heap : Heap) :
    change { m with heap } = { change m with heap } := by
  have hafter := h.after m heap m.exports
  rw [hafter, ← h.exports m]

theorem Aside.frame? {change : Machine → Machine} (h : Aside change) (m : Machine) :
    (change m).frame? = m.frame? := by
  unfold Machine.frame?
  rw [h.frames]

/-- A member of a value depends on the heap and the innermost frame. -/
theorem getMember_congr {m m' : Machine} (hheap : m'.heap = m.heap) (hframe : m'.frame? = m.frame?)
    (target : Value) (key : Key) : m'.getMember target key = m.getMember target key := by
  have hmethod : ∀ (receiver : Option InstanceRef) (c : ClassRef) (table : MethodTable)
      (name : String), m'.methodMember target receiver c table name =
        m.methodMember target receiver c table name := by
    intro receiver c table name
    unfold methodMember mayUse actingClass?
    rw [hheap, hframe]
  unfold getMember
  simp only [hheap, hmethod]

theorem collect_congr {m m' : Machine} (hheap : m'.heap = m.heap) (hglobals : m'.globals = m.globals)
    (names : List String) (exports : Exports) :
    m'.collect names exports = m.collect names exports := by
  induction names generalizing exports with
  | nil => rfl
  | cons name names ih =>
      have hglobal : m'.global? name = m.global? name := by
        unfold Machine.global?
        rw [hheap, hglobals]
      rw [Machine.collect, Machine.collect, hglobal]
      cases m.global? name with
      | some value => exact ih _
      | none => rfl

end Machine

namespace Eval

/-- It makes no difference to a computation whether a change is made before it or after it. -/
def Oblivious {α : Type} (change : Machine → Machine) (x : Eval α) : Prop :=
  ∀ m : Machine, x (change m) = onMachine change (x m)

variable {change : Machine → Machine}

/-- A step does not see a change that its search does not see. -/
theorem oblivious_search {α β : Type} (h : Machine.Aside change) {pos : Option Position}
    {find : Machine → Except RuntimeError.Cause β} {make : β → Heap → α × Heap}
    (hfind : ∀ m, find (change m) = find m) : (Eval.search pos find make).Oblivious change := by
  intro m
  unfold Eval.search
  rw [hfind, h.heap]
  cases find m with
  | ok b => exact congrArg (EStateM.Result.ok _) (h.setHeap m _).symm
  | error cause => rfl

theorem oblivious_update {α : Type} (h : Machine.Aside change) (pos : Position)
    (find : Heap → Except RuntimeError.Cause α) (place : α → Heap → Heap) :
    (Eval.update pos find place).Oblivious change := by
  rw [update_eq_search]
  exact oblivious_search h fun m => by rw [h.heap]

theorem oblivious_alloc {α : Type} (h : Machine.Aside change) (make : Heap → α × Heap) :
    (Eval.alloc make).Oblivious change := by
  intro m
  unfold Eval.alloc
  rw [h.heap]
  exact congrArg (EStateM.Result.ok _) (h.setHeap m _).symm

theorem oblivious_setMember (h : Machine.Aside change) (target : Value) (key : Key) (value : Value)
    (pos : Position) : (Eval.setMember target key value pos).Oblivious change := by
  intro m
  have hsame : Machine.conflicts (change m).heap target key = Machine.conflicts m.heap target key :=
    congrArg (Machine.conflicts · target key) (h.heap m)
  cases hconflict : Machine.conflicts m.heap target key with
  | true =>
      rw [setMember_conflict hconflict, setMember_conflict (hsame.trans hconflict)]
      rfl
  | false =>
      rw [setMember_free hconflict, setMember_free (hsame.trans hconflict)]
      exact oblivious_update h pos _ _ m

theorem oblivious_getMember (h : Machine.Aside change) (target : Value) (key : Key)
    (pos : Position) : (Eval.getMember target key pos).Oblivious change := by
  rw [getMember_eq_search]
  exact oblivious_search h fun m => Machine.getMember_congr (h.heap m) (h.frame? m) target key

theorem oblivious_collectExports (h : Machine.Aside change) :
    Eval.collectExports.Oblivious change := by
  rw [collectExports_eq_search]
  refine oblivious_search h fun m => ?_
  unfold Machine.collectExports
  rw [h.exports]
  exact Machine.collect_congr (h.heap m) (h.globals m) _ _

theorem oblivious_declare (h : Machine.Aside change) (name : String) (value : Value)
    (constant : Bool) (pos : Position) :
    (Eval.declare name value constant pos).Oblivious change := by
  rw [declare_eq_search]
  exact oblivious_search h fun m => by rw [h.heap, h.environment]

theorem oblivious_assign (h : Machine.Aside change) (name : String) (value : Value)
    (pos : Position) : (Eval.assign name value pos).Oblivious change := by
  rw [assign_eq_search]
  exact oblivious_search h fun m => by rw [h.heap, h.environment]

theorem oblivious_noteExports (h : Machine.Aside change) (names : List String) :
    (Runner.noteExports names).Oblivious change := by
  intro m
  have hafter := h.after m m.heap (m.exports ++ names.toArray)
  unfold Runner.noteExports
  rw [h.exports, ← h.heap m] at *
  exact congrArg (EStateM.Result.ok ()) hafter.symm

/-! ## Quiet steps -/

/-- A computation leaves output and modules as they are. -/
structure Quiet {α : Type} (x : Eval α) : Prop where
  output : ∀ m, (x.final m).output = m.output
  modules : ∀ m, (x.final m).modules = m.modules

theorem Elementary.quiet {α : Type} {x : Eval α} (hx : x.Elementary) : x.Quiet := by
  constructor
  all_goals
    intro m
    have hends := hx m
    unfold Eval.final
    generalize x m = r at hends
    cases hends <;> rfl

theorem quiet_setMember (target : Value) (key : Key) (value : Value) (pos : Position) :
    (Eval.setMember target key value pos).Quiet := by
  have hupdate := (elementary_update pos (Machine.memberPlace · target key)
    (MemberPlace.write value)).quiet
  constructor
  all_goals
    intro m
    unfold Eval.final
    cases hconflict : Machine.conflicts m.heap target key with
    | true => rw [setMember_conflict hconflict, machineOf]
    | false =>
        rw [setMember_free hconflict]
        first | exact hupdate.output m | exact hupdate.modules m

end Eval

end Lipi
