import Lipi.Proofs.Heap.Lawful
import Lipi.Proofs.Heap.References
import Lipi.Proofs.Machine.Steps

set_option autoImplicit false

/-! # Lawful machines

A machine is lawful if its heap is, if the active calls and the exports that are kept are good, and
if no more calls are active than its limits allow. **Every elementary step of a run leads from a lawful machine to a lawful machine** with a later
heap, and gives a good value (`Eval.Safe`).
-/

namespace Lipi

namespace Machine

/-- A value stands in the heap or among the exports of a module that has been run. -/
inductive Holds (m : Machine) : Value → Prop where
  | heap {v : Value} : m.heap.Holds v → Holds m v
  | exported {id : ModuleId} {exports : Exports} {e : String × Value} :
    m.modules.cached? id = some exports → e ∈ exports.entries → Holds m e.2

/-- Which values stand there depends only on the heap and on the modules that have been run. -/
theorem Holds.congr {m m' : Machine} {v : Value} (hv : m'.Holds v) (hheap : m'.heap = m.heap)
    (hcached : ∀ id, m'.modules.cached? id = m.modules.cached? id) : m.Holds v := by
  cases hv with
  | heap hh => exact .heap (hheap ▸ hh)
  | exported hc he => exact .exported ((hcached _).symm.trans hc) he

/-- What every machine of a run satisfies. -/
structure Lawful (m : Machine) : Prop where
  heap : m.heap.Lawful
  frames : ∀ frame, some frame ∈ m.frames → frame.Good m.heap
  values : ∀ v, m.Holds v → v.Good m.heap
  depth : m.callDepth ≤ m.limits.maxCallDepth

/-- A method may be called: it is at home in the class that is given for it, or it is the constructor
of the superclass, which a method without a receiver has named. -/
inductive Callable (m : Machine) : Option InstanceRef → MethodRef → ClassRef → Prop where
  | homed {receiver : Option InstanceRef} {f : MethodRef} {home : ClassRef} :
    m.heap.Homed receiver f home → Callable m receiver f home
  | super {caller parent home : ClassRef} {f : MethodRef} :
    m.frame? = some ⟨none, caller⟩ → m.heap.Parent caller parent →
    m.heap.findConstructor? parent = some (home, f) → Callable m none f home

theorem Callable.frame {m : Machine} {receiver : Option InstanceRef} {f : MethodRef}
    {home : ClassRef} (h : m.Callable receiver f home) : Frame.Good m.heap ⟨receiver, home⟩ := by
  cases h with
  | homed hf => exact hf.frame
  | super _ _ _ => exact fun o ho => nomatch ho

namespace Lawful

variable {m : Machine} (l : m.Lawful)
include l

/-- A lawful machine on a later heap. -/
theorem withHeap {heap : Heap} (hheap : heap.Lawful) (g : Heap.Grows m.heap heap) :
    Lawful { m with heap } := by
  refine ⟨hheap, fun frame hf => g.frame (l.frames frame hf), fun v hv => ?_, l.depth⟩
  cases hv with
  | heap hh => exact hheap.values v hh
  | exported hc he => exact g.good (l.values _ (.exported hc he))

theorem frame {frame : Frame} (hf : m.frame? = some frame) : frame.Good m.heap :=
  l.frames frame (mem_frames_of_frame? hf)

theorem enterCall {frame : Option Frame} (hf : ∀ f, frame = some f → f.Good m.heap)
    (hroom : m.callDepth < m.limits.maxCallDepth) :
    Lawful { m with frames := frame :: m.frames } := by
  refine ⟨l.heap, fun f hmem => ?_, fun v hv => l.values v (hv.congr rfl fun _ => rfl), hroom⟩
  rcases List.mem_cons.mp hmem with heq | hrest
  · exact hf f heq.symm
  · exact l.frames f hrest

theorem leaveCall : Lawful { m with frames := m.frames.tail } := by
  have hdepth : m.frames.tail.length ≤ m.callDepth := m.frames.tail_sublist.length_le
  exact ⟨l.heap, fun f hmem => l.frames f (List.mem_of_mem_tail hmem),
    fun v hv => l.values v (hv.congr rfl fun _ => rfl), Nat.le_trans hdepth l.depth⟩

/-- Scopes and output are free. -/
theorem congr {m' : Machine} (hheap : m'.heap = m.heap) (hframes : m'.frames = m.frames)
    (hlimits : m'.limits = m.limits)
    (hcached : ∀ id, m'.modules.cached? id = m.modules.cached? id) : m'.Lawful := by
  refine ⟨hheap ▸ l.heap, fun f hmem => ?_, fun v hv => ?_, ?_⟩
  · rw [hheap]
    exact l.frames f (hframes ▸ hmem)
  · rw [hheap]
    exact l.values v (hv.congr hheap hcached)
  · rw [Machine.callDepth, hframes, hlimits]
    exact l.depth

/-- A module starts without active calls, in a scope of its own. -/
theorem startModule (id : ModuleId) :
    (m.startModule id).Lawful ∧ Heap.Grows m.heap (m.startModule id).heap := by
  obtain ⟨hheap, hgrows⟩ := Heap.newScope_lawful l.heap .empty (fun e he => nomatch he) none
  refine ⟨⟨hheap, fun f hmem => (nomatch hmem), fun v hv => ?_, Nat.zero_le _⟩, hgrows⟩
  cases hv with
  | heap hh => exact hheap.values v hh
  | exported hc he => exact hgrows.good (l.values _ (.exported hc he))

/-- The importer goes on with the heap and the modules of a module that has ended. -/
theorem resume {ended : Machine} (id : ModuleId) (hended : ended.Lawful)
    (g : Heap.Grows m.heap ended.heap) : (m.resume ended id).Lawful :=
  ⟨hended.heap, fun f hmem => g.frame (l.frames f hmem),
    fun v hv => hended.values v (hv.congr rfl fun _ => rfl), l.depth⟩

/-- The exports that are kept of a module are good. -/
theorem store (id : ModuleId) {exports : Exports}
    (hgood : ∀ e ∈ exports.entries, e.2.Good m.heap) :
    Lawful { m with modules := m.modules.store id exports } := by
  refine ⟨l.heap, l.frames, fun v hv => ?_, l.depth⟩
  cases hv with
  | heap hh => exact l.values v (.heap hh)
  | @exported other kept e hc he =>
      change (m.modules.cache.insert id exports).get? other = some kept at hc
      rw [Dict.get?_insert] at hc
      split at hc
      · cases hc
        exact hgood e he
      · exact l.values _ (.exported hc he)

end Lawful

/-- A machine that has just started on a lawful heap, without modules that have been run. -/
theorem lawful_start {heap : Heap} (l : heap.Lawful) (limits : Limits) {modules : Modules}
    (hfresh : ∀ id, modules.cached? id = none) (id : Option ModuleId) :
    (start heap limits modules id).Lawful := by
  obtain ⟨hheap, _⟩ := Heap.newScope_lawful l .empty (fun e he => nomatch he) none
  refine ⟨hheap, fun f hmem => (nomatch hmem), fun v hv => ?_, Nat.zero_le _⟩
  cases hv with
  | heap hh => exact hheap.values v hh
  | exported hc _ => exact absurd ((hfresh _).symm.trans hc) nofun

end Machine

namespace Eval

/-- From every lawful machine a computation leads to a lawful machine with a later heap under the
same limits, and what it gives has a property there. -/
def Safe {α : Type} (good : Heap → α → Prop) (m : Machine) (x : Eval α) : Prop :=
  m.Lawful → match x m with
    | .ok a m' => m'.Lawful ∧ Heap.Grows m.heap m'.heap ∧ m'.limits = m.limits ∧ good m'.heap a
    | .error _ m' => m'.Lawful ∧ Heap.Grows m.heap m'.heap ∧ m'.limits = m.limits

/-- The value that a computation gives is good. -/
def goodValue (h : Heap) (v : Value) : Prop := v.Good h

variable {m : Machine}

/-- A computation that changes nothing. -/
theorem safe_of_still {α : Type} {good : Heap → α → Prop} {x : Eval α}
    (hx : m.Lawful → (∃ a, x m = .ok a m ∧ good m.heap a) ∨ ∃ halt, x m = .error halt m) :
    Safe good m x := by
  intro l
  rcases hx l with ⟨a, hok, hgood⟩ | ⟨halt, herror⟩
  · rw [hok]
    exact ⟨l, Heap.grows_refl _, rfl, hgood⟩
  · rw [herror]
    exact ⟨l, Heap.grows_refl _, rfl⟩

theorem safe_update {α : Type} {p : Position} {find : Heap → Except RuntimeError.Cause α}
    {change : α → Heap → Heap}
    (hchange : ∀ place, find m.heap = .ok place → m.Lawful →
      (change place m.heap).Lawful ∧ Heap.Grows m.heap (change place m.heap)) :
    Safe (fun _ _ => True) m (update p find change) := by
  intro l
  unfold update
  cases hfind : find m.heap with
  | error cause => exact ⟨l, Heap.grows_refl _, rfl⟩
  | ok place =>
      obtain ⟨hheap, hgrows⟩ := hchange place hfind l
      exact ⟨l.withHeap hheap hgrows, hgrows, rfl, trivial⟩

/-! ## Names -/

theorem safe_lookup (name : String) (p : Position) : Safe goodValue m (lookup name p) := by
  refine safe_of_still fun l => ?_
  unfold lookup
  cases hv : m.heap.lookup? m.environment name with
  | none => exact .inr ⟨_, rfl⟩
  | some v => exact .inl ⟨v, rfl, l.heap.values v (Heap.holds_of_lookup? hv)⟩

theorem safe_declare (name : String) {v : Value} (constant : Bool) (p : Position)
    (hv : v.Good m.heap) : Safe (fun _ _ => True) m (declare name v constant p) := by
  have hupdate : Safe (fun _ _ => True) m (update p (·.defineTarget m.environment name)
      fun d h => h.setBinding d name ⟨v, constant⟩) := by
    refine safe_update fun place hplace l => ?_
    obtain ⟨rfl, hfree⟩ := Heap.eq_of_defineTarget hplace
    exact Heap.setBinding_lawful l.heap hfree hv
  exact hupdate

theorem safe_assign (name : String) {v : Value} (p : Position) (hv : v.Good m.heap) :
    Safe (fun _ _ => True) m (assign name v p) := by
  have hupdate : Safe (fun _ _ => True) m (update p (·.assignTarget m.environment name)
      fun d h => h.setBinding d name ⟨v, false⟩) := by
    refine safe_update fun place hplace l => ?_
    exact Heap.setBinding_lawful l.heap (Heap.binder?_of_assignTarget hplace).2 hv
  exact hupdate

/-! ## Methods and the superclass -/

theorem safe_receiver (p : Position) : Safe goodValue m (Eval.receiver p) := by
  refine safe_of_still fun l => ?_
  rw [receiver_eq]
  cases hreceiver : m.frame?.bind (·.receiver) with
  | none => exact .inr ⟨_, rfl⟩
  | some o =>
      obtain ⟨frame, hframe, ho⟩ := Option.bind_eq_some_iff.mp hreceiver
      exact .inl ⟨_, rfl, (l.frame hframe o ho).1⟩

theorem safe_superTarget (p : Position) : Safe (fun _ _ => True) m (superTarget p) := by
  refine safe_of_still fun _ => ?_
  rw [superTarget_eq]
  split
  · exact .inr ⟨_, rfl⟩
  · split
    · exact .inl ⟨_, rfl, trivial⟩
    · exact .inr ⟨_, rfl⟩

theorem safe_superMember (name : String) (p : Position) :
    Safe goodValue m (superMember name p) := by
  refine safe_of_still fun l => ?_
  rcases superMember_cases p m name with herror | ⟨frame, parent, home, f, hframe, hparent, hfound, hok⟩
  · exact .inr herror
  · refine .inl ⟨_, hok, ?_⟩
    have hnearest := (l.heap.ancestral.findMethod?_iff _ _ _ _ _).mp hfound
    show m.heap.Homed frame.receiver f home
    cases hreceiver : frame.receiver with
    | none =>
        have htable : superTable frame = .ofClass := by
          unfold superTable
          rw [hreceiver]
          rfl
        rw [htable] at hnearest
        exact .ofClass hnearest.declares
    | some o =>
        have htable : superTable frame = .ofInstances := by
          unfold superTable
          rw [hreceiver]
          rfl
        rw [htable] at hnearest
        obtain ⟨hvalid, hline⟩ := l.frame hframe o hreceiver
        exact .ofInstance hvalid (hline.trans (.head hparent hnearest.lineage)) hnearest.declares

/-! ## Members -/

/-- A value that refers to nothing is good. -/
theorem good_of_refs_eq_nil {h : Heap} {v : Value} (hv : v.refs = []) : v.Good h := by
  cases v with
  | bound receiver f home => cases hv
  | ofClass c => cases hv
  | object o => cases hv
  | _ => trivial

section Members

variable (l : m.Lawful)
include l

/-- A member is a value that is held, or a method that is at home, or refers to nothing. -/
theorem good_getMember {target v : Value} {key : Key} (htarget : target.Good m.heap)
    (hv : m.getMember target key = .ok v) : v.Good m.heap := by
  have hnearest {c home : ClassRef} {table : MethodTable} {name : String} {f : MethodRef}
      (hfound : m.heap.findMethod? c table name = some (home, f)) :=
    (l.heap.ancestral.findMethod?_iff c table name home f).mp hfound
  cases Machine.isMember_of_getMember hv with
  | field hfield => exact l.heap.values _ (Heap.holds_field hfield)
  | method hfound =>
      exact .ofInstance htarget (hnearest hfound).lineage (hnearest hfound).declares
  | staticMethod hfound => exact .ofClass (hnearest hfound).declares
  | element helement => exact l.heap.values _ (Heap.holds_element helement)
  | plain hplain => exact good_of_refs_eq_nil hplain

omit l in
theorem safe_getMember {target : Value} (key : Key) (p : Position) (htarget : target.Good m.heap) :
    Safe goodValue m (getMember target key p) := by
  refine safe_of_still fun l => ?_
  unfold getMember
  cases hv : m.getMember target key with
  | error cause => exact .inr ⟨_, rfl⟩
  | ok v => exact .inl ⟨v, rfl, good_getMember l htarget hv⟩

omit l in
theorem safe_setMember (target : Value) (key : Key) {v : Value} (p : Position)
    (hv : v.Good m.heap) : Safe (fun _ _ => True) m (setMember target key v p) := by
  have hupdate : Safe (fun _ _ => True) m
      (update p (Machine.memberPlace · target key) (MemberPlace.write v)) := by
    refine safe_update fun place _ l => ?_
    cases place with
    | field o name => exact Heap.setField_lawful l.heap o name hv
    | element a i => exact Heap.setElement_lawful l.heap a i hv
  intro l
  unfold setMember
  by_cases hconflict : Machine.conflicts m.heap target key = true
  · rw [if_pos hconflict]
    exact ⟨l, Heap.grows_refl _, rfl⟩
  · rw [if_neg hconflict]
    exact hupdate l

end Members

/-! ## Operators -/

/-- Operators give numbers, strings and truth values. -/
theorem refs_unary {op : UnaryOp} {v w : Value} (hw : op.apply v = .ok w) : w.refs = [] := by
  unfold UnaryOp.apply at hw
  split at hw <;> cases hw <;> rfl

theorem refs_binary {h : Heap} {op : BinaryOp} {l r w : Value} (hw : op.apply h l r = .ok w) :
    w.refs = [] := by
  have hnumbers : ∀ {x y : Float}, op.arithmetic x y = .ok w → w.refs = [] := by
    intro x y hw
    unfold BinaryOp.arithmetic at hw
    split at hw
    all_goals first
      | cases hw
        done
      | cases hw
        rfl
      | split at hw
        · cases hw
        · cases hw
          rfl
  unfold BinaryOp.apply at hw
  split at hw
  all_goals first
    | cases hw <;> rfl
    | unfold BinaryOp.applyArithmetic at hw
      split at hw <;> first | exact hnumbers hw | cases hw <;> rfl
    | unfold BinaryOp.applyComparison at hw
      split at hw <;> cases hw <;> rfl

theorem safe_lift {p : Position} {r : Except RuntimeError.Cause Value}
    (hr : ∀ v, r = .ok v → v.Good m.heap) : Safe goodValue m (lift p r) := by
  refine safe_of_still fun _ => ?_
  cases r with
  | error cause => exact .inr ⟨_, rfl⟩
  | ok v => exact .inl ⟨v, rfl, hr v rfl⟩

/-! ## Exports -/

/-- What is collected for export is what global names stand for. -/
theorem global_of_collect {names : List String} {exports result : Exports} {e : String × Value}
    (hcollect : m.collect names exports = .ok result) (he : e ∈ result.entries) :
    e ∈ exports.entries ∨ ∃ name, m.global? name = some e.2 := by
  induction names generalizing exports with
  | nil =>
      cases hcollect
      exact .inl he
  | cons name names ih =>
      rw [Machine.collect] at hcollect
      cases hv : m.global? name with
      | none =>
          rw [hv] at hcollect
          cases hcollect
      | some v =>
          rw [hv] at hcollect
          rcases ih hcollect with hmem | hglobal
          · rcases Dict.mem_insert hmem with hold | rfl
            · exact .inl hold
            · exact .inr ⟨name, hv⟩
          · exact .inr hglobal

theorem global_of_collectExports {exports : Exports} {e : String × Value}
    (hcollect : m.collectExports = .ok exports) (he : e ∈ exports.entries) :
    ∃ name, m.global? name = some e.2 := by
  rcases global_of_collect hcollect he with hnone | hglobal
  · cases hnone
  · exact hglobal

theorem safe_collectExports :
    Safe (fun h exports => ∀ e ∈ exports.entries, e.2.Good h) m collectExports := by
  refine safe_of_still fun l => ?_
  unfold collectExports
  cases hcollect : m.collectExports with
  | error cause => exact .inr ⟨_, rfl⟩
  | ok exports =>
      refine .inl ⟨exports, rfl, fun e he => ?_⟩
      obtain ⟨name, hv⟩ := global_of_collectExports hcollect he
      exact l.heap.values _ (Heap.holds_of_lookup? hv)

end Eval

end Lipi
