import Lipi.Proofs.Heap.Enclosure
import Lipi.Proofs.Machine.Accord
import Lipi.Proofs.Machine.Lawful

set_option autoImplicit false

/-! # Enclosed runs

A machine is enclosed if its scopes, its active calls and the exports of the modules that have been
run are in reach. **No step of a run leaves the enclosure**: what it looks up is found in reach, what
it makes is new, and what it changes is in reach. So an enclosed run changes nothing else, however
it ends (`Enclosure.accord`).
-/

namespace Lipi

namespace Enclosure

variable (E : Enclosure)

/-- The heap keeps the enclosure, and what modules have exported is in reach. -/
structure Holds (m : Machine) : Prop where
  heap : E.Keeps m.heap
  exports : ∀ id exports, m.modules.cached? id = some exports →
    ∀ e ∈ exports.entries, e.2.Inside (E.InReach m.heap)

/-- Everything that a machine has in its hands is in reach. -/
structure Encloses (m : Machine) : Prop extends E.Holds m where
  globals : E.InReach m.heap (.scope m.globals)
  environment : E.InReach m.heap (.scope m.environment)
  frames : ∀ frame, some frame ∈ m.frames → frame.Inside (E.InReach m.heap)

/-- Both machines are one and the same, which is enclosed. -/
def kinship : Kinship where
  hooks := .plain
  likeness := .same
  later := Heap.Within
  state m m' := m' = m ∧ E.Encloses m
  value h v v' := v' = v ∧ v.Inside (E.InReach h)
  halt := Eq
  scope h s := E.InReach h (.scope s)
  frame h f := ∀ frame, f = some frame → frame.Inside (E.InReach h)
  callable m receiver _ home := Frame.Inside (E.InReach m.heap) ⟨receiver, home⟩

variable {E} {m : Machine}

/-! ## Enclosed machines -/

namespace Holds

/-- A module starts in a new scope, without active calls. It has what modules have exported in its
hands, and nothing else. -/
theorem startModule (hm : E.Holds m) (id : ModuleId) : E.Encloses (m.startModule id) := by
  obtain ⟨hgoes, hscope⟩ := hm.heap.newScope ⟨.empty, none⟩ fun r href => by
    rcases href with ⟨p, hp, _⟩ | ⟨e, he, _⟩
    · cases hp
    · cases he
  exact {
    heap := hgoes.keeps
    exports := fun other exports hc e he =>
      (hm.exports other exports hc e he).mono fun _ => InReach.later hgoes.within
    globals := hscope
    environment := hscope
    frames := fun _ hf => nomatch hf }

theorem store (hm : E.Holds m) (id : ModuleId) {exports : Exports}
    (hinside : ∀ e ∈ exports.entries, e.2.Inside (E.InReach m.heap)) :
    E.Holds { m with modules := m.modules.store id exports } := by
  refine ⟨hm.heap, fun other kept hc => ?_⟩
  change (m.modules.cache.insert id exports).get? other = some kept at hc
  rw [Dict.get?_insert] at hc
  split at hc
  · cases hc
    exact hinside
  · exact hm.exports other kept hc

end Holds

namespace Encloses

variable (hm : E.Encloses m)
include hm

theorem closed : m.heap.Closed (E.InReach m.heap) := hm.heap.closed

theorem withHeap {heap : Heap} (hgoes : E.Goes m.heap heap) : E.Encloses { m with heap } where
  heap := hgoes.keeps
  globals := hm.globals.later hgoes.within
  environment := hm.environment.later hgoes.within
  frames frame hf := (hm.frames frame hf).mono fun _ => InReach.later hgoes.within
  exports id exports hc e he :=
    (hm.exports id exports hc e he).mono fun _ => InReach.later hgoes.within

/-- Limits, output and the names to be exported are free. -/
theorem congr {m' : Machine} (hheap : m'.heap = m.heap) (hglobals : m'.globals = m.globals)
    (henvironment : m'.environment = m.environment) (hframes : m'.frames = m.frames)
    (hcached : ∀ id, m'.modules.cached? id = m.modules.cached? id) : E.Encloses m' := by
  refine ⟨⟨?_, fun id => ?_⟩, ?_, ?_, ?_⟩
  · rw [hheap]
    exact hm.heap
  · rw [hheap, hcached]
    exact hm.exports id
  · rw [hheap, hglobals]
    exact hm.globals
  · rw [hheap, henvironment]
    exact hm.environment
  · rw [hheap, hframes]
    exact hm.frames

theorem inScope {s : ScopeRef} (hs : E.InReach m.heap (.scope s)) :
    E.Encloses { m with environment := s } :=
  { hm with environment := hs }

theorem frame {frame : Frame} (hf : m.frame? = some frame) : frame.Inside (E.InReach m.heap) :=
  hm.frames frame (Machine.mem_frames_of_frame? hf)

theorem enterCall {frame : Option Frame}
    (hf : ∀ f, frame = some f → f.Inside (E.InReach m.heap)) :
    E.Encloses { m with frames := frame :: m.frames } := by
  refine { hm with frames := fun f hmem => ?_ }
  rcases List.mem_cons.mp hmem with heq | hrest
  · exact hf f heq.symm
  · exact hm.frames f hrest

theorem leaveCall : E.Encloses { m with frames := m.frames.tail } :=
  { hm with frames := fun f hmem => hm.frames f (List.mem_of_mem_tail hmem) }

/-- The importer goes on with the heap and the modules of a module that has ended. -/
theorem resume {ended : Machine} (id : ModuleId) (hended : E.Encloses ended)
    (hw : m.heap.Within ended.heap) : E.Encloses (m.resume ended id) where
  heap := hended.heap
  globals := hm.globals.later hw
  environment := hm.environment.later hw
  frames frame hf := (hm.frames frame hf).mono fun _ => InReach.later hw
  exports := hended.exports

theorem store (id : ModuleId) {exports : Exports}
    (hinside : ∀ e ∈ exports.entries, e.2.Inside (E.InReach m.heap)) :
    E.Encloses { m with modules := m.modules.store id exports } :=
  { hm with toHolds := hm.toHolds.store id hinside }

/-! ## What is read -/

/-- A member of a value in reach is in reach: a field, an element, or a method of its class. -/
theorem getMember {target v : Value} {key : Key} (htarget : target.Inside (E.InReach m.heap))
    (hv : m.getMember target key = .ok v) : v.Inside (E.InReach m.heap) := by
  cases Machine.isMember_of_getMember hv with
  | field hfield => exact hm.closed.field (Value.inside_object.mp htarget) hfield
  | @method o _ home f hfound =>
      have ho := Value.inside_object.mp htarget
      obtain ⟨hhome, hf⟩ := hm.closed.findMethod? (hm.closed.classOf ho) hfound
      refine Value.inside_bound.mpr ⟨hf, fun o' ho' => ?_, hhome⟩
      cases ho'
      exact ho
  | staticMethod hfound =>
      obtain ⟨hhome, hf⟩ := hm.closed.findMethod? (Value.inside_ofClass.mp htarget) hfound
      refine Value.inside_bound.mpr ⟨hf, fun o ho => ?_, hhome⟩
      cases ho
  | element helement => exact hm.closed.element (Value.inside_array.mp htarget) helement
  | plain hplain => exact Value.inside_of_refs_eq_nil hplain

/-- What a module exports is what its globals stand for. -/
theorem collectExports {exports : Exports} (hcollect : m.collectExports = .ok exports) :
    ∀ e ∈ exports.entries, e.2.Inside (E.InReach m.heap) := by
  intro e he
  obtain ⟨name, hv⟩ := Eval.global_of_collectExports hcollect he
  exact hm.closed.lookup? hm.globals hv

end Encloses

/-! ## Steps -/

section Steps

variable (hm : E.Encloses m)
include hm

/-- A step that changes nothing. -/
theorem meets_still {α : Type} {rel : Heap → α → α → Prop} {x : Eval α}
    (hx : (∃ a, x m = .ok a m ∧ rel m.heap a a) ∨ ∃ halt, x m = .error halt m) :
    E.kinship.Meets m.heap rel (x m) (x m) := by
  rcases hx with ⟨a, hok, hrel⟩ | ⟨halt, herror⟩
  · rw [hok]
    exact .ok (Heap.within_refl _) ⟨rfl, hm⟩ hrel
  · rw [herror]
    exact .error (Heap.within_refl _) ⟨rfl, hm⟩ rfl

theorem meets_lift {r : Except RuntimeError.Cause Value} (p : Position)
    (hr : ∀ v, r = .ok v → v.Inside (E.InReach m.heap)) :
    E.kinship.Meets m.heap E.kinship.value (Eval.lift p r m) (Eval.lift p r m) := by
  refine meets_still hm ?_
  cases r with
  | error cause => exact .inr ⟨_, rfl⟩
  | ok v => exact .inl ⟨v, rfl, rfl, hr v rfl⟩

/-- An object is made. -/
theorem meets_made {α : Type} {rel : Heap → α → α → Prop} {make : Heap → α × Heap}
    (hgoes : E.Goes m.heap (make m.heap).2)
    (hrel : rel (make m.heap).2 (make m.heap).1 (make m.heap).1) :
    E.kinship.Meets m.heap rel (Eval.alloc make m) (Eval.alloc make m) :=
  .ok hgoes.within ⟨rfl, hm.withHeap hgoes⟩ hrel

/-- An object is changed. -/
theorem meets_update {α : Type} {p : Position} {find : Heap → Except RuntimeError.Cause α}
    {change : α → Heap → Heap}
    (hchange : ∀ place, find m.heap = .ok place → E.Goes m.heap (change place m.heap)) :
    E.kinship.Meets m.heap Kinship.anything (Eval.update p find change m)
      (Eval.update p find change m) := by
  unfold Eval.update
  cases hfind : find m.heap with
  | error cause => exact .error (Heap.within_refl _) ⟨rfl, hm⟩ rfl
  | ok place =>
      have hgoes := hchange place hfind
      exact .ok hgoes.within ⟨rfl, hm.withHeap hgoes⟩ trivial

theorem lookup (name : String) (p : Position) :
    E.kinship.Meets m.heap E.kinship.value (Eval.lookup name p m) (Eval.lookup name p m) := by
  refine meets_still hm ?_
  unfold Eval.lookup
  cases hv : m.heap.lookup? m.environment name with
  | none => exact .inr ⟨_, rfl⟩
  | some v => exact .inl ⟨v, rfl, rfl, hm.closed.lookup? hm.environment hv⟩

theorem receiver (p : Position) :
    E.kinship.Meets m.heap E.kinship.value (Eval.receiver p m) (Eval.receiver p m) := by
  refine meets_still hm ?_
  rw [Eval.receiver_eq]
  cases hreceiver : m.frame?.bind (·.receiver) with
  | none => exact .inr ⟨_, rfl⟩
  | some o =>
      obtain ⟨frame, hframe, ho⟩ := Option.bind_eq_some_iff.mp hreceiver
      exact .inl ⟨_, rfl, rfl, Value.inside_object.mpr ((hm.frame hframe).receiver o ho)⟩

theorem superTarget (p : Position) :
    E.kinship.Meets m.heap (fun _ t t' => t' = t) (Eval.superTarget p m)
      (Eval.superTarget p m) := by
  refine meets_still hm ?_
  rw [Eval.superTarget_eq]
  split
  · exact .inr ⟨_, rfl⟩
  · split
    · exact .inl ⟨_, rfl, rfl⟩
    · exact .inr ⟨_, rfl⟩

theorem superMember (name : String) (p : Position) :
    E.kinship.Meets m.heap E.kinship.value (Eval.superMember name p m)
      (Eval.superMember name p m) := by
  refine meets_still hm ?_
  rcases Eval.superMember_cases p m name with
    herror | ⟨frame, parent, home, f, hframe, hparent, hfound, hok⟩
  · exact .inr herror
  · have hinside := hm.frame hframe
    obtain ⟨hhome, hf⟩ := hm.closed.findMethod? (hm.closed.parent hinside.home hparent) hfound
    exact .inl ⟨_, hok, rfl, Value.inside_bound.mpr ⟨hf, hinside.receiver, hhome⟩⟩

theorem declare {name : String} {v : Value} (constant : Bool) (p : Position)
    (hv : v.Inside (E.InReach m.heap)) :
    E.kinship.Meets m.heap Kinship.anything (Eval.declare name v constant p m)
      (Eval.declare name v constant p m) := by
  rw [Eval.declare_eq]
  refine meets_update hm fun place hplace => ?_
  obtain ⟨rfl, _⟩ := Heap.eq_of_defineTarget hplace
  exact hm.heap.setBinding hm.environment hv

theorem assign {name : String} {v : Value} (p : Position) (hv : v.Inside (E.InReach m.heap)) :
    E.kinship.Meets m.heap Kinship.anything (Eval.assign name v p m) (Eval.assign name v p m) := by
  rw [Eval.assign_eq]
  refine meets_update hm fun place hplace => ?_
  have hbinder := (Heap.binder?_of_assignTarget hplace).1
  exact hm.heap.setBinding (hm.closed.binder? hm.environment hbinder) hv

/-- A member is set at an instance or an array in reach. -/
theorem setMember {target v : Value} (key : Key) (p : Position)
    (htarget : target.Inside (E.InReach m.heap)) (hv : v.Inside (E.InReach m.heap)) :
    E.kinship.Meets m.heap Kinship.anything (Eval.setMember target key v p m)
      (Eval.setMember target key v p m) := by
  unfold Eval.setMember
  split
  · exact .error (Heap.within_refl _) ⟨rfl, hm⟩ rfl
  · refine meets_update hm fun place hplace => ?_
    unfold Machine.memberPlace at hplace
    split at hplace
    · cases hplace
    · cases hplace
    · cases hplace
      exact hm.heap.setField (Value.inside_object.mp htarget) hv
    · split at hplace
      · cases hplace
        exact hm.heap.setElement (Value.inside_array.mp htarget) hv
      · cases hplace
    · cases hplace

/-- A value that cannot be called is refused. -/
theorem refuseCall {v : Value} (run run' : Runner) (hfunction : ∀ f, v ≠ .function f)
    (hbound : ∀ receiver f home, v ≠ .bound receiver f home) (vs vs' : List Value) (p : Position) :
    E.kinship.Meets m.heap E.kinship.value (run.callValue v vs p m) (run'.callValue v vs' p m) := by
  cases v with
  | function f => exact absurd rfl (hfunction f)
  | bound receiver f home => exact absurd rfl (hbound receiver f home)
  | _ => exact .error (Heap.within_refl _) ⟨rfl, hm⟩ rfl

theorem collectExports :
    E.kinship.Meets m.heap E.kinship.exports (Eval.collectExports m) (Eval.collectExports m) := by
  refine meets_still hm ?_
  unfold Eval.collectExports
  cases hcollect : m.collectExports with
  | error cause => exact .inr ⟨_, rfl⟩
  | ok exports =>
      exact .inl ⟨exports, rfl, Dict.like_eq_iff.mpr ⟨rfl, hm.collectExports hcollect⟩⟩

end Steps

/-- **A run that starts in an enclosure stays in it.** -/
def accord (E : Enclosure) : Accord where
  toKinship := E.kinship
  later_refl := Heap.within_refl
  later_trans := Heap.Within.trans
  value_later hw hv := ⟨hv.1, hv.2.mono fun _ => InReach.later hw⟩
  value_shape hv := .inl hv.1
  value_truthy hv := congrArg Value.isTruthy hv.1
  value_literal {_ v _} hv := by
    cases hv
    exact ⟨rfl, Value.inside_of_refs_eq_nil (by cases v <;> rfl)⟩
  value_bool _ _ := ⟨rfl, Value.inside_of_refs_eq_nil rfl⟩
  value_null _ := ⟨rfl, Value.inside_of_refs_eq_nil rfl⟩
  failed hp := by
    cases hp
    rfl
  exhausted := rfl
  importer specifier _ _ he hp := by
    cases he
    cases hp
    rfl
  environment hs := by rw [hs.1]
  frames hs := by rw [hs.1]
  limits hs := by rw [hs.1]
  moduleId hs := by rw [hs.1]
  loader hs := by rw [hs.1]
  isLoading hs _ := by rw [hs.1]
  cached {m m'} hs id := by
    obtain ⟨rfl, hm⟩ := hs
    cases hc : m'.modules.cached? id with
    | none => exact .none
    | some exports => exact .some (Dict.like_eq_iff.mpr ⟨rfl, hm.exports id exports hc⟩)
  function hs _ := by
    rw [hs.1]
    exact ⟨⟨rfl, rfl, Statement.likeAll_refl _ _⟩, rfl⟩
  method hs _ := by
    rw [hs.1]
    exact ⟨rfl, rfl, Statement.likeAll_refl _ _⟩
  closure hs _ := by rw [hs.1]
  constructor? hs _ := by rw [hs.1]
  scope_later := InReach.later
  scope_environment hs := hs.2.environment
  scope_function hs hf := hs.2.closed.functionClosure (Value.inside_function.mp hf.2)
  scope_home hs hcall := hs.2.closed.closure hcall.home
  frame_later hw hf frame hframe := (hf frame hframe).mono fun _ => InReach.later hw
  frame_none _ _ hframe := nomatch hframe
  frame_callable hcall _ hframe := by
    cases hframe
    exact hcall
  callable_bound _ hv := (Value.inside_bound.mp hv.2).2
  callable_new {m m' o c f home} hs ho hclass hfound := by
    have hin := Value.inside_object.mp ho.2
    refine ⟨fun o' ho' => ?_, ?_⟩
    · cases ho'
      exact hin
    · subst hclass
      exact (hs.2.closed.findMethod? (hs.2.closed.classOf hin) (Option.mem_filter_iff.mp hfound).1).1
  callable_super {m m' frame parent f home} hs hframe hparent hfound := by
    have hinside := hs.2.frame hframe
    exact ⟨hinside.receiver, (hs.2.closed.findMethod? (hs.2.closed.parent hinside.home hparent)
      (Option.mem_filter_iff.mp hfound).1).1⟩
  called hs _ := ⟨_, rfl, hs⟩
  lookup name hs hp := by
    cases hp
    rw [hs.1]
    exact lookup hs.2 name _
  receiver hs hp := by
    cases hp
    rw [hs.1]
    exact receiver hs.2 _
  superMember name hs hp := by
    cases hp
    rw [hs.1]
    exact superMember hs.2 name _
  superTarget hs hp := by
    cases hp
    rw [hs.1]
    exact superTarget hs.2 _
  getMember {m m' o o' key key' p q} hs ho hkey hp := by
    cases hp
    rw [hs.1, ho.1, Key.like_same hkey, Eval.getMember_eq]
    exact meets_lift hs.2 p fun _ => hs.2.getMember ho.2
  unary op hs hv hp := by
    cases hp
    rw [hs.1, hv.1]
    exact meets_lift hs.2 _ fun _ hw => Value.inside_of_refs_eq_nil (Eval.refs_unary hw)
  binary op hs hl hr hp := by
    cases hp
    rw [hs.1, hl.1, hr.1]
    exact meets_lift hs.2 _ fun _ hw => Value.inside_of_refs_eq_nil (Eval.refs_binary hw)
  refuseCall run run' hs hv hfunction hbound hp vs vs' := by
    cases hp
    rw [hs.1, hv.1]
    exact refuseCall hs.2 run run' hfunction hbound vs vs' _
  newArray {m m' vs vs'} hs hvs := by
    obtain ⟨rfl, hinside⟩ := Value.forall₂_same_iff.mp hvs
    obtain ⟨hgoes, hnew⟩ := hs.2.heap.newArray vs'.toArray fun v hv =>
      hinside v (by simpa using hv)
    rw [hs.1]
    exact meets_made hs.2 hgoes ⟨rfl, Value.inside_array.mpr hnew⟩
  newInstance {m m' c} hs hc := by
    obtain ⟨hgoes, hnew⟩ := hs.2.heap.newInstance (Value.inside_ofClass.mp hc.2)
    rw [hs.1]
    exact meets_made hs.2 hgoes
      ⟨rfl, ⟨rfl, Value.inside_object.mpr hnew⟩, m.heap.classOf_newInstance c⟩
  newScope {m m' bs bs'} parent hs hparent hbs := by
    obtain ⟨rfl, hinside⟩ := Binding.like_same_iff.mp hbs
    obtain ⟨hgoes, hnew⟩ := hs.2.heap.newScope ⟨bs', some parent⟩ fun r href => by
      rcases href with ⟨p, hp, rfl⟩ | ⟨e, he, hr⟩
      · cases hp
        exact hparent
      · exact hinside e he r hr
    rw [hs.1]
    exact meets_made hs.2 hgoes ⟨rfl, hnew⟩
  newFunction {m m' f f'} closure hs hclosure hf := by
    obtain ⟨name, parameters, body⟩ := f
    obtain ⟨name', parameters', body'⟩ := f'
    obtain ⟨rfl, rfl, hbody⟩ := hf
    cases Statement.eqAll_of_like _ _ hbody
    obtain ⟨hgoes, hnew⟩ :=
      hs.2.heap.newFunction (f := ⟨⟨name', parameters', body⟩, closure⟩) hclosure
    rw [hs.1]
    exact meets_made hs.2 hgoes ⟨rfl, Value.inside_function.mpr hnew⟩
  newClass {m m' ms ms'} name superclass closure hs hclosure hsuper hms := by
    rw [Statement.eqMethods_of_like _ _ hms, hs.1]
    obtain ⟨hgoes, hnew⟩ := hs.2.heap.declareClass name
      (fun p hp => Value.inside_ofClass.mp (hsuper p hp).2) hclosure ms
    exact meets_made hs.2 hgoes ⟨rfl, Value.inside_ofClass.mpr hnew⟩
  declare name constant hs hv hp := by
    cases hp
    rw [hs.1, hv.1]
    exact declare hs.2 constant _ hv.2
  assign name hs hv hp := by
    cases hp
    rw [hs.1, hv.1]
    exact assign hs.2 _ hv.2
  setMember hs ho hkey hv hp := by
    cases hp
    rw [hs.1, ho.1, Key.like_same hkey, hv.1]
    exact setMember hs.2 _ _ ho.2 hv.2
  print hs hv := by
    rw [hs.1, hv.1]
    exact .ok (Heap.within_refl _) ⟨rfl, hs.2.congr rfl rfl rfl rfl fun _ => rfl⟩ trivial
  noteExports names hs := by
    rw [hs.1]
    exact .ok (Heap.within_refl _) ⟨rfl, hs.2.congr rfl rfl rfl rfl fun _ => rfl⟩ trivial
  collectExports hs := by
    rw [hs.1]
    exact collectExports hs.2
  setEnvironment s hs hscope := by
    rw [hs.1]
    exact ⟨rfl, hs.2.inScope hscope⟩
  enterCall hs hframe _ := by
    rw [hs.1]
    exact ⟨rfl, hs.2.enterCall hframe⟩
  leaveCall hs := by
    rw [hs.1]
    exact ⟨rfl, hs.2.leaveCall⟩
  later_start m _ := Heap.within_newScope m.heap _
  enterModule id hs := by
    rw [hs.1]
    exact ⟨rfl, hs.2.startModule id⟩
  leaveModule id hs hw hended := by
    rw [hs.1, hended.1]
    exact ⟨rfl, hs.2.resume id hended.2 hw⟩
  store id hs he := by
    obtain ⟨rfl, hinside⟩ := Dict.like_eq_iff.mp he
    rw [hs.1]
    exact ⟨rfl, hs.2.store id hinside⟩
  evaluated h := h
  executed h := h
  ran h := h

end Enclosure

end Lipi
