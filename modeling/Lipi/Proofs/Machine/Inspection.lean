import Lipi.Proofs.Machine.Accord
import Lipi.Proofs.Machine.Lawful

set_option autoImplicit false

/-! # Inspected runs

To say what is the case throughout a run, the run is inspected. An `Inspection` is shown the machine
before and after every expression, every statement and every module, the value of every expression,
and every method that is about to be called. It notes what it likes in a journal and asks something
of what it is shown. **If that is not the case, the run is stopped**, which shows as `exhausted`.

The journal stands in the place of the output and is one for all modules, so it stands in the order
of time; the inspection is shown the machine without it. An inspection is *sound* under some limits
if it asks nothing but what follows from the laws of lawful machines under these limits and from what
it has seen before. A sound inspection stops no run under them (`Inspection.accord`).
-/

namespace Lipi

/-- What an inspection is shown together with the machine. -/
inductive Sight where
  /-- Nothing else. -/
  | state
  /-- The value that an expression has given. -/
  | value (v : Value)
  /-- A method that is about to be called. -/
  | call (receiver : Option InstanceRef) (method : MethodRef) (home : ClassRef)

/-- How a run is inspected. -/
structure Inspection where
  /-- What is noted of what is shown, if anything. -/
  note : Machine → Sight → Option String
  /-- What is asked of what is shown, given the journal up to it. -/
  asks : List String → Machine → Sight → Prop

/-- The machine without its output. -/
def Machine.bare (m : Machine) : Machine := m.withOutput #[]

/-- What is shown is as the laws say. -/
inductive Sight.Lawful (m : Machine) : Sight → Prop where
  | state : Lawful m .state
  | value {v : Value} : v.Good m.heap → Lawful m (.value v)
  | call {receiver : Option InstanceRef} {method : MethodRef} {home : ClassRef} :
    m.Callable receiver method home → Lawful m (.call receiver method home)

namespace Inspection

/-! ## Looking -/

/-- The journal of what has been shown. -/
def journal (i : Inspection) (past : List (Machine × Sight)) : List String :=
  past.filterMap fun shown => i.note shown.1 shown.2

open scoped Classical in
/-- Shows the machine, and stops the run if it is not as the inspection asks. -/
noncomputable def look (i : Inspection) (sight : Sight) : Eval Unit :=
  fun m =>
    if i.asks m.output.toList m.bare sight then
      .ok () (m.withOutput (m.output ++ (i.note m.bare sight).toArray))
    else .error .exhausted m

/-- Shows the machine after a computation, whether it succeeds or not. -/
noncomputable def lookAfter {α : Type} (i : Inspection) (x : Eval α) : Eval α :=
  fun m =>
    match x m with
    | .ok a m => (do i.look .state; return a : Eval α) m
    | .error halt m => (do i.look .state; throw halt : Eval α) m

/-- Shows the machine before and after a computation. -/
noncomputable def around {α : Type} (i : Inspection) (x : Eval α) : Eval α := do
  i.look .state
  i.lookAfter x

/-- The hooks of an inspected run. -/
noncomputable def hooks (i : Inspection) : Hooks where
  evaluated x := do
    let v ← i.around x
    i.look (.value v)
    return v
  executed := i.around
  ran := i.around
  called receiver method home := i.look (.call receiver method home)
  printed _ := pure ()
  enter id m := (m.startModule id).withOutput m.output
  leave id m ended := (m.resume ended id).withOutput ended.output

/-! ## Sound inspections -/

/-- What has been shown before is as the laws say, and the heap was an earlier one. -/
structure Seen (h : Heap) (shown : Machine × Sight) : Prop where
  lawful : shown.1.Lawful
  sight : shown.2.Lawful shown.1
  grows : Heap.Grows shown.1.heap h

/-- What an inspection asks under these limits follows from the laws and from what has been shown
before. -/
def Sound (limits : Limits) (i : Inspection) : Prop :=
  ∀ (past : List (Machine × Sight)) (m : Machine) (sight : Sight), m.output = #[] →
    m.limits = limits → m.Lawful → sight.Lawful m → (∀ shown ∈ past, Seen m.heap shown) →
    i.asks (i.journal past) m sight

/-- The machine of the inspected run is that of the run itself, with the journal as its output. -/
structure Shows (i : Inspection) (limits : Limits) (m m' : Machine) : Prop where
  lawful : m.Lawful
  under : m.limits = limits
  journaled : ∃ past : List (Machine × Sight),
    (∀ shown ∈ past, Seen m.heap shown) ∧ m' = m.withOutput (i.journal past).toArray

/-- Both runs give the same good value. -/
noncomputable def kinship (i : Inspection) (limits : Limits) : Kinship where
  hooks := i.hooks
  likeness := .same
  later := Heap.Grows
  state := i.Shows limits
  value h v v' := v' = v ∧ v.Good h
  halt := Eq
  scope _ _ := True
  frame h f := ∀ frame, f = some frame → frame.Good h
  callable := Machine.Callable

variable {i : Inspection} {limits : Limits} {m m' : Machine}

theorem Seen.later {h h' : Heap} {shown : Machine × Sight} (hshown : Seen h shown)
    (g : Heap.Grows h h') : Seen h' shown :=
  ⟨hshown.lawful, hshown.sight, hshown.grows.trans g⟩

theorem Shows.same (hs : i.Shows limits m m') : ∃ output, m' = m.withOutput output := by
  obtain ⟨past, _, hsame⟩ := hs.journaled
  exact ⟨_, hsame⟩

/-- The run goes on to a machine with a later heap. -/
theorem Shows.step {next next' : Machine} (hs : i.Shows limits m m') (hlawful : next.Lawful)
    (hunder : next.limits = limits) (g : Heap.Grows m.heap next.heap)
    (hnext : ∀ output, m' = m.withOutput output → next' = next.withOutput output) :
    i.Shows limits next next' := by
  obtain ⟨past, hpast, hsame⟩ := hs.journaled
  exact ⟨hlawful, hunder, past, fun shown hshown => (hpast shown hshown).later g, hnext _ hsame⟩

/-- A sound inspection goes on when it is shown something. -/
theorem look_ok (hi : i.Sound limits) {sight : Sight} (hs : i.Shows limits m m') (hsight : sight.Lawful m) :
    ∃ m'', i.look sight m' = .ok () m'' ∧ i.Shows limits m m'' := by
  obtain ⟨hlawful, hunder, past, hpast, rfl⟩ := hs
  have hbare : m.bare.Lawful := hlawful.congr rfl rfl rfl fun _ => rfl
  have hsight : sight.Lawful m.bare := by
    cases hsight with
    | state => exact .state
    | value hv => exact .value hv
    | call hcall =>
        refine .call ?_
        cases hcall with
        | homed hf => exact .homed hf
        | super hframe hparent hfound => exact .super hframe hparent hfound
  have hasks := hi past m.bare sight rfl hunder hbare hsight hpast
  refine ⟨_, if_pos hasks, hlawful, hunder, past ++ [(m.bare, sight)], fun shown hshown => ?_, ?_⟩
  · rcases List.mem_append.mp hshown with hmem | hmem
    · exact hpast shown hmem
    · rw [List.mem_singleton.mp hmem]
      exact ⟨hbare, hsight, Heap.grows_refl _⟩
  · show m.withOutput ((i.journal past).toArray ++ (i.note m.bare sight).toArray) = _
    congr 1
    unfold journal
    rw [List.filterMap_append]
    cases hnote : i.note m.bare sight with
    | none => simp [hnote]
    | some text => simp [hnote]

section Around

variable {α : Type} {h : Heap} {rel : Heap → α → α → Prop} {x y : Eval α}

/-- Looking before and after a computation changes nothing but the journal. -/
theorem follow_around (hi : i.Sound limits) (hxy : (i.kinship limits).Follow h rel x y) :
    (i.kinship limits).Follow h rel x (i.around y) := by
  intro m m' hl hs
  obtain ⟨m₁, hbefore, hs₁⟩ := look_ok hi hs .state
  unfold around
  rw [Eval.bind_ok _ hbefore]
  have hrun := hxy m m₁ hl hs₁
  unfold lookAfter
  generalize x m = r at hrun
  generalize y m₁ = r' at hrun
  cases hrun with
  | ok hl₂ hs₂ hab =>
      obtain ⟨m₃, hafter, hs₃⟩ := look_ok hi hs₂ .state
      dsimp only
      rw [Eval.bind_ok _ hafter]
      exact .ok hl₂ hs₃ hab
  | error hl₂ hs₂ he =>
      obtain ⟨m₃, hafter, hs₃⟩ := look_ok hi hs₂ .state
      dsimp only
      rw [Eval.bind_ok _ hafter]
      exact .error hl₂ hs₃ he

end Around

/-- Looking at the value of an expression changes nothing but the journal. -/
theorem follow_evaluated (hi : i.Sound limits) {h : Heap} {x y : Eval Value}
    (hxy : (i.kinship limits).Follow h (i.kinship limits).value x y) :
    (i.kinship limits).Follow h (i.kinship limits).value x (i.hooks.evaluated y) := by
  intro m m' hl hs
  have hrun := follow_around hi hxy m m' hl hs
  show (i.kinship limits).Meets m.heap (i.kinship limits).value (x m)
    ((i.around y >>= fun v => i.look (.value v) >>= fun _ => pure v) m')
  generalize x m = r at hrun
  generalize hr' : i.around y m' = r' at hrun
  cases hrun with
  | ok hl₂ hs₂ hv =>
      rw [Eval.bind_ok _ hr']
      obtain ⟨rfl, hgood⟩ := hv
      obtain ⟨m₃, hafter, hs₃⟩ := look_ok hi hs₂ (.value hgood)
      rw [Eval.bind_ok _ hafter]
      exact .ok hl₂ hs₃ ⟨rfl, hgood⟩
  | error hl₂ hs₂ he =>
      rw [Eval.bind_error _ hr']
      exact .error hl₂ hs₂ he

/-! ## Elementary steps -/

/-- A safe step that does not look at the output does the same in both runs. -/
theorem meets_of_safe {α : Type} {good : Heap → α → Prop} {rel : Heap → α → α → Prop} {x : Eval α}
    (hs : i.Shows limits m m') (hsafe : Eval.Safe good m x)
    (haside : ∀ output, x.Oblivious (·.withOutput output))
    (hrel : ∀ h a, good h a → rel h a a) : (i.kinship limits).Meets m.heap rel (x m) (x m') := by
  obtain ⟨hlawful, hunder, past, hpast, rfl⟩ := hs
  have hrun := hsafe hlawful
  rw [haside _ m]
  generalize x m = r at hrun
  cases r with
  | ok a m₁ =>
      obtain ⟨hlawful₁, g, hlimits, hgood⟩ := hrun
      exact .ok g ⟨hlawful₁, hlimits.trans hunder, past, fun shown hshown => (hpast shown hshown).later g, rfl⟩
        (hrel _ a hgood)
  | error halt m₁ =>
      obtain ⟨hlawful₁, g, hlimits⟩ := hrun
      exact .error g ⟨hlawful₁, hlimits.trans hunder, past, fun shown hshown => (hpast shown hshown).later g, rfl⟩ rfl

/-- An object is made in both runs. -/
theorem meets_made {α : Type} {rel : Heap → α → α → Prop} {make : Heap → α × Heap}
    (hs : i.Shows limits m m') (hlawful : (make m.heap).2.Lawful)
    (g : Heap.Grows m.heap (make m.heap).2)
    (hrel : rel (make m.heap).2 (make m.heap).1 (make m.heap).1) :
    (i.kinship limits).Meets m.heap rel (Eval.alloc make m) (Eval.alloc make m') := by
  obtain ⟨_, rfl⟩ := hs.same
  refine .ok g (hs.step (hs.lawful.withHeap hlawful g) hs.under g fun _ hsame => ?_) hrel
  have houtput := congrArg Machine.output hsame
  cases houtput
  rfl

theorem meets_value {x : Eval Value} (hs : i.Shows limits m m') (hsafe : Eval.Safe Eval.goodValue m x)
    (haside : ∀ output, x.Oblivious (·.withOutput output)) :
    (i.kinship limits).Meets m.heap (i.kinship limits).value (x m) (x m') :=
  meets_of_safe hs hsafe haside fun _ _ hv => ⟨rfl, hv⟩

theorem meets_change {x : Eval Unit} (hs : i.Shows limits m m')
    (hsafe : Eval.Safe (fun _ _ => True) m x)
    (haside : ∀ output, x.Oblivious (·.withOutput output)) :
    (i.kinship limits).Meets m.heap Kinship.anything (x m) (x m') :=
  meets_of_safe hs hsafe haside fun _ _ _ => trivial

/-- Two lists of values are the same list of good values. -/
theorem values_iff {h : Heap} {vs vs' : List Value} :
    (i.kinship limits).values h vs vs' ↔ vs' = vs ∧ ∀ v ∈ vs, v.Good h :=
  Value.forall₂_same_iff

theorem likeExports_iff {h : Heap} {e e' : Exports} :
    (i.kinship limits).exports h e e' ↔ e' = e ∧ ∀ entry ∈ e.entries, entry.2.Good h :=
  Dict.like_eq_iff

/-- A value that cannot be called is refused in both runs. -/
theorem refuseCall (hs : i.Shows limits m m') {v : Value} (run run' : Runner)
    (hfunction : ∀ f, v ≠ .function f) (hbound : ∀ receiver f home, v ≠ .bound receiver f home)
    (vs vs' : List Value) (p : Position) :
    (i.kinship limits).Meets m.heap (i.kinship limits).value (run.callValue v vs p m) (run'.callValue v vs' p m') := by
  obtain ⟨output, rfl⟩ := hs.same
  cases v with
  | function f => exact absurd rfl (hfunction f)
  | bound receiver f home => exact absurd rfl (hbound receiver f home)
  | _ => exact .error (Heap.grows_refl _) hs rfl

/-- **A sound inspection stops no run**: an inspected run comes to the same values and the same
machines as the run itself, apart from the output. -/
noncomputable def accord (hi : i.Sound limits) : Accord where
  toKinship := i.kinship limits
  later_refl := Heap.grows_refl
  later_trans := Heap.Grows.trans
  value_later g hv := ⟨hv.1, g.good hv.2⟩
  value_shape hv := .inl hv.1
  value_truthy hv := congrArg Value.isTruthy hv.1
  value_literal {_ v _} hv := by
    cases hv
    refine ⟨rfl, ?_⟩
    cases v <;> trivial
  value_bool _ _ := ⟨rfl, trivial⟩
  value_null _ := ⟨rfl, trivial⟩
  failed hp := by
    cases hp
    rfl
  exhausted := rfl
  importer specifier _ _ he hp := by
    cases he
    cases hp
    rfl
  environment hs := by
    obtain ⟨_, rfl⟩ := hs.same
    rfl
  frames hs := by
    obtain ⟨_, rfl⟩ := hs.same
    rfl
  limits hs := by
    obtain ⟨_, rfl⟩ := hs.same
    rfl
  moduleId hs := by
    obtain ⟨_, rfl⟩ := hs.same
    rfl
  loader hs := by
    obtain ⟨_, rfl⟩ := hs.same
    rfl
  isLoading hs _ := by
    obtain ⟨_, rfl⟩ := hs.same
    rfl
  cached {m m'} hs id := by
    obtain ⟨_, rfl⟩ := hs.same
    show Option.Rel _ (m.modules.cached? id) (m.modules.cached? id)
    cases hc : m.modules.cached? id with
    | none => exact .none
    | some e =>
        exact .some (likeExports_iff.mpr ⟨rfl, fun _ he => hs.lawful.values _ (.exported hc he)⟩)
  function hs f := by
    obtain ⟨_, rfl⟩ := hs.same
    exact ⟨⟨rfl, rfl, Statement.likeAll_refl _ _⟩, rfl⟩
  method hs f := by
    obtain ⟨_, rfl⟩ := hs.same
    exact ⟨rfl, rfl, Statement.likeAll_refl _ _⟩
  closure hs _ := by
    obtain ⟨_, rfl⟩ := hs.same
    rfl
  constructor? hs _ := by
    obtain ⟨_, rfl⟩ := hs.same
    rfl
  scope_later _ _ := trivial
  scope_environment _ := trivial
  scope_function _ _ := trivial
  scope_home _ _ := trivial
  frame_later g hf frame hframe := g.frame (hf frame hframe)
  frame_none _ _ hframe := nomatch hframe
  frame_callable hcall frame hframe := by
    cases hframe
    exact hcall.frame
  callable_bound _ hv := .homed hv.2
  callable_new {m m' o c f home} hs ho hclass hfound := by
    have hnearest := (hs.lawful.heap.ancestral.findMethod?_iff _ _ _ _ _).mp
      (Option.mem_filter_iff.mp hfound).1
    rw [← hclass] at hnearest
    exact .homed (.ofInstance ho.2 hnearest.lineage hnearest.declares)
  callable_super {m m' frame parent f home} hs hframe hparent hfound := by
    obtain ⟨receiver, caller⟩ := frame
    cases receiver with
    | none => exact .super hframe hparent hfound
    | some o =>
        have hnearest := (hs.lawful.heap.ancestral.findMethod?_iff _ _ _ _ _).mp
          (Option.mem_filter_iff.mp hfound).1
        obtain ⟨hvalid, hline⟩ := hs.lawful.frame hframe o rfl
        exact .homed (.ofInstance hvalid (hline.trans (.head hparent hnearest.lineage))
          hnearest.declares)
  called hs hcall := look_ok hi hs (.call hcall)
  lookup {m m' p q} name hs hp := by
    cases hp
    exact meets_value hs (Eval.safe_lookup name p)
      fun _ => Eval.oblivious_lookup p (Machine.aside_withOutput _) name
  receiver {m m' p q} hs hp := by
    cases hp
    exact meets_value hs (Eval.safe_receiver p)
      fun _ => Eval.oblivious_receiver p (Machine.aside_withOutput _)
  superMember {m m' p q} name hs hp := by
    cases hp
    exact meets_value hs (Eval.safe_superMember name p)
      fun _ => Eval.oblivious_superMember p (Machine.aside_withOutput _) name
  superTarget {m m' p q} hs hp := by
    cases hp
    exact meets_of_safe hs (Eval.safe_superTarget p)
      (fun _ => Eval.oblivious_superTarget p (Machine.aside_withOutput _)) fun _ _ _ => rfl
  getMember {m m' o o' key key' p q} hs ho hkey hp := by
    cases hp
    obtain ⟨rfl, hgood⟩ := ho
    rw [Key.like_same hkey]
    exact meets_value hs (Eval.safe_getMember key p hgood)
      fun _ => Eval.oblivious_getMember (Machine.aside_withOutput _) o' key p
  unary {m m' v v' p q} op hs hv hp := by
    cases hp
    obtain ⟨rfl, _⟩ := hv
    exact meets_value hs (Eval.safe_lift fun _ hw => Eval.good_of_refs_eq_nil (Eval.refs_unary hw))
      fun _ => Eval.oblivious_lift p _
  binary {m m' l l' r r' p q} op hs hl hr hp := by
    cases hp
    obtain ⟨rfl, _⟩ := hl
    obtain ⟨rfl, _⟩ := hr
    obtain ⟨_, rfl⟩ := hs.same
    exact meets_value hs (Eval.safe_lift fun _ hw => Eval.good_of_refs_eq_nil (Eval.refs_binary hw))
      fun _ => Eval.oblivious_lift p _
  refuseCall {m m' v v' p q} run run' hs hv hfunction hbound hp vs vs' := by
    cases hp
    obtain ⟨rfl, _⟩ := hv
    exact refuseCall hs run run' hfunction hbound vs vs' p
  newArray {m m' vs vs'} hs hvs := by
    obtain ⟨rfl, hgood⟩ := values_iff.mp hvs
    have hmake := Heap.newArray_lawful hs.lawful.heap vs'.toArray (by simpa using hgood)
    exact meets_made hs hmake.1 hmake.2 ⟨rfl, trivial⟩
  newInstance {m m' c} hs _ := by
    have hmake := Heap.newInstance_lawful hs.lawful.heap c
    refine meets_made hs hmake.1 hmake.2 ⟨rfl, ⟨rfl, ?_⟩, m.heap.classOf_newInstance c⟩
    show m.heap.instances.size < (m.heap.instances.push _).size
    rw [Array.size_push]
    exact Nat.lt_succ_self _
  newScope {m m' bs bs'} parent hs _ hbs := by
    obtain ⟨rfl, hgood⟩ := Binding.like_same_iff.mp hbs
    have hmake := Heap.newScope_lawful hs.lawful.heap bs' hgood (some parent)
    exact meets_made hs hmake.1 hmake.2 ⟨rfl, trivial⟩
  newFunction {m m' f f'} closure hs _ hf := by
    obtain ⟨name, parameters, body⟩ := f
    obtain ⟨name', parameters', body'⟩ := f'
    obtain ⟨rfl, rfl, hbody⟩ := hf
    cases Statement.eqAll_of_like _ _ hbody
    have hmake := Heap.newFunction_lawful hs.lawful.heap ⟨⟨name', parameters', body⟩, closure⟩
    exact meets_made hs hmake.1 hmake.2 ⟨rfl, trivial⟩
  newClass {m m' ms ms'} name superclass closure hs _ hsuper hms := by
    rw [Statement.eqMethods_of_like _ _ hms]
    obtain ⟨hlawful, g, hvalid⟩ := Heap.declareClass_lawful hs.lawful.heap name
      (fun p hp => (hsuper p hp).2) ms closure
    exact meets_made hs hlawful g ⟨rfl, hvalid⟩
  declare {m m' v v' p q} name constant hs hv hp := by
    cases hp
    obtain ⟨rfl, hgood⟩ := hv
    exact meets_change hs (Eval.safe_declare name constant p hgood)
      fun _ => Eval.oblivious_declare (Machine.aside_withOutput _) name v' constant p
  assign {m m' v v' p q} name hs hv hp := by
    cases hp
    obtain ⟨rfl, hgood⟩ := hv
    exact meets_change hs (Eval.safe_assign name p hgood)
      fun _ => Eval.oblivious_assign (Machine.aside_withOutput _) name v' p
  setMember {m m' o o' key key' v v' p q} hs ho hkey hv hp := by
    cases hp
    obtain ⟨rfl, _⟩ := ho
    obtain ⟨rfl, hgood⟩ := hv
    rw [Key.like_same hkey]
    exact meets_change hs (Eval.safe_setMember o' key p hgood)
      fun _ => Eval.oblivious_setMember (Machine.aside_withOutput _) o' key v' p
  print {m m' v v'} hs hv := by
    obtain ⟨rfl, _⟩ := hv
    refine .ok (Heap.grows_refl _) (hs.step ?_ hs.under (Heap.grows_refl _) fun _ hsame => ?_) trivial
    · exact hs.lawful.congr rfl rfl rfl fun _ => rfl
    · rw [hsame]
      rfl
  noteExports names hs := by
    refine .ok (Heap.grows_refl _) (hs.step ?_ hs.under (Heap.grows_refl _) fun _ hsame => ?_) trivial
    · exact hs.lawful.congr rfl rfl rfl fun _ => rfl
    · rw [hsame]
      rfl
  collectExports hs :=
    meets_of_safe hs Eval.safe_collectExports
      (fun _ => Eval.oblivious_collectExports (Machine.aside_withOutput _))
      fun _ _ hgood => likeExports_iff.mpr ⟨rfl, hgood⟩
  setEnvironment s hs _ := by
    refine hs.step ?_ hs.under (Heap.grows_refl _) fun _ hsame => ?_
    · exact hs.lawful.congr rfl rfl rfl fun _ => rfl
    · rw [hsame]
      rfl
  enterCall hs hframe hroom :=
    hs.step (hs.lawful.enterCall hframe hroom) hs.under (Heap.grows_refl _) fun _ hsame => by
      rw [hsame]
      rfl
  leaveCall hs :=
    hs.step hs.lawful.leaveCall hs.under (Heap.grows_refl _) fun _ hsame => by
      rw [hsame]
      rfl
  later_start m _ := Heap.grows_newScope m.heap _
  enterModule id hs := by
    obtain ⟨hlawful, g⟩ := hs.lawful.startModule id
    refine hs.step hlawful hs.under g fun _ hsame => ?_
    rw [hsame]
    rfl
  leaveModule {m m' ended ended'} id hs hl hended := by
    obtain ⟨_, rfl⟩ := hs.same
    refine hended.step (hs.lawful.resume id hended.lawful hl) hs.under (Heap.grows_refl _)
      fun _ hsame => ?_
    rw [hsame]
    rfl
  store {m m' exports exports'} id hs he := by
    obtain ⟨rfl, hgood⟩ := likeExports_iff.mp he
    refine hs.step (hs.lawful.store id hgood) hs.under (Heap.grows_refl _) fun _ hsame => ?_
    rw [hsame]
    rfl
  evaluated := follow_evaluated hi
  executed := follow_around hi
  ran := follow_around hi

end Inspection

end Lipi
