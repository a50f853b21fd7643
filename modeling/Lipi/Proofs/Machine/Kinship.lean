import Lipi.Proofs.Dict
import Lipi.Proofs.Machine.Steps
import Lipi.Proofs.Machine.Hooks
import Lipi.Proofs.Program.Likeness

set_option autoImplicit false

/-! # Kinship of two runs

Two programs of the same shape are run side by side, the second one perhaps with hooks, and the runs
are compared **value by value**. A `Kinship` says when two machines, two values and two halts are
akin; which values are akin may depend on the heap, as long as they stay akin in later heaps. An
`Accord` is a kinship that every elementary step of a run keeps.
-/

namespace Lipi

/-! ## Containers of values -/

/-- Two bindings are of the same sort, with related values. -/
structure Binding.Like (r : Value → Value → Prop) (b b' : Binding) : Prop where
  value : r b.value b'.value
  constant : b'.constant = b.constant

/-- Two routines have the same name and parameters, and bodies of the same shape. -/
structure Routine.Like (k : Likeness) (f f' : Routine) : Prop where
  name : f'.name = f.name
  parameters : f'.parameters = f.parameters
  body : List.Forall₂ (Statement.Like k) f.body f'.body

/-- Two keys name a member in the same way, with related values. -/
inductive Key.Like (r : Value → Value → Prop) : Key → Key → Prop where
  | name (name : String) : Key.Like r (.name name) (.name name)
  | computed {v v' : Value} : r v v' → Key.Like r (.computed v) (.computed v')

/-- Two statements end in the same way, with related values. -/
inductive Completion.Like (r : Value → Value → Prop) : Completion → Completion → Prop where
  | normal : Completion.Like r .normal .normal
  | returned {v v' : Value} : r v v' → Completion.Like r (.returned v) (.returned v')

/-- The parameters of two calls have related arguments. -/
theorem Heap.parameterBindings_like {r : Value → Value → Prop} (hnull : r .null .null)
    (parameters : List String) {vs vs' : List Value} (hvs : List.Forall₂ r vs vs')
    {bs bs' : Dict Binding} (hbs : Dict.Like (Binding.Like r) bs bs') :
    Dict.Like (Binding.Like r) (parameterBindings parameters vs bs)
      (parameterBindings parameters vs' bs') := by
  induction parameters generalizing vs vs' bs bs' with
  | nil => cases hvs <;> exact hbs
  | cons p ps ih =>
      cases hvs with
      | nil => exact ih .nil (hbs.insert p ⟨hnull, rfl⟩)
      | cons hv hvs => exact ih hvs (hbs.insert p ⟨hv, rfl⟩)

/-! ### The same values with a property

A property of values is the relation of every value that has it to itself. -/

section Same

variable {p : Value → Prop}

theorem Value.forall₂_same_iff {vs vs' : List Value} :
    List.Forall₂ (fun v v' => v' = v ∧ p v) vs vs' ↔ vs' = vs ∧ ∀ v ∈ vs, p v := by
  induction vs generalizing vs' with
  | nil => simp [List.forall₂_nil_left_iff]
  | cons v vs ih =>
      cases vs' with
      | nil => simp
      | cons v' vs' =>
          simp only [List.forall₂_cons, ih, List.cons.injEq, List.mem_cons, forall_eq_or_imp]
          tauto

theorem Binding.like_same_iff {bs bs' : Dict Binding} :
    Dict.Like (Binding.Like fun v v' => v' = v ∧ p v) bs bs' ↔
      bs' = bs ∧ ∀ entry ∈ bs.entries, p entry.2.value := by
  refine Iff.trans ?_ (Dict.like_eq_iff (p := fun b : Binding => p b.value))
  constructor <;> refine Dict.Like.mono fun b b' hb => ?_
  · obtain ⟨⟨hv, hgood⟩, hconstant⟩ := hb
    refine ⟨?_, hgood⟩
    cases b
    cases b'
    cases hv
    cases hconstant
    rfl
  · obtain ⟨rfl, hgood⟩ := hb
    exact ⟨⟨rfl, hgood⟩, rfl⟩

theorem Key.like_same {key key' : Key} (hkey : Key.Like (fun v v' => v' = v ∧ p v) key key') :
    key' = key := by
  cases hkey with
  | name name => rfl
  | computed hv => rw [hv.1]

end Same

/-! ## Kinship -/

/-- When machines, values and halts of two runs are akin. -/
structure Kinship where
  hooks : Hooks
  likeness : Likeness
  /-- The second heap may be what becomes of the first. -/
  later : Heap → Heap → Prop
  state : Machine → Machine → Prop
  /-- Two values are akin in the heap of the left run. -/
  value : Heap → Value → Value → Prop
  halt : Halt → Halt → Prop
  /-- What is known of a scope in which the left run may go on. -/
  scope : Heap → ScopeRef → Prop
  /-- What is known of an active call. -/
  frame : Heap → Option Frame → Prop
  /-- What is known of a method that is about to be called. -/
  callable : Machine → Option InstanceRef → MethodRef → ClassRef → Prop

namespace Kinship

variable (K : Kinship)

/-- Two results are akin. The left run has come to a later heap, in which what is given is
related. -/
inductive Meets {α β : Type} (h : Heap) (rel : Heap → α → β → Prop) :
    EStateM.Result Halt Machine α → EStateM.Result Halt Machine β → Prop where
  | ok {a : α} {b : β} {m m' : Machine} : K.later h m.heap → K.state m m' → rel m.heap a b →
    Meets h rel (.ok a m) (.ok b m')
  | error {e e' : Halt} {m m' : Machine} : K.later h m.heap → K.state m m' → K.halt e e' →
    Meets h rel (.error e m) (.error e' m')

/-- From akin machines, with a heap later than `h` on the left, two computations lead to akin
results. -/
def Follow {α β : Type} (h : Heap) (rel : Heap → α → β → Prop) (x : Eval α) (y : Eval β) : Prop :=
  ∀ m m', K.later h m.heap → K.state m m' → K.Meets m.heap rel (x m) (y m')

/-- Nothing is asked of what two computations give. -/
def anything {α β : Type} (_ : Heap) (_ : α) (_ : β) : Prop := True

/-- The completions of two statements are akin. -/
def completion (h : Heap) : Completion → Completion → Prop :=
  Completion.Like (K.value h)

/-- Lists of values are akin. -/
def values (h : Heap) : List Value → List Value → Prop :=
  List.Forall₂ (K.value h)

/-- The exports of two modules are akin. -/
def exports (h : Heap) : Exports → Exports → Prop :=
  Dict.Like (K.value h)

end Kinship

/-- A kinship that the elementary steps of a run keep. -/
structure Accord extends Kinship where
  later_refl : ∀ h, later h h
  later_trans : ∀ {h₁ h₂ h₃}, later h₁ h₂ → later h₂ h₃ → later h₁ h₃
  -- values
  value_later : ∀ {h h' v v'}, later h h' → value h v v' → value h' v v'
  value_shape : ∀ {h v v'}, value h v v' → v' = v ∨ ∃ x y, v = .number x ∧ v' = .number y
  value_truthy : ∀ {h v v'}, value h v v' → v'.isTruthy = v.isTruthy
  value_literal : ∀ {h v w}, likeness.literal v w → value h (.ofLiteral v) (.ofLiteral w)
  value_bool : ∀ h b, value h (.bool b) (.bool b)
  value_null : ∀ h, value h .null .null
  -- halts
  failed : ∀ {cause p q}, likeness.position p q →
    halt (.failed ⟨cause, some p⟩) (.failed ⟨cause, some q⟩)
  exhausted : halt .exhausted .exhausted
  importer : ∀ {e e'} (specifier : String) {p q}, halt e e' → likeness.position p q →
    halt (Eval.importerHalt specifier p e) (Eval.importerHalt specifier q e')
  -- what two machines have in common
  environment : ∀ {m m'}, state m m' → m'.environment = m.environment
  frames : ∀ {m m'}, state m m' → m'.frames = m.frames
  limits : ∀ {m m'}, state m m' → m'.limits = m.limits
  moduleId : ∀ {m m'}, state m m' → m'.moduleId = m.moduleId
  loader : ∀ {m m'}, state m m' → m'.modules.loader = m.modules.loader
  isLoading : ∀ {m m'}, state m m' → ∀ id, m'.modules.isLoading id = m.modules.isLoading id
  cached : ∀ {m m'}, state m m' → ∀ id,
    Option.Rel (toKinship.exports m.heap) (m.modules.cached? id) (m'.modules.cached? id)
  function : ∀ {m m'}, state m m' → ∀ f,
    Routine.Like likeness (m.heap.function f).routine (m'.heap.function f).routine ∧
      (m'.heap.function f).closure = (m.heap.function f).closure
  method : ∀ {m m'}, state m m' → ∀ f,
    Routine.Like likeness (m.heap.method f).routine (m'.heap.method f).routine
  closure : ∀ {m m'}, state m m' → ∀ c,
    (m'.heap.classObject c).closure = (m.heap.classObject c).closure
  constructor? : ∀ {m m'}, state m m' → ∀ c,
    m'.heap.findConstructor? c = m.heap.findConstructor? c
  -- scopes
  scope_later : ∀ {h h' s}, later h h' → scope h s → scope h' s
  scope_environment : ∀ {m m'}, state m m' → scope m.heap m.environment
  scope_function : ∀ {m m' f}, state m m' → value m.heap (.function f) (.function f) →
    scope m.heap (m.heap.function f).closure
  scope_home : ∀ {m m' receiver f home}, state m m' → callable m receiver f home →
    scope m.heap (m.heap.classObject home).closure
  -- calls of methods
  frame_later : ∀ {h h' f}, later h h' → frame h f → frame h' f
  frame_none : ∀ h, frame h none
  frame_callable : ∀ {m receiver f home}, callable m receiver f home →
    frame m.heap (some ⟨receiver, home⟩)
  callable_bound : ∀ {m m' receiver f home v'}, state m m' →
    value m.heap (.bound receiver f home) v' → callable m receiver f home
  callable_new : ∀ {m m' o c f home}, state m m' → value m.heap (.object o) (.object o) →
    m.heap.classOf o = c → m.heap.findConstructor? c = some (home, f) →
    callable m (some o) f home
  callable_super : ∀ {m m' frame parent f home}, state m m' → m.frame? = some frame →
    (m.heap.classObject frame.home).superclass = some parent →
    m.heap.findConstructor? parent = some (home, f) → callable m frame.receiver f home
  called : ∀ {m m' receiver f home}, state m m' → callable m receiver f home →
    ∃ m'', hooks.called receiver f home m' = .ok () m'' ∧ state m m''
  -- steps that give a value
  lookup : ∀ {m m' p q} (name : String), state m m' → likeness.position p q →
    toKinship.Meets m.heap value (Eval.lookup name p m) (Eval.lookup name q m')
  receiver : ∀ {m m' p q}, state m m' → likeness.position p q →
    toKinship.Meets m.heap value (Eval.receiver p m) (Eval.receiver q m')
  superMember : ∀ {m m' p q} (name : String), state m m' → likeness.position p q →
    toKinship.Meets m.heap value (Eval.superMember name p m) (Eval.superMember name q m')
  superTarget : ∀ {m m' p q}, state m m' → likeness.position p q →
    toKinship.Meets m.heap (fun _ t t' => t' = t) (Eval.superTarget p m) (Eval.superTarget q m')
  getMember : ∀ {m m' o o' key key' p q}, state m m' → value m.heap o o' →
    Key.Like (value m.heap) key key' → likeness.position p q →
    toKinship.Meets m.heap value (Eval.getMember o key p m) (Eval.getMember o' key' q m')
  unary : ∀ {m m' v v' p q} (op : UnaryOp), state m m' → value m.heap v v' →
    likeness.position p q →
    toKinship.Meets m.heap value (Eval.lift p (op.apply v) m) (Eval.lift q (op.apply v') m')
  binary : ∀ {m m' l l' r r' p q} (op : BinaryOp), state m m' → value m.heap l l' →
    value m.heap r r' → likeness.position p q →
    toKinship.Meets m.heap value (Eval.lift p (op.apply m.heap l r) m)
      (Eval.lift q (op.apply m'.heap l' r') m')
  refuseCall : ∀ {m m' v v' p q} (run run' : Runner), state m m' → value m.heap v v' →
    (∀ f, v ≠ .function f) → (∀ receiver f home, v ≠ .bound receiver f home) →
    likeness.position p q → ∀ vs vs' : List Value,
    toKinship.Meets m.heap value (run.callValue v vs p m) (run'.callValue v' vs' q m')
  -- steps that make objects
  newArray : ∀ {m m' vs vs'}, state m m' → toKinship.values m.heap vs vs' →
    toKinship.Meets m.heap (fun h a a' => value h (.array a) (.array a'))
      (Eval.alloc (·.newArray vs.toArray) m) (Eval.alloc (·.newArray vs'.toArray) m')
  newInstance : ∀ {m m' c}, state m m' → value m.heap (.ofClass c) (.ofClass c) →
    toKinship.Meets m.heap
      (fun h o o' => o' = o ∧ value h (.object o) (.object o) ∧ h.classOf o = c)
      (Eval.alloc (·.newInstance c) m) (Eval.alloc (·.newInstance c) m')
  newScope : ∀ {m m' bs bs'} (parent : ScopeRef), state m m' → scope m.heap parent →
    Dict.Like (Binding.Like (value m.heap)) bs bs' →
    toKinship.Meets m.heap (fun h s s' => s' = s ∧ scope h s)
      (Eval.alloc (·.newScope ⟨bs, some parent⟩) m) (Eval.alloc (·.newScope ⟨bs', some parent⟩) m')
  newFunction : ∀ {m m' f f'} (closure : ScopeRef), state m m' → scope m.heap closure →
    Routine.Like likeness f f' →
    toKinship.Meets m.heap (fun h f f' => value h (.function f) (.function f'))
      (Eval.alloc (·.newFunction ⟨f, closure⟩) m) (Eval.alloc (·.newFunction ⟨f', closure⟩) m')
  newClass : ∀ {m m' ms ms'} (name : String) (superclass : Option ClassRef) (closure : ScopeRef),
    state m m' → scope m.heap closure →
    (∀ c, superclass = some c → value m.heap (.ofClass c) (.ofClass c)) →
    List.Forall₂ (Method.Like likeness) ms ms' →
    toKinship.Meets m.heap (fun h c c' => value h (.ofClass c) (.ofClass c'))
      (Eval.alloc (·.declareClass name superclass ms closure) m)
      (Eval.alloc (·.declareClass name superclass ms' closure) m')
  -- steps that change objects
  declare : ∀ {m m' v v' p q} (name : String) (constant : Bool), state m m' → value m.heap v v' →
    likeness.position p q →
    toKinship.Meets m.heap Kinship.anything (Eval.declare name v constant p m)
      (Eval.declare name v' constant q m')
  assign : ∀ {m m' v v' p q} (name : String), state m m' → value m.heap v v' →
    likeness.position p q →
    toKinship.Meets m.heap Kinship.anything (Eval.assign name v p m) (Eval.assign name v' q m')
  setMember : ∀ {m m' o o' key key' v v' p q}, state m m' → value m.heap o o' →
    Key.Like (value m.heap) key key' → value m.heap v v' → likeness.position p q →
    toKinship.Meets m.heap Kinship.anything (Eval.setMember o key v p m)
      (Eval.setMember o' key' v' q m')
  -- steps that are seen from outside
  print : ∀ {m m' v v'}, state m m' → value m.heap v v' →
    toKinship.Meets m.heap Kinship.anything (Eval.print (m.heap.text v) m)
      (hooks.printed (m'.heap.text v') m')
  noteExports : ∀ {m m'} (names : List String), state m m' →
    toKinship.Meets m.heap Kinship.anything (Runner.noteExports names m)
      (Runner.noteExports names m')
  collectExports : ∀ {m m'}, state m m' →
    toKinship.Meets m.heap toKinship.exports (Eval.collectExports m) (Eval.collectExports m')
  -- going in and coming back
  setEnvironment : ∀ {m m'} (s : ScopeRef), state m m' → scope m.heap s →
    state { m with environment := s } { m' with environment := s }
  enterCall : ∀ {m m' f}, state m m' → frame m.heap f → m.callDepth < m.limits.maxCallDepth →
    state { m with frames := f :: m.frames } { m' with frames := f :: m'.frames }
  leaveCall : ∀ {m m'}, state m m' →
    state { m with frames := m.frames.tail } { m' with frames := m'.frames.tail }
  later_start : ∀ (m : Machine) (id : ModuleId), later m.heap (m.startModule id).heap
  enterModule : ∀ {m m'} (id : ModuleId), state m m' →
    state (m.startModule id) (hooks.enter id m')
  leaveModule : ∀ {m m' ended ended'} (id : ModuleId), state m m' → later m.heap ended.heap →
    state ended ended' → state (m.resume ended id) (hooks.leave id m' ended')
  store : ∀ {m m' exports exports'} (id : ModuleId), state m m' →
    toKinship.exports m.heap exports exports' →
    state { m with modules := m.modules.store id exports }
      { m' with modules := m'.modules.store id exports' }
  -- hooks
  evaluated : ∀ {h x y}, toKinship.Follow h value x y →
    toKinship.Follow h value x (hooks.evaluated y)
  executed : ∀ {h x y}, toKinship.Follow h toKinship.completion x y →
    toKinship.Follow h toKinship.completion x (hooks.executed y)
  ran : ∀ {h x y}, toKinship.Follow h toKinship.exports x y →
    toKinship.Follow h toKinship.exports x (hooks.ran y)

end Lipi
