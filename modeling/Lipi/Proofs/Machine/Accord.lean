import Lipi.Proofs.Machine.Kinship

set_option autoImplicit false

/-! # Two runs in step

If a kinship is kept by every elementary step of a run, then every construct keeps it, and so do
whole runs (`Accord.within`).

With the same program on both sides this is how an invariant of the values of a run is proved: the
left run is the run itself, and what is akin is what satisfies the invariant.
-/

namespace Lipi

namespace Accord

variable (A : Accord)

/-! ## Sequences -/

section Sequences

variable {A}
variable {α β γ δ : Type} {h : Heap} {rel : Heap → α → β → Prop} {rel' : Heap → γ → δ → Prop}

theorem meets_mono {h' : Heap} {r : EStateM.Result Halt Machine α}
    {r' : EStateM.Result Halt Machine β} (hl : A.later h h') (hr : A.Meets h' rel r r') :
    A.Meets h rel r r' := by
  cases hr with
  | ok hl' hs ha => exact .ok (A.later_trans hl hl') hs ha
  | error hl' hs he => exact .error (A.later_trans hl hl') hs he

theorem follow_pure {a : α} {b : β} (hab : ∀ h', A.later h h' → rel h' a b) :
    A.Follow h rel (pure a) (pure b) :=
  fun m _ hl hs => .ok (A.later_refl m.heap) hs (hab m.heap hl)

theorem follow_fail {cause : RuntimeError.Cause} {p q : Position} (hp : A.likeness.position p q) :
    A.Follow h rel (Eval.fail cause p : Eval α) (Eval.fail cause q : Eval β) :=
  fun m _ _ hs => .error (A.later_refl m.heap) hs (A.failed hp)

/-- Two sequences from akin machines are akin if their first parts are, and what comes after them
is. -/
theorem meets_bind {x : Eval α} {y : Eval β} {f : α → Eval γ} {g : β → Eval δ} {m m' : Machine}
    (hx : A.Meets m.heap rel (x m) (y m'))
    (hf : ∀ a b m₁ m₁', x m = .ok a m₁ → A.later m.heap m₁.heap → A.state m₁ m₁' →
      rel m₁.heap a b → A.Meets m₁.heap rel' (f a m₁) (g b m₁')) :
    A.Meets m.heap rel' ((x >>= f) m) ((y >>= g) m') := by
  generalize hxm : x m = r at hx
  generalize hym : y m' = r' at hx
  cases hx with
  | ok hl hs hab =>
      rw [Eval.bind_ok f hxm, Eval.bind_ok g hym]
      exact meets_mono hl (hf _ _ _ _ hxm hl hs hab)
  | error hl hs he =>
      rw [Eval.bind_error f hxm, Eval.bind_error g hym]
      exact .error hl hs he

theorem follow_bind {x : Eval α} {y : Eval β} {f : α → Eval γ} {g : β → Eval δ}
    (hx : A.Follow h rel x y)
    (hf : ∀ h', A.later h h' → ∀ a b, rel h' a b → A.Follow h' rel' (f a) (g b)) :
    A.Follow h rel' (x >>= f) (y >>= g) :=
  fun m m' hl hs => meets_bind (hx m m' hl hs) fun a b m₁ m₁' _ hl₁ hs₁ hab =>
    hf m₁.heap (A.later_trans hl hl₁) a b hab m₁ m₁' (A.later_refl _) hs₁

theorem values_later {h' : Heap} {vs vs' : List Value} (hl : A.later h h')
    (hvs : A.values h vs vs') : A.values h' vs vs' :=
  List.Forall₂.imp (fun _ _ => A.value_later hl) hvs

theorem completion_later {h' : Heap} {c c' : Completion} (hl : A.later h h')
    (hc : A.completion h c c') : A.completion h' c c' := by
  cases hc with
  | normal => exact .normal
  | returned hv => exact .returned (A.value_later hl hv)

theorem exports_later {h' : Heap} {e e' : Exports} (hl : A.later h h') (he : A.exports h e e') :
    A.exports h' e e' :=
  Dict.Like.mono (fun _ _ => A.value_later hl) he

theorem follow_value {v v' : Value} (hv : A.value h v v') : A.Follow h A.value (pure v) (pure v') :=
  follow_pure fun _ hl => A.value_later hl hv

theorem follow_completion {c c' : Completion} (hc : A.completion h c c') :
    A.Follow h A.completion (pure c) (pure c') :=
  follow_pure fun _ hl => completion_later hl hc

theorem follow_normal : A.Follow h A.completion (pure .normal) (pure .normal) :=
  follow_completion .normal

theorem frame? {m m' : Machine} (hs : A.state m m') : m'.frame? = m.frame? := by
  unfold Machine.frame?
  rw [A.frames hs]

theorem callDepth {m m' : Machine} (hs : A.state m m') : m'.callDepth = m.callDepth := by
  unfold Machine.callDepth
  rw [A.frames hs]

end Sequences

/-! ## Classes and the superclass -/

section Steps

variable {h : Heap} {p q : Position}

theorem classNamed (name : String) (hp : A.likeness.position p q) :
    A.Follow h (fun h c c' => c' = c ∧ A.value h (.ofClass c) (.ofClass c))
      (Eval.classNamed name p) (Eval.classNamed name q) := by
  refine follow_bind (fun m m' _ hs => A.lookup name hs hp) fun h' _ v v' hv => ?_
  rcases A.value_shape hv with rfl | ⟨x, y, rfl, rfl⟩
  · cases v' with
    | ofClass c => exact follow_pure fun _ hl => ⟨rfl, A.value_later hl hv⟩
    | _ => exact follow_fail hp
  · exact follow_fail hp

theorem superclassNamed (name : Option String) (hp : A.likeness.position p q) :
    A.Follow h (fun h s s' => s' = s ∧ ∀ c, s = some c → A.value h (.ofClass c) (.ofClass c))
      (Eval.superclassNamed name p) (Eval.superclassNamed name q) := by
  cases name with
  | none => exact follow_pure fun _ _ => ⟨rfl, fun c hc => nomatch hc⟩
  | some name =>
      show A.Follow h _ (some <$> Eval.classNamed name p) (some <$> Eval.classNamed name q)
      rw [map_eq_pure_bind, map_eq_pure_bind]
      refine follow_bind (A.classNamed name hp) fun h' _ c c' hc => ?_
      obtain ⟨rfl, hv⟩ := hc
      refine follow_pure fun h'' hl => ⟨rfl, fun c hc => ?_⟩
      cases hc
      exact A.value_later hl hv

theorem declareClass (name : String) (superclass : Option String) {ms ms' : List Method}
    (hms : List.Forall₂ (Method.Like A.likeness) ms ms') (hp : A.likeness.position p q) :
    A.Follow h Kinship.anything (Eval.declareClass name superclass ms p)
      (Eval.declareClass name superclass ms' q) := by
  refine follow_bind (A.superclassNamed superclass hp) fun h₁ _ s s' hsuper m m' hl hs => ?_
  obtain ⟨rfl, hvalid⟩ := hsuper
  show A.Meets m.heap _
    ((Eval.alloc (·.declareClass name s' ms m.environment) >>=
      fun c => Eval.declare name (.ofClass c) true p) m)
    ((Eval.alloc (·.declareClass name s' ms' m'.environment) >>=
      fun c => Eval.declare name (.ofClass c) true q) m')
  rw [A.environment hs]
  exact meets_bind (A.newClass name s' m.environment hs (A.scope_environment hs)
    (fun c hc => A.value_later hl (hvalid c hc)) hms)
    fun _ _ _ _ _ _ hs₂ hc => A.declare name true hs₂ hc hp

theorem bindImports (specifier : String) {e e' : Exports} (he : A.exports h e e')
    (hp : A.likeness.position p q) (names : List String) :
    A.Follow h Kinship.anything (Eval.bindImports specifier e p names)
      (Eval.bindImports specifier e' q names) := by
  induction names generalizing h with
  | nil => exact follow_pure fun _ _ => trivial
  | cons name names ih =>
      rw [Eval.bindImports, Eval.bindImports]
      have hget := Dict.Like.get? he name
      cases hv : e.get? name with
      | none =>
          rw [hv] at hget
          cases hget' : e'.get? name with
          | none => exact follow_fail hp
          | some v' =>
              rw [hget'] at hget
              cases hget
      | some v =>
          rw [hv] at hget
          cases hget' : e'.get? name with
          | none =>
              rw [hget'] at hget
              cases hget
          | some v' =>
              rw [hget'] at hget
              cases hget with
              | some hvv' =>
                  refine follow_bind (fun m m' hl hs =>
                    A.declare name true hs (A.value_later hl hvv') hp) fun h' hl _ _ _ => ?_
                  exact ih (exports_later hl he)

end Steps

/-! ## Two runners -/

/-- Two runners are in accord on trees of the same shape. -/
structure Runners (run run' : Runner) : Prop where
  evaluate : ∀ {e e' : Expr} (h : Heap), e.Like A.likeness e' →
    A.Follow h A.value (run.evaluate e) (run'.evaluate e')
  execute : ∀ {s s' : Statement} (h : Heap), s.Like A.likeness s' →
    A.Follow h A.completion (run.execute s) (run'.execute s')

namespace Runners

variable {A}
variable {run run' : Runner} (R : A.Runners run run') {h : Heap}
include R

theorem evaluateAll {es es' : List Expr} (hes : List.Forall₂ (Expr.Like A.likeness) es es') :
    A.Follow h A.values (run.evaluateAll es) (run'.evaluateAll es') := by
  induction hes generalizing h with
  | nil => exact follow_pure fun _ _ => .nil
  | cons he hes ih =>
      refine follow_bind (R.evaluate h he) fun h₁ _ v v' hv => ?_
      refine follow_bind ih fun h₂ hl vs vs' hvs => ?_
      exact follow_pure fun _ hl' =>
        .cons (A.value_later (A.later_trans hl hl') hv) (values_later hl' hvs)

theorem executeAll {ss ss' : List Statement}
    (hss : List.Forall₂ (Statement.Like A.likeness) ss ss') :
    A.Follow h A.completion (run.executeAll ss) (run'.executeAll ss') := by
  induction hss generalizing h with
  | nil => exact follow_normal
  | cons hs hss ih =>
      refine follow_bind (R.execute h hs) fun h₁ _ c c' hc => ?_
      cases hc with
      | normal => exact ih
      | returned hv => exact follow_completion (.returned hv)

theorem executeProgram {ss ss' : List Statement}
    (hss : List.Forall₂ (Statement.Like A.likeness) ss ss') :
    A.Follow h Kinship.anything (run.executeProgram ss) (run'.executeProgram ss') := by
  induction hss generalizing h with
  | nil => exact follow_pure fun _ _ => trivial
  | cons hs hss ih => exact follow_bind (R.execute h hs) fun _ _ _ _ _ => ih

theorem executeBlock {ss ss' : List Statement}
    (hss : List.Forall₂ (Statement.Like A.likeness) ss ss') {scope : ScopeRef}
    (hscope : A.scope h scope) :
    A.Follow h A.completion (run.executeBlock ss scope) (run'.executeBlock ss' scope) := by
  intro m m' hl hs
  have hall := R.executeAll (h := h) hss { m with environment := scope }
    { m' with environment := scope } hl (A.setEnvironment scope hs (A.scope_later hl hscope))
  have hback := A.scope_environment hs
  unfold Runner.executeBlock Eval.inScope
  rw [A.environment hs]
  generalize run.executeAll ss { m with environment := scope } = r at hall
  generalize run'.executeAll ss' { m' with environment := scope } = r' at hall
  cases hall with
  | ok hl' hs' hc =>
      exact .ok hl' (A.setEnvironment m.environment hs' (A.scope_later hl' hback)) hc
  | error hl' hs' he =>
      exact .error hl' (A.setEnvironment m.environment hs' (A.scope_later hl' hback)) he

/-! ### Calls -/

omit R in
/-- The body of a routine runs in an active call. -/
theorem inCall {x y : Eval Completion} {m m' : Machine} {frame : Option Frame}
    (hxy : A.Follow h A.completion x y) (hl : A.later h m.heap) (hs : A.state m m')
    (hframe : A.frame m.heap frame) (hroom : m.callDepth < m.limits.maxCallDepth) :
    A.Meets m.heap A.completion (Eval.inCall frame x m) (Eval.inCall frame y m') := by
  have hbody := hxy { m with frames := frame :: m.frames } { m' with frames := frame :: m'.frames }
    hl (A.enterCall hs hframe hroom)
  unfold Eval.inCall
  generalize x { m with frames := frame :: m.frames } = r at hbody
  generalize y { m' with frames := frame :: m'.frames } = r' at hbody
  cases hbody with
  | ok hl' hs' hc => exact .ok hl' (A.leaveCall hs') hc
  | error hl' hs' he => exact .error hl' (A.leaveCall hs') he

theorem activate {f f' : Routine} (hf : f.Like A.likeness f') {closure : ScopeRef}
    {vs vs' : List Value} {m m' : Machine} {frame : Option Frame} (hs : A.state m m')
    (hclosure : A.scope m.heap closure) (hvs : A.values m.heap vs vs')
    (hframe : A.frame m.heap frame) (hroom : m.callDepth < m.limits.maxCallDepth) :
    A.Meets m.heap A.value (run.activate f closure vs frame m)
      (run'.activate f' closure vs' frame m') := by
  have hbindings := Heap.parameterBindings_like (A.value_null m.heap) f.parameters hvs
    (Dict.like_empty (r := Binding.Like (A.value m.heap)))
  unfold Runner.activate
  rw [hf.parameters]
  refine meets_bind (A.newScope closure hs hclosure hbindings)
    fun scope scope' m₁ m₁' hmade hl₁ hs₁ hscope => ?_
  obtain ⟨rfl, hscope⟩ := hscope
  have hroom₁ : m₁.callDepth < m₁.limits.maxCallDepth := by
    cases hmade
    exact hroom
  refine meets_bind (inCall (R.executeBlock hf.body hscope) (A.later_refl _) hs₁
    (A.frame_later hl₁ hframe) hroom₁) fun c c' m₂ m₂' _ _ hs₂ hc => ?_
  cases hc with
  | normal => exact .ok (A.later_refl _) hs₂ (A.value_null _)
  | returned hv => exact .ok (A.later_refl _) hs₂ hv

theorem callRoutine {f f' : Routine} (hf : f.Like A.likeness f') {closure : ScopeRef}
    {vs vs' : List Value} {m m' : Machine} {frame : Option Frame} {p q : Position}
    (hs : A.state m m') (hclosure : A.scope m.heap closure) (hvs : A.values m.heap vs vs')
    (hframe : A.frame m.heap frame) (hp : A.likeness.position p q) :
    A.Meets m.heap A.value (run.callRoutine f closure vs frame p m)
      (run'.callRoutine f' closure vs' frame q m') := by
  rw [Runner.callRoutine_eq, Runner.callRoutine_eq, A.limits hs, A.callDepth hs]
  split
  · exact .error (A.later_refl m.heap) hs (A.failed hp)
  next hroom => exact R.activate hf hs hclosure hvs hframe (Nat.lt_of_not_le hroom)

theorem callMethod {receiver : Option InstanceRef} {f : MethodRef} {home : ClassRef}
    {vs vs' : List Value} {m m' : Machine} {p q : Position} (hs : A.state m m')
    (hcall : A.callable m receiver f home) (hvs : A.values m.heap vs vs')
    (hp : A.likeness.position p q) :
    A.Meets m.heap A.value (run.callMethod receiver f home vs p m)
      (A.hooks.callMethod run' receiver f home vs' q m') := by
  obtain ⟨m'', hcalled, hs'⟩ := A.called hs hcall
  unfold Hooks.callMethod
  rw [Eval.bind_ok _ hcalled]
  show A.Meets m.heap A.value
    (run.callRoutine (m.heap.method f).routine (m.heap.classObject home).closure vs
      (some ⟨receiver, home⟩) p m)
    (run'.callRoutine (m''.heap.method f).routine (m''.heap.classObject home).closure vs'
      (some ⟨receiver, home⟩) q m'')
  rw [A.closure hs']
  exact R.callRoutine (A.method hs' f) hs' (A.scope_home hs hcall) hvs (A.frame_callable hcall) hp

theorem callValue {v v' : Value} {vs vs' : List Value} {p q : Position} (hv : A.value h v v')
    (hvs : A.values h vs vs') (hp : A.likeness.position p q) :
    A.Follow h A.value (run.callValue v vs p) (A.hooks.callValue run' v' vs' q) := by
  intro m m' hl hs
  have hvm := A.value_later hl hv
  have hvsm := values_later hl hvs
  rcases A.value_shape hvm with rfl | ⟨x, y, rfl, rfl⟩
  · cases v' with
    | function f =>
        show A.Meets m.heap A.value
          (run.callRoutine (m.heap.function f).routine (m.heap.function f).closure vs none p m)
          (run'.callRoutine (m'.heap.function f).routine (m'.heap.function f).closure vs' none q m')
        obtain ⟨hf, hclosure⟩ := A.function hs f
        rw [hclosure]
        exact R.callRoutine hf hs (A.scope_function hs hvm) hvsm (A.frame_none m.heap) hp
    | bound receiver f home =>
        show A.Meets m.heap A.value (run.callMethod receiver f home vs p m)
          (A.hooks.callMethod run' receiver f home vs' q m')
        exact R.callMethod hs (A.callable_bound hs hvm) hvsm hp
    | _ =>
        exact A.refuseCall run run' hs hvm (fun _ h => nomatch h) (fun _ _ _ h => nomatch h) hp vs vs'
  · exact A.refuseCall run run' hs hvm (fun _ h => nomatch h) (fun _ _ _ h => nomatch h) hp vs vs'

theorem construct {receiver : Option InstanceRef} {c : ClassRef} {vs vs' : List Value}
    {m m' : Machine} {p q : Position} (hs : A.state m m')
    (hcall : ∀ home f, m.heap.findConstructor? c = some (home, f) →
      A.callable m receiver f home)
    (hvs : A.values m.heap vs vs') (hp : A.likeness.position p q) :
    A.Meets m.heap Kinship.anything (run.construct receiver c vs p m)
      (A.hooks.construct run' receiver c vs' q m') := by
  show A.Meets m.heap _ (run.constructBy receiver vs p (m.heap.findConstructor? c) m)
    (A.hooks.constructBy run' receiver vs' q (m'.heap.findConstructor? c) m')
  rw [A.constructor? hs c]
  cases hfound : m.heap.findConstructor? c with
  | none => exact .ok (A.later_refl m.heap) hs trivial
  | some found =>
      obtain ⟨home, f⟩ := found
      exact meets_bind (R.callMethod hs (hcall home f hfound) hvs hp)
        fun _ _ _ _ _ _ hs₁ _ => .ok (A.later_refl _) hs₁ trivial

theorem newInstance {className : String} {es es' : List Expr} {p q : Position}
    (hes : List.Forall₂ (Expr.Like A.likeness) es es') (hp : A.likeness.position p q) :
    A.Follow h A.value (run.newInstance className es p)
      (A.hooks.newInstance run' className es' q) := by
  refine follow_bind (A.classNamed className hp) fun h₁ _ c c' hc => ?_
  obtain ⟨rfl, hclass⟩ := hc
  refine follow_bind (R.evaluateAll hes) fun h₂ hl₂ vs vs' hvs => ?_
  intro m m' hl hs
  refine meets_bind (A.newInstance hs (A.value_later (A.later_trans hl₂ hl) hclass))
    fun o o' m₁ m₁' _ hl₁ hs₁ ho => ?_
  obtain ⟨rfl, hobject, hofClass⟩ := ho
  have hvs₁ := values_later (A.later_trans hl hl₁) hvs
  refine meets_bind (R.construct hs₁
    (fun home f hfound => A.callable_new hs₁ hobject hofClass hfound) hvs₁ hp)
    fun _ _ m₂ m₂' _ hl₂ hs₂ _ => ?_
  exact .ok (A.later_refl _) hs₂ (A.value_later hl₂ hobject)

theorem callSuper {vs vs' : List Value} {p q : Position} (hvs : A.values h vs vs')
    (hp : A.likeness.position p q) :
    A.Follow h A.value (run.callSuper vs p) (A.hooks.callSuper run' vs' q) := by
  intro m m' hl hs
  refine meets_bind (A.superTarget hs hp) fun t t' m₁ m₁' hrun _ hs₁ ht => ?_
  subst ht
  -- looking for the superclass has changed nothing
  obtain ⟨rfl, hframe, hparent⟩ := Eval.superTarget_ok p m hrun
  refine meets_bind (R.construct hs₁
    (fun home f hfound => A.callable_super hs₁ hframe hparent hfound) (values_later hl hvs) hp)
    fun _ _ m₂ m₂' _ _ hs₂ _ => ?_
  exact .ok (A.later_refl _) hs₂ (A.value_null _)

/-! ### Expressions -/

theorem logic (isAnd : Bool) {l l' r r' : Expr} (hl : l.Like A.likeness l')
    (hr : r.Like A.likeness r') :
    A.Follow h A.value (run.logic isAnd l r) (run'.logic isAnd l' r') := by
  refine follow_bind (R.evaluate h hl) fun h₁ _ v v' hv => ?_
  dsimp only
  rw [A.value_truthy hv]
  split
  · refine follow_bind (R.evaluate h₁ hr) fun h₂ _ w w' hw => ?_
    rw [A.value_truthy hw]
    exact follow_value (A.value_bool h₂ _)
  · exact follow_value (A.value_bool h₁ _)

theorem binary (op : BinaryOp) {l l' r r' : Expr} {p q : Position} (hl : l.Like A.likeness l')
    (hr : r.Like A.likeness r') (hp : A.likeness.position p q) :
    A.Follow h A.value (run.binary op l r p) (run'.binary op l' r' q) := by
  have hplain : A.Follow h A.value (do
        let a ← run.evaluate l
        let b ← run.evaluate r
        Eval.lift p (op.apply (← get).heap a b))
      (do
        let a ← run'.evaluate l'
        let b ← run'.evaluate r'
        Eval.lift q (op.apply (← get).heap a b)) := by
    refine follow_bind (R.evaluate h hl) fun h₁ _ a a' ha => ?_
    refine follow_bind (R.evaluate h₁ hr) fun h₂ hl₂ b b' hb m m' hl hs => ?_
    exact A.binary op hs (A.value_later (A.later_trans hl₂ hl) ha) (A.value_later hl hb) hp
  cases op with
  | and => exact R.logic true hl hr
  | or => exact R.logic false hl hr
  | _ => exact hplain

theorem assign {t t' e e' : Expr} {p q : Position} (ht : t.Like A.likeness t')
    (he : e.Like A.likeness e') (hp : A.likeness.position p q) :
    A.Follow h A.value (run.assign t e p) (run'.assign t' e' q) := by
  cases ht with
  | identifier hname =>
      refine follow_bind (R.evaluate h he) fun h₁ _ v v' hv => ?_
      refine follow_bind (fun m m' hl hs => A.assign _ hs (A.value_later hl hv) hname)
        fun h₂ hl₂ _ _ _ => ?_
      exact follow_value (A.value_later hl₂ hv)
  | member ho _ =>
      refine follow_bind (R.evaluate h ho) fun h₁ _ o o' ho => ?_
      refine follow_bind (R.evaluate h₁ he) fun h₂ hl₂ v v' hv => ?_
      refine follow_bind (fun m m' hl hs => A.setMember hs
        (A.value_later (A.later_trans hl₂ hl) ho) (.name _) (A.value_later hl hv) hp)
        fun h₃ hl₃ _ _ _ => ?_
      exact follow_value (A.value_later hl₃ hv)
  | index ho hk _ =>
      refine follow_bind (R.evaluate h ho) fun h₁ _ o o' ho => ?_
      refine follow_bind (R.evaluate h₁ hk) fun h₂ hl₂ k k' hk => ?_
      refine follow_bind (R.evaluate h₂ he) fun h₃ hl₃ v v' hv => ?_
      refine follow_bind (fun m m' hl hs => A.setMember hs
        (A.value_later (A.later_trans (A.later_trans hl₂ hl₃) hl) ho)
        (.computed (A.value_later (A.later_trans hl₃ hl) hk)) (A.value_later hl hv) hp)
        fun h₄ hl₄ _ _ _ => ?_
      exact follow_value (A.value_later hl₄ hv)
  | _ => exact follow_fail hp

theorem call {c c' : Expr} {es es' : List Expr} {p q : Position} (hc : c.Like A.likeness c')
    (hes : List.Forall₂ (Expr.Like A.likeness) es es') (hp : A.likeness.position p q) :
    A.Follow h A.value (run.call c es p) (A.hooks.call run' c' es' q) := by
  have hplain : A.Follow h A.value (do
        let f ← run.evaluate c
        let vs ← run.evaluateAll es
        run.callValue f vs p)
      (do
        let f ← run'.evaluate c'
        let vs ← run'.evaluateAll es'
        A.hooks.callValue run' f vs q) := by
    refine follow_bind (R.evaluate h hc) fun h₁ _ f f' hf => ?_
    refine follow_bind (R.evaluateAll hes) fun h₂ hl₂ vs vs' hvs => ?_
    exact R.callValue (A.value_later hl₂ hf) hvs hp
  -- constructors and methods of the superclass are found without evaluating a callee
  cases hc with
  | super hsuper => exact follow_bind (R.evaluateAll hes) fun _ _ _ _ hvs => R.callSuper hvs hsuper
  | member ho hname =>
      cases ho with
      | super _ =>
          refine follow_bind (fun m m' _ hs => A.superMember _ hs hname) fun h₁ _ f f' hf => ?_
          refine follow_bind (R.evaluateAll hes) fun h₂ hl₂ vs vs' hvs => ?_
          exact R.callValue (A.value_later hl₂ hf) hvs hp
      | _ => exact hplain
  | _ => exact hplain

/-- **Every expression keeps two runs in accord.** -/
theorem expression {e e' : Expr} (he : e.Like A.likeness e') :
    A.Follow h A.value (run.expression e) (A.hooks.expression run' e') := by
  cases he with
  | literal hv _ => exact follow_value (A.value_literal hv)
  | identifier hp => exact fun m m' _ hs => A.lookup _ hs hp
  | grouping he _ => exact R.evaluate h he
  | @unary op _ _ _ _ he hp =>
      refine follow_bind (R.evaluate h he) fun h₁ _ v v' hv m m' hl hs => ?_
      exact A.unary op hs (A.value_later hl hv) hp
  | binary hl hr hp => exact R.binary _ hl hr hp
  | assign ht hv hp => exact R.assign ht hv hp
  | call hc hes hp => exact R.call hc hes hp
  | @member o o' name _ _ ho hp =>
      have hplain : A.Follow h A.value (do
            let v ← run.evaluate o
            Eval.getMember v (.name name) _)
          (do
            let v ← run'.evaluate o'
            Eval.getMember v (.name name) _) :=
        follow_bind (R.evaluate h ho) fun h₁ _ v v' hv m m' hl hs =>
          A.getMember hs (A.value_later hl hv) (.name name) hp
      cases ho with
      | super _ => exact fun m m' _ hs => A.superMember name hs hp
      | _ => exact hplain
  | index ho hi hp =>
      refine follow_bind (R.evaluate h ho) fun h₁ _ v v' hv => ?_
      refine follow_bind (R.evaluate h₁ hi) fun h₂ hl₂ k k' hk m m' hl hs => ?_
      exact A.getMember hs (A.value_later (A.later_trans hl₂ hl) hv)
        (.computed (A.value_later hl hk)) hp
  | array hes _ =>
      refine follow_bind (R.evaluateAll hes) fun h₁ _ vs vs' hvs => ?_
      refine follow_bind (fun m m' hl hs => A.newArray hs (values_later hl hvs))
        fun h₂ _ a a' ha => ?_
      exact follow_value ha
  | receiver hp => exact fun m m' _ hs => A.receiver hs hp
  | @super p q hp =>
      have hframe : A.Follow h Kinship.anything (Eval.methodFrame .superOutsideMethod p)
          (Eval.methodFrame .superOutsideMethod q) := by
        intro m m' _ hs
        unfold Eval.methodFrame
        rw [frame? hs]
        cases m.frame? with
        | none => exact .error (A.later_refl _) hs (A.failed hp)
        | some frame => exact .ok (A.later_refl _) hs trivial
      exact follow_bind hframe fun _ _ _ _ _ => follow_fail hp
  | new hes hp => exact R.newInstance hes hp

/-! ### Modules -/

theorem runModule (program : Program) :
    A.Follow h A.exports (run.runModule program) (run'.runModule program) := by
  rw [Runner.runModule_eq, Runner.runModule_eq]
  exact follow_bind (R.executeProgram (Statement.likeAll_refl A.likeness program.body))
    fun _ _ _ _ _ m m' _ hs => A.collectExports hs

theorem importProgram (specifier : String) (id : ModuleId) (program : Program) {m m' : Machine}
    {p q : Position} (hs : A.state m m') (hp : A.likeness.position p q) :
    A.Meets m.heap A.exports (run.importProgram specifier id program p m)
      (Eval.onOwnMachine (A.hooks.enter id) (A.hooks.leave id) specifier id q
        (A.hooks.ran (run'.runModule program)) m') := by
  rw [Runner.importProgram_eq]
  have hstart : A.later m.heap (m.startModule id).heap := A.later_start m id
  have hrun := A.ran (R.runModule (h := m.heap) program) _ _ hstart (A.enterModule id hs)
  unfold Eval.onOwnMachine
  generalize run.runModule program (m.startModule id) = r at hrun
  generalize A.hooks.ran (run'.runModule program) (A.hooks.enter id m') = r' at hrun
  cases hrun with
  | ok hl hs' he =>
      have hl := A.later_trans hstart hl
      exact .ok hl (A.store id (A.leaveModule id hs hl hs') he) he
  | error hl hs' he =>
      have hl := A.later_trans hstart hl
      exact .error hl (A.leaveModule id hs hl hs') (A.importer specifier he hp)

omit R in
/-- Two searches for a module are in accord if the readings of a module that has not been run are. -/
theorem findModule (specifier : String) {p q : Position} {read read' : ModuleId → Eval Exports}
    (hread : ∀ id h, A.Follow h A.exports (read id) (read' id)) (hp : A.likeness.position p q) :
    A.Follow h A.exports (Eval.findModule specifier p read) (Eval.findModule specifier q read') := by
  intro m m' hl hs
  have hcached := A.cached hs
  have hloading := A.isLoading hs
  rw [Eval.findModule_apply, Eval.findModule_apply, A.loader hs, A.moduleId hs]
  cases m.modules.loader.resolve specifier m.moduleId with
  | error e => exact follow_fail hp m m' hl hs
  | ok id =>
      specialize hcached id
      dsimp only
      rw [hloading id]
      generalize m.modules.cached? id = e at hcached
      generalize m'.modules.cached? id = e' at hcached
      cases hcached with
      | some he => exact .ok (A.later_refl _) hs he
      | none =>
          dsimp only
          split
          · exact follow_fail hp m m' hl hs
          · exact hread id h m m' hl hs

omit R in
/-- Two readings of a module are in accord if the runs of its program are. -/
theorem readProgram (specifier : String) (id : ModuleId) {p q : Position}
    {load load' : Program → Eval Exports}
    (hload : ∀ program h, A.Follow h A.exports (load program) (load' program))
    (hp : A.likeness.position p q) :
    A.Follow h A.exports (Eval.readProgram specifier id p load)
      (Eval.readProgram specifier id q load') := by
  intro m m' hl hs
  rw [Eval.readProgram_apply, Eval.readProgram_apply, A.loader hs]
  cases m.modules.loader.read id with
  | error e => exact follow_fail hp m m' hl hs
  | ok text =>
      dsimp only
      cases Program.ofText text with
      | error errors => exact follow_fail hp m m' hl hs
      | ok program => exact hload program h m m' hl hs

theorem loadModule (specifier : String) {p q : Position} (hp : A.likeness.position p q) :
    A.Follow h A.exports (run.loadModule specifier p) (A.hooks.loadModule run' specifier q) := by
  rw [Runner.loadModule_eq]
  refine findModule specifier (fun id h₁ => ?_) hp
  refine readProgram specifier id (fun program h₂ m m' _ hs => ?_) hp
  exact R.importProgram specifier id program hs hp

theorem importNames (names : List String) (specifier : String) {p q : Position}
    (hp : A.likeness.position p q) :
    A.Follow h Kinship.anything (run.importNames names specifier p)
      (A.hooks.importNames run' names specifier q) :=
  follow_bind (R.loadModule specifier hp) fun _ _ _ _ he => A.bindImports specifier he hp names

/-! ### Statements -/

theorem loop {c c' : Expr} {body body' : Statement} {p q : Position} (hc : c.Like A.likeness c')
    (hbody : body.Like A.likeness body') (hp : A.likeness.position p q) (n : Nat) :
    A.Follow h A.completion (run.loop c body p n) (run'.loop c' body' q n) := by
  induction n generalizing h with
  | zero =>
      refine follow_bind (R.evaluate h hc) fun h₁ _ v v' hv => ?_
      rw [A.value_truthy hv]
      cases v.isTruthy with
      | false => exact follow_normal
      | true =>
          intro m m' hl hs
          show A.Meets m.heap A.completion
            ((Eval.fail (.loopLimit m.limits.maxIterations) p : Eval Completion) m)
            ((Eval.fail (.loopLimit m'.limits.maxIterations) q : Eval Completion) m')
          rw [A.limits hs]
          exact follow_fail hp m m' hl hs
  | succ n ih =>
      refine follow_bind (R.evaluate h hc) fun h₁ _ v v' hv => ?_
      rw [A.value_truthy hv]
      cases v.isTruthy with
      | false => exact follow_normal
      | true =>
          refine follow_bind (R.execute h₁ hbody) fun h₂ _ r r' hr => ?_
          cases hr with
          | normal => exact ih
          | returned hv => exact follow_completion (.returned hv)

/-- A return needs an active call. -/
theorem giveBack {v v' : Option Expr} {p q : Position}
    (hv : Option.Rel (Expr.Like A.likeness) v v') (hp : A.likeness.position p q) :
    A.Follow h A.completion (run.giveBack v p) (run'.giveBack v' q) := by
  intro m m' hl hs
  cases hv with
  | none =>
      show A.Meets m.heap A.completion
        ((if m.callDepth = 0 then Eval.fail .returnOutsideFunction p
          else return .returned .null : Eval Completion) m)
        ((if m'.callDepth = 0 then Eval.fail .returnOutsideFunction q
          else return .returned .null : Eval Completion) m')
      rw [callDepth hs]
      split
      · exact follow_fail hp m m' hl hs
      · exact follow_completion (.returned (A.value_null h)) m m' hl hs
  | @some e e' he =>
      show A.Meets m.heap A.completion
        ((if m.callDepth = 0 then Eval.fail .returnOutsideFunction p
          else do return .returned (← run.evaluate e) : Eval Completion) m)
        ((if m'.callDepth = 0 then Eval.fail .returnOutsideFunction q
          else do return .returned (← run'.evaluate e') : Eval Completion) m')
      rw [callDepth hs]
      split
      · exact follow_fail hp m m' hl hs
      · exact follow_bind (R.evaluate h he)
          (fun _ _ _ _ hv => follow_completion (.returned hv)) m m' hl hs

/-- **Every statement keeps two runs in accord.** -/
theorem statement {s s' : Statement} (hs : s.Like A.likeness s') :
    A.Follow h A.completion (run.statement s) (A.hooks.statement run' s') := by
  cases hs with
  | binding he hp =>
      refine follow_bind (R.evaluate h he) fun h₁ _ v v' hv => ?_
      exact follow_bind (fun m m' hl hs => A.declare _ _ hs (A.value_later hl hv) hp)
        fun _ _ _ _ _ => follow_normal
  -- both runs are in one scope, so that the two functions close over the same
  | @function name parameters body body' p q hbody hp =>
      intro m m' hl hs
      show A.Meets m.heap A.completion
        ((Eval.alloc (·.newFunction ⟨⟨name, parameters, body⟩, m.environment⟩) >>= fun f =>
          Eval.declare name (.function f) false p >>= fun _ => pure .normal) m)
        ((Eval.alloc (·.newFunction ⟨⟨name, parameters, body'⟩, m'.environment⟩) >>= fun f =>
          Eval.declare name (.function f) false q >>= fun _ => pure .normal) m')
      rw [A.environment hs]
      refine meets_bind
        (A.newFunction m.environment hs (A.scope_environment hs) ⟨rfl, rfl, hbody⟩)
        fun f f' m₁ m₁' _ _ hs₁ hf => ?_
      exact meets_bind (A.declare name false hs₁ hf hp)
        fun _ _ _ _ _ _ hs₂ _ => .ok (A.later_refl _) hs₂ .normal
  | classDecl hms hp =>
      exact follow_bind (A.declareClass _ _ hms hp) fun _ _ _ _ _ => follow_normal
  | onlyIf hc ht _ =>
      refine follow_bind (R.evaluate h hc) fun h₁ _ v v' hv => ?_
      rw [A.value_truthy hv]
      cases v.isTruthy with
      | true => exact R.execute h₁ ht
      | false => exact follow_normal
  | ifElse hc ht he _ =>
      refine follow_bind (R.evaluate h hc) fun h₁ _ v v' hv => ?_
      rw [A.value_truthy hv]
      cases v.isTruthy with
      | true => exact R.execute h₁ ht
      | false => exact R.execute h₁ he
  -- the limits are common, so that both loops may run equally often
  | loop hc hbody hp =>
      intro m m' hl hs
      show A.Meets m.heap A.completion (run.loop _ _ _ m.limits.maxIterations m)
        (run'.loop _ _ _ m'.limits.maxIterations m')
      rw [A.limits hs]
      exact R.loop hc hbody hp _ m m' hl hs
  | giveBackNothing hp => exact R.giveBack .none hp
  | giveBack he hp => exact R.giveBack (.some he) hp
  -- the text is made of the value on the heap after its evaluation
  | print he _ =>
      refine follow_bind (R.evaluate h he) fun h₁ _ v v' hv m m' hl hs => ?_
      show A.Meets m.heap A.completion
        ((Eval.print (m.heap.text v) >>= fun _ => pure .normal) m)
        ((A.hooks.printed (m'.heap.text v') >>= fun _ => pure .normal) m')
      exact meets_bind (A.print hs (A.value_later hl hv))
        fun _ _ m₁ m₁' _ hl₁ hs₁ _ => follow_normal m₁ m₁' hl₁ hs₁
  | @block ss ss' _ _ hss _ =>
      intro m m' hl hs
      show A.Meets m.heap A.completion
        ((Eval.alloc (·.newChild m.environment) >>= fun scope => run.executeBlock ss scope) m)
        ((Eval.alloc (·.newChild m'.environment) >>= fun scope => run'.executeBlock ss' scope) m')
      rw [A.environment hs]
      refine meets_bind (A.newScope m.environment hs (A.scope_environment hs) Dict.like_empty)
        fun scope scope' m₁ m₁' _ _ hs₁ hscope => ?_
      obtain ⟨rfl, hscope⟩ := hscope
      exact R.executeBlock hss hscope m₁ m₁' (A.later_refl _) hs₁
  | expression he _ => exact follow_bind (R.evaluate h he) fun _ _ _ _ _ => follow_normal
  | empty _ => exact follow_normal
  | importNames hp =>
      exact follow_bind (R.importNames _ _ hp) fun _ _ _ _ _ => follow_normal
  | @exportDecl s s' _ _ hs _ =>
      show A.Follow h A.completion
        (run.execute s >>= fun c => Runner.noteExports s.declaredName?.toList >>= fun _ => pure c)
        (run'.execute s' >>= fun c => Runner.noteExports s'.declaredName?.toList >>= fun _ => pure c)
      rw [hs.declaredName?]
      refine follow_bind (R.execute h hs) fun h₁ _ c c' hc => ?_
      exact follow_bind (fun m m' _ hs => A.noteExports _ hs)
        fun _ hl _ _ _ => follow_completion (completion_later hl hc)
  | exportNames _ =>
      exact follow_bind (fun m m' _ hs => A.noteExports _ hs) fun _ _ _ _ _ => follow_normal

end Runners

/-! ## Whole runs -/

/-- **Two runs of trees of the same shape are in accord**, however deep they nest. -/
theorem within (n : Nat) : A.Runners (Runner.within n) (Runner.hooked A.hooks n) := by
  induction n with
  | zero =>
      have hexhausted : ∀ {α : Type} {rel : Heap → α → α → Prop} (h : Heap),
          A.Follow h rel (throw .exhausted : Eval α) (throw .exhausted : Eval α) :=
        fun _ m _ _ hs => .error (A.later_refl m.heap) hs A.exhausted
      exact ⟨fun h _ => hexhausted h, fun h _ => hexhausted h⟩
  | succ n ih =>
      exact ⟨fun h he => A.evaluated (ih.expression he), fun h hs => A.executed (ih.statement hs)⟩

end Accord

end Lipi
