import Lipi.Proofs.Heap.Overrides
import Lipi.Proofs.Machine.Inspection

set_option autoImplicit false

/-! # Cascades of overrides

A method whose overrides all call `upar.name(…)` is run once for each of them. To say so, calls of
methods are noted in the journal of an inspected run (`Inspection.calls`). `CallsUp` says that a
computation calls `upar.name(…)` once and does nothing else that is noted, and that the override
that is called there does so in turn, up to the last one. **Then the overrides above the running
one are noted once each, in the order of the chain** (`CallsUp.cascaded`), all of them if the
computation comes to its end.
-/

namespace Lipi

/-! ## Noting calls -/

namespace Inspection

/-- Notes calls of methods, and asks nothing. -/
def calls (tag : Option InstanceRef → MethodRef → ClassRef → Option String) : Inspection where
  note
    | _, .call receiver method home => tag receiver method home
    | _, _ => none
  asks _ _ _ := True

variable (tag : Option InstanceRef → MethodRef → ClassRef → Option String)

theorem sound_calls {limits : Limits} : (calls tag).Sound limits :=
  fun _ _ _ _ _ _ _ _ => trivial

theorem called_calls (receiver : Option InstanceRef) (f : MethodRef) (home : ClassRef)
    (m : Machine) :
    (calls tag).hooks.called receiver f home m =
      .ok () (m.withOutput (m.output ++ (tag receiver f home).toArray)) :=
  if_pos trivial

theorem look_state (m : Machine) : (calls tag).look .state m = .ok () m := by
  have hlook : (calls tag).look .state m = .ok () (m.withOutput (m.output ++ #[])) := if_pos trivial
  rw [hlook, Array.append_empty]
  rfl

/-- Only calls are looked at. -/
theorem around_calls {α : Type} (x : Eval α) : (calls tag).around x = x := by
  funext m
  unfold around
  rw [Eval.bind_ok _ (look_state tag m)]
  unfold lookAfter
  cases hx : x m with
  | ok a m' =>
      dsimp only
      rw [Eval.bind_ok _ (look_state tag m')]
      rfl
  | error halt m' =>
      dsimp only
      rw [Eval.bind_ok _ (look_state tag m')]
      rfl

theorem evaluated_calls (x : Eval Value) : (calls tag).hooks.evaluated x = x := by
  funext m
  show ((calls tag).around x >>= fun v => (calls tag).look (.value v) >>= fun _ => pure v) m = _
  rw [around_calls]
  cases hx : x m with
  | ok v m' =>
      have hlook : (calls tag).look (.value v) m' = .ok () (m'.withOutput (m'.output ++ #[])) :=
        if_pos trivial
      rw [Array.append_empty] at hlook
      rw [Eval.bind_ok _ hx, Eval.bind_ok _ hlook]
      rfl
  | error halt m' => rw [Eval.bind_error _ hx]

end Inspection

/-! ## The body of a method -/

/-- The machine on which the body of a method starts. -/
def Machine.enter (m : Machine) (f : MethodRef) (frame : Frame) (vs : List Value) : Machine :=
  let bindings := Heap.parameterBindings (m.heap.method f).routine.parameters vs .empty
  { m with
    heap := (m.heap.newScope ⟨bindings, some (m.heap.classObject frame.home).closure⟩).2
    frames := some frame :: m.frames }

/-- The body of a method that is called at a machine. -/
def Runner.bodyAt (run : Runner) (m : Machine) (f : MethodRef) : Eval Completion :=
  run.executeBlock (m.heap.method f).routine.body ⟨m.heap.scopes.size⟩

section InCall

variable {α : Type} {x : Eval α} {frame : Option Frame} {m m' : Machine}

theorem Eval.inCall_ok {a : α} (h : x { m with frames := frame :: m.frames } = .ok a m') :
    Eval.inCall frame x m = .ok a { m' with frames := m'.frames.tail } := by
  unfold Eval.inCall
  rw [h]

theorem Eval.inCall_error {halt : Halt}
    (h : x { m with frames := frame :: m.frames } = .error halt m') :
    Eval.inCall frame x m = .error halt { m' with frames := m'.frames.tail } := by
  unfold Eval.inCall
  rw [h]

end InCall

/-- A call fails at the limit, or runs the body. -/
theorem Runner.callMethod_eq (run : Runner) (receiver : Option InstanceRef) (f : MethodRef)
    (home : ClassRef) (vs : List Value) (p : Position) (m : Machine) :
    run.callMethod receiver f home vs p m =
      if m.limits.maxCallDepth ≤ m.callDepth then
        .error (.failed ⟨.recursionLimit m.limits.maxCallDepth, some p⟩) m
      else
        match run.bodyAt m f (m.enter f ⟨receiver, home⟩ vs) with
        | .ok c m' => Eval.callResult c { m' with frames := m'.frames.tail }
        | .error halt m' => .error halt { m' with frames := m'.frames.tail } := by
  show run.callRoutine (m.heap.method f).routine (m.heap.classObject home).closure vs
    (some ⟨receiver, home⟩) p m = _
  rw [Runner.callRoutine_eq]
  split
  · rfl
  · show (Eval.inCall (some ⟨receiver, home⟩) (run.bodyAt m f) >>= Eval.callResult)
      { m with heap := (m.enter f ⟨receiver, home⟩ vs).heap } = _
    cases hbody : run.bodyAt m f (m.enter f ⟨receiver, home⟩ vs) with
    | ok c m' =>
        exact Eval.bind_ok _ (Eval.inCall_ok hbody)
    | error halt m' =>
        exact Eval.bind_error _ (Eval.inCall_error hbody)

/-! ## Calling up -/

/-- A computation notes nothing, and keeps the active calls and the classes. -/
structure Eval.Calm {α : Type} (x : Eval α) (m : Machine) : Prop where
  output : (x.final m).output = m.output
  frames : (x.final m).frames = m.frames
  classes : Heap.KeepsClasses m.heap (x.final m).heap

/-- At a machine, a computation of a run with these hooks calls `upar.name(…)` once and is calm
otherwise, unless it halts, and so does the body of the method that is called there, unless that is
the last override. -/
inductive CallsUp (k : Hooks) (name : String) : {α : Type} → Eval α → Machine → Prop where
  /-- An override is called that calls up itself. -/
  | next {n : Nat} {receiver : Option InstanceRef} {f : MethodRef} {home : ClassRef}
    {vs : List Value} {p q : Position} {m m₁ : Machine} :
    Eval.superMember name p m = .ok (.bound receiver f home) m →
    k.called receiver f home m = .ok () m₁ →
    CallsUp k name ((Runner.hooked k n).bodyAt m₁ f) (m₁.enter f ⟨receiver, home⟩ vs) →
    CallsUp k name (k.callValue (Runner.hooked k n) (.bound receiver f home) vs q) m
  /-- The last override is called. -/
  | last {n : Nat} {receiver : Option InstanceRef} {f : MethodRef} {home : ClassRef}
    {vs : List Value} {p q : Position} {m m₁ : Machine} :
    Eval.superMember name p m = .ok (.bound receiver f home) m →
    k.called receiver f home m = .ok () m₁ →
    (∀ d g, m.heap.Ancestor home d → ¬ m.heap.Declares d .ofInstances name g) →
    ((Runner.hooked k n).bodyAt m₁ f).Calm (m₁.enter f ⟨receiver, home⟩ vs) →
    CallsUp k name (k.callValue (Runner.hooked k n) (.bound receiver f home) vs q) m
  /-- Something is done before. -/
  | before {α β : Type} {x : Eval α} {y : α → Eval β} {m : Machine} : x.Calm m →
    (∀ a m', x m = .ok a m' → CallsUp k name (y a) m') → CallsUp k name (x >>= y) m
  /-- Something is done after. -/
  | after {α β : Type} {x : Eval α} {y : α → Eval β} {m : Machine} : CallsUp k name x m →
    (∀ a m', x m = .ok a m' → (y a).Calm m') → CallsUp k name (x >>= y) m
  /-- It is done in another scope. -/
  | inScope {α : Type} {x : Eval α} {scope : ScopeRef} {m : Machine} :
    CallsUp k name x { m with environment := scope } → CallsUp k name (Eval.inScope scope x) m
  /-- The computation halts before it comes to the call. -/
  | halted {α : Type} {x : Eval α} {halt : Halt} {m m' : Machine} : x.Calm m →
    x m = .error halt m' → CallsUp k name x m

/-- A call of an override on an instance cascades: the body calls up, or it is calm if it belongs to
the last override. -/
def Machine.CallCascades (m : Machine) (k : Hooks) (name : String) (n : Nat) (o : InstanceRef)
    (f : MethodRef) (home : ClassRef) (vs : List Value) : Prop :=
  ∃ m₁, k.called (some o) f home m = .ok () m₁ ∧
    ((∃ d g, m.heap.Ancestor home d ∧ m.heap.Declares d .ofInstances name g) →
      CallsUp k name ((Runner.hooked k n).bodyAt m₁ f) (m₁.enter f ⟨some o, home⟩ vs)) ∧
    ((∀ d g, m.heap.Ancestor home d → ¬ m.heap.Declares d .ofInstances name g) →
      ((Runner.hooked k n).bodyAt m₁ f).Calm (m₁.enter f ⟨some o, home⟩ vs))

/-- What a computation that has called up leaves behind: the first of some overrides have been
noted, and all of them if it has come to its end. -/
structure Cascaded {α : Type} (tag : ClassRef × MethodRef → Option String)
    (above : List (ClassRef × MethodRef)) (m : Machine) (r : EStateM.Result Halt Machine α) :
    Prop where
  frames : (Eval.machineOf r).frames = m.frames
  classes : Heap.KeepsClasses m.heap (Eval.machineOf r).heap
  noted : ∃ called, called <+: above ∧
    (Eval.machineOf r).output = m.output ++ (called.filterMap tag).toArray ∧
    ∀ a m', r = .ok a m' → called = above

theorem Eval.Calm.ok {α : Type} {x : Eval α} {m m' : Machine} {a : α} (hx : x.Calm m)
    (h : x m = .ok a m') :
    m'.output = m.output ∧ m'.frames = m.frames ∧ Heap.KeepsClasses m.heap m'.heap := by
  obtain ⟨houtput, hframes, hclasses⟩ := hx
  unfold Eval.final at houtput hframes hclasses
  rw [h] at houtput hframes hclasses
  exact ⟨houtput, hframes, hclasses⟩

theorem Eval.Calm.error {α : Type} {x : Eval α} {m m' : Machine} {halt : Halt} (hx : x.Calm m)
    (h : x m = .error halt m') :
    m'.output = m.output ∧ m'.frames = m.frames ∧ Heap.KeepsClasses m.heap m'.heap := by
  obtain ⟨houtput, hframes, hclasses⟩ := hx
  unfold Eval.final at houtput hframes hclasses
  rw [h] at houtput hframes hclasses
  exact ⟨houtput, hframes, hclasses⟩

namespace Cascaded

variable {α β : Type} {tag : ClassRef × MethodRef → Option String}
  {above : List (ClassRef × MethodRef)} {m : Machine}

/-- A computation that is calm and halts has called nothing. -/
theorem of_halted {x : Eval α} {halt : Halt} {m' : Machine} (hcalm : x.Calm m)
    (hx : x m = .error halt m') :
    Cascaded tag above m (.error halt m' : EStateM.Result Halt Machine β) := by
  obtain ⟨houtput, hframes, hclasses⟩ := hcalm.error hx
  refine ⟨hframes, hclasses, [], List.nil_prefix, ?_, fun _ _ hok => nomatch hok⟩
  rw [List.filterMap_nil]
  exact houtput

theorem of_before {x : Eval α} {y : α → Eval β} (hcalm : x.Calm m)
    (hy : ∀ a m', x m = .ok a m' → Cascaded tag above m' (y a m')) :
    Cascaded tag above m ((x >>= y) m) := by
  cases hx : x m with
  | ok a m' =>
      obtain ⟨houtput, hframes, hclasses⟩ := hcalm.ok hx
      obtain ⟨hframes', hclasses', called, hprefix, hnoted, hend⟩ := hy a m' hx
      rw [Eval.bind_ok _ hx]
      refine ⟨hframes'.trans hframes, hclasses.trans hclasses', called, hprefix, ?_, hend⟩
      rw [hnoted, houtput]
  | error halt m' =>
      rw [Eval.bind_error _ hx]
      exact of_halted hcalm hx

theorem of_after {x : Eval α} {y : α → Eval β} (hx : Cascaded tag above m (x m))
    (hcalm : ∀ a m', x m = .ok a m' → (y a).Calm m') : Cascaded tag above m ((x >>= y) m) := by
  obtain ⟨hframes, hclasses, called, hprefix, hnoted, hend⟩ := hx
  cases hxm : x m with
  | ok a m' =>
      rw [hxm] at hframes hclasses hnoted
      have hall := hend a m' hxm
      have hafter := hcalm a m' hxm
      rw [Eval.bind_ok _ hxm]
      exact ⟨hafter.frames.trans hframes, hclasses.trans hafter.classes, called, hprefix,
        hafter.output.trans hnoted, fun _ _ _ => hall⟩
  | error halt m' =>
      rw [hxm] at hframes hclasses hnoted
      rw [Eval.bind_error _ hxm]
      exact ⟨hframes, hclasses, called, hprefix, hnoted, fun _ _ hok => nomatch hok⟩

theorem of_inScope {x : Eval α} {scope : ScopeRef}
    (hx : Cascaded tag above { m with environment := scope } (x { m with environment := scope })) :
    Cascaded tag above m (Eval.inScope scope x m) := by
  unfold Eval.inScope
  obtain ⟨hframes, hclasses, called, hprefix, hnoted, hend⟩ := hx
  cases hxm : x { m with environment := scope } with
  | ok a m' =>
      rw [hxm] at hframes hclasses hnoted
      exact ⟨hframes, hclasses, called, hprefix, hnoted, fun _ _ _ => hend a m' hxm⟩
  | error halt m' =>
      rw [hxm] at hframes hclasses hnoted
      exact ⟨hframes, hclasses, called, hprefix, hnoted, fun _ _ hok => nomatch hok⟩

end Cascaded

/-! ## The cascade -/

section Cascade

variable (tag : Option InstanceRef → MethodRef → ClassRef → Option String) (o : InstanceRef)

/-- What is noted of the call of an override on an instance. -/
def noteOf (a : ClassRef × MethodRef) : Option String := tag (some o) a.2 a.1

variable {tag o} {m : Machine} {n : Nat} {f : MethodRef} {home : ClassRef} {vs : List Value}
  {rest : List (ClassRef × MethodRef)}

theorem noted_cons (output : Array String) {α : Type} (tag : α → Option String) (a : α)
    (called : List α) :
    output ++ (tag a).toArray ++ (called.filterMap tag).toArray =
      output ++ ((a :: called).filterMap tag).toArray := by
  cases htag : tag a <;> simp [htag]

/-- An override is noted when it is called, and then come those that its body calls. -/
theorem cascaded_call {m₁ : Machine} (q : Position)
    (hcalled : (Inspection.calls tag).hooks.called (some o) f home m = .ok () m₁)
    (hbody : Cascaded (noteOf tag o) rest (m₁.enter f ⟨some o, home⟩ vs)
      ((Runner.hooked (Inspection.calls tag).hooks n).bodyAt m₁ f (m₁.enter f ⟨some o, home⟩ vs))) :
    Cascaded (noteOf tag o) ((home, f) :: rest) m
      ((Inspection.calls tag).hooks.callMethod (Runner.hooked (Inspection.calls tag).hooks n) (some o)
        f home vs q m) := by
  unfold Hooks.callMethod
  rw [Eval.bind_ok _ hcalled, Runner.callMethod_eq]
  -- the call has been noted
  rw [Inspection.called_calls] at hcalled
  obtain ⟨-, hm₁⟩ := EStateM.Result.ok.inj hcalled
  have houtput : m₁.output = m.output ++ (noteOf tag o (home, f)).toArray := by
    rw [← hm₁]
    rfl
  have hframes₁ : m₁.frames = m.frames := by
    rw [← hm₁]
    rfl
  have hclasses₁ : Heap.KeepsClasses m.heap m₁.heap := by
    rw [← hm₁]
    exact Heap.keepsClasses_refl _
  split
  · refine ⟨hframes₁, hclasses₁, [(home, f)], List.prefix_append [(home, f)] rest, ?_,
      fun _ _ hok => by cases hok⟩
    rw [← noted_cons, ← houtput]
    simp [Eval.machineOf]
  · obtain ⟨hframes, hclasses, called, hprefix, hnoted, hend⟩ := hbody
    generalize hresult : (Runner.hooked (Inspection.calls tag).hooks n).bodyAt m₁ f
      (m₁.enter f ⟨some o, home⟩ vs) = r at hframes hclasses hnoted hend
    have hleft : ((Eval.machineOf r).frames).tail = m.frames := by
      rw [hframes]
      exact hframes₁
    have hkept : Heap.KeepsClasses m.heap (Eval.machineOf r).heap :=
      Heap.KeepsClasses.trans hclasses₁ hclasses
    have hcalls : (Eval.machineOf r).output =
        m.output ++ (((home, f) :: called).filterMap (noteOf tag o)).toArray := by
      rw [hnoted, ← noted_cons, ← houtput]
      rfl
    cases r with
    | ok c m' =>
        have hall := hend c m' rfl
        cases c with
        | normal => exact ⟨hleft, hkept, _, List.prefix_cons_inj _ |>.mpr hprefix, hcalls,
            fun _ _ _ => by rw [hall]⟩
        | returned v => exact ⟨hleft, hkept, _, List.prefix_cons_inj _ |>.mpr hprefix, hcalls,
            fun _ _ _ => by rw [hall]⟩
    | error halt m' =>
        exact ⟨hleft, hkept, _, List.prefix_cons_inj _ |>.mpr hprefix, hcalls,
          fun _ _ hok => by cases hok⟩

variable {h : Heap} {name : String}

/-- The method of the superclass that is called is the first override above the running one. -/
theorem superMember_first (ha : h.Ancestral) {caller : ClassRef} (hc : caller.index < h.classes.size)
    (hframe : m.frame? = some ⟨some o, caller⟩) (hkeeps : Heap.KeepsClasses h m.heap)
    {above : List (ClassRef × MethodRef)} (habove : h.Overrides (h.Ancestor caller) name above)
    {receiver : Option InstanceRef} {p : Position}
    (hfound : Eval.superMember name p m = .ok (.bound receiver f home) m) :
    receiver = some o ∧ ∃ rest, above = (home, f) :: rest := by
  rw [Eval.superMember_eq] at hfound
  cases htarget : Eval.superTarget p m with
  | error halt m' =>
      rw [htarget] at hfound
      cases hfound
  | ok t m' =>
      obtain ⟨rfl, hcaller, hparent⟩ := Eval.superTarget_ok p m htarget
      obtain ⟨frame, parent⟩ := t
      cases hframe.symm.trans hcaller
      have hparent : h.Parent caller parent := (hkeeps.parent_iff hc parent).mp hparent
      -- classes do not change, so the search can be made on the heap of the start
      have hsearch : m'.heap.findMethod? parent (Eval.superTable ⟨some o, caller⟩) name =
          h.findMethod? parent .ofInstances name :=
        hkeeps.findMethod? (Nat.lt_trans (ha _ _ hparent) hc) .ofInstances name
      rw [htarget] at hfound
      dsimp only at hfound
      rw [hsearch] at hfound
      cases hmethod : h.findMethod? parent .ofInstances name with
      | none =>
          rw [hmethod] at hfound
          cases hfound
      | some found =>
          rw [hmethod] at hfound
          cases hfound
          refine ⟨rfl, (habove.nearestAbove_iff ha).mp ?_⟩
          exact (Heap.nearestAbove_iff hparent).mpr ((ha.findMethod?_iff _ _ _ _ _).mp hmethod)

/-- **Whatever calls up calls the overrides above the running one, in their order**, all of them if
it comes to its end. -/
theorem CallsUp.cascaded (ha : h.Ancestral) {α : Type} {x : Eval α}
    (hx : CallsUp (Inspection.calls tag).hooks name x m) {caller : ClassRef}
    (hc : caller.index < h.classes.size) (hframe : m.frame? = some ⟨some o, caller⟩)
    (hkeeps : Heap.KeepsClasses h m.heap) {above : List (ClassRef × MethodRef)}
    (habove : h.Overrides (h.Ancestor caller) name above) :
    Cascaded (noteOf tag o) above m (x m) := by
  induction hx generalizing caller above with
  -- the override that is called runs in the same way, with the overrides above its own class
  | @next n receiver f home vs p q m m₁ hfound hcalled _ ih =>
      obtain ⟨rfl, rest, rfl⟩ := superMember_first ha hc hframe hkeeps habove hfound
      have hanc := ((habove.complete home f).mp List.mem_cons_self).1
      have hrest := habove.tail_of_ancestor ha
      refine cascaded_call q hcalled (ih ?_ rfl ?_ hrest)
      · exact Nat.lt_trans (ha.index_lt hanc) hc
      · rw [Inspection.called_calls] at hcalled
        cases hcalled
        exact hkeeps
  -- the override that is called is the last one if its class has no ancestor with another
  | @last n receiver f home vs p q m m₁ hfound hcalled hlast hcalm =>
      obtain ⟨rfl, rest, rfl⟩ := superMember_first ha hc hframe hkeeps habove hfound
      have hrest := habove.tail_of_ancestor ha
      have hnone : rest = [] := by
        cases rest with
        | nil => rfl
        | cons head rest =>
            obtain ⟨hhead, hdeclared⟩ := (hrest.complete head.1 head.2).mp List.mem_cons_self
            exact absurd (hkeeps.declares hdeclared) (hlast _ _ (hkeeps.ancestor hhead))
      subst hnone
      refine cascaded_call q hcalled ⟨hcalm.frames, hcalm.classes, [], List.nil_prefix, ?_,
        fun _ _ _ => rfl⟩
      rw [List.filterMap_nil]
      exact hcalm.output.trans (Array.append_empty).symm
  -- what is calm changes neither the running method nor the classes
  | @before α β x y m hcalm _ ih =>
      refine Cascaded.of_before hcalm fun a m' hok => ?_
      obtain ⟨_, hframes, hclasses⟩ := hcalm.ok hok
      refine ih a m' hok hc ?_ (hkeeps.trans hclasses) habove
      unfold Machine.frame?
      rw [hframes]
      exact hframe
  | after _ hcalm ih => exact Cascaded.of_after (ih hc hframe hkeeps habove) hcalm
  | inScope _ ih => exact Cascaded.of_inScope (ih hc hframe hkeeps habove)
  | halted hcalm hhalt =>
      rw [hhalt]
      exact Cascaded.of_halted hcalm hhalt

end Cascade

end Lipi
