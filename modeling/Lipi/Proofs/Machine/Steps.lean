import Lipi.Proofs.Heap.References
import Lipi.Proofs.Machine.Oblivious

set_option autoImplicit false

/-! # Elementary steps as equations

What the receiver, the superclass and the methods of the superclass are depends on the innermost
frame and on the heap, and looking at them changes nothing. Declarations and assignments change the
heap at one place, which is found first.
-/

namespace Lipi

namespace Machine

/-- The innermost frame is one of the active calls. -/
theorem mem_frames_of_frame? {m : Machine} {frame : Frame} (hf : m.frame? = some frame) :
    some frame ∈ m.frames := by
  unfold frame? at hf
  cases hframes : m.frames with
  | nil =>
      rw [hframes] at hf
      cases hf
  | cons f fs =>
      rw [hframes] at hf
      change f = some frame at hf
      rw [hf]
      exact List.mem_cons_self

/-! ## Members -/

/-- What is read as a member of a value: a field, a method of its class, an element, or a value that
refers to nothing. -/
inductive IsMember (m : Machine) : Value → Value → Prop where
  | field {o : InstanceRef} {name : String} {v : Value} :
    (m.heap.instanceObject o).fields.get? name = some v → IsMember m (.object o) v
  | method {o : InstanceRef} {name : String} {home : ClassRef} {f : MethodRef} :
    m.heap.findMethod? (m.heap.classOf o) .ofInstances name = some (home, f) →
    IsMember m (.object o) (.bound (some o) f home)
  | staticMethod {c home : ClassRef} {name : String} {f : MethodRef} :
    m.heap.findMethod? c .ofClass name = some (home, f) →
    IsMember m (.ofClass c) (.bound none f home)
  | element {a : ArrayRef} {i : Nat} {v : Value} :
    (m.heap.elements a)[i]? = some v → IsMember m (.array a) v
  | plain {target v : Value} : v.refs = [] → IsMember m target v

theorem methodMember_ok {m : Machine} {target v : Value} {receiver : Option InstanceRef}
    {c : ClassRef} {table : MethodTable} {name : String}
    (hv : m.methodMember target receiver c table name = .ok v) :
    ∃ home f, m.heap.findMethod? c table name = some (home, f) ∧ v = .bound receiver f home := by
  unfold methodMember at hv
  cases hfound : m.heap.findMethod? c table name with
  | none =>
      rw [hfound] at hv
      cases hv
  | some found =>
      obtain ⟨home, f⟩ := found
      rw [hfound] at hv
      dsimp only at hv
      split at hv
      · cases hv
        exact ⟨home, f, rfl, rfl⟩
      · cases hv

theorem isMember_of_getMember {m : Machine} {target v : Value} {key : Key}
    (hv : m.getMember target key = .ok v) : m.IsMember target v := by
  unfold getMember at hv
  split at hv
  · cases hv
  · cases hv
  · rename_i o
    dsimp only at hv
    cases hfield : (m.heap.instanceObject o).fields.get? (key.text m.heap) with
    | some w =>
        rw [hfield] at hv
        cases hv
        exact .field hfield
    | none =>
        rw [hfield] at hv
        obtain ⟨home, f, hfound, rfl⟩ := methodMember_ok hv
        exact .method hfound
  · obtain ⟨home, f, hfound, rfl⟩ := methodMember_ok hv
    exact .staticMethod hfound
  · cases hv
    exact .plain rfl
  · rename_i a index
    cases hv
    cases helement : index.index?.bind fun i => (m.heap.elements a)[i]? with
    | none => exact .plain rfl
    | some w =>
        obtain ⟨i, _, hi⟩ := Option.bind_eq_some_iff.mp helement
        exact .element hi
  · cases hv
    exact .plain rfl
  · cases hv
    refine .plain ?_
    split <;> rfl
  · cases hv

theorem getMember_object (m : Machine) (o : InstanceRef) (key : Key) :
    m.getMember (.object o) key =
      match (m.heap.instanceObject o).fields.get? (key.text m.heap) with
      | some value => .ok value
      | none =>
        m.methodMember (.object o) (some o) (m.heap.classOf o) .ofInstances (key.text m.heap) :=
  rfl

theorem getMember_character (m : Machine) (s : String) (v : Value) :
    m.getMember (.string s) (.computed v) =
      .ok (match v.index?.bind (characterAt? s) with
        | some c => .string c.toString
        | none => .undefined) :=
  rfl

theorem memberPlace_element (h : Heap) (a : ArrayRef) (v : Value) :
    memberPlace h (.array a) (.computed v) =
      match v.index?.filter (· < maxArrayLength) with
      | some i => .ok (.element a i)
      | none => .error (.invalidIndex (h.text v)) :=
  rfl

end Machine

namespace Eval

variable (p : Position) (m : Machine)

theorem methodFrame_eq (outside : RuntimeError.Cause) :
    methodFrame outside p m =
      match m.frame? with
      | some frame => .ok frame m
      | none => .error (.failed ⟨outside, some p⟩) m :=
  rfl

theorem receiver_eq :
    receiver p m =
      match m.frame?.bind (·.receiver) with
      | some o => .ok (.object o) m
      | none => .error (.failed ⟨.thisOutsideMethod, some p⟩) m := by
  unfold receiver
  cases hframe : m.frame? with
  | none =>
      rw [bind_error _ (by rw [methodFrame_eq, hframe])]
      rfl
  | some frame =>
      rw [bind_ok _ (by rw [methodFrame_eq, hframe])]
      cases hreceiver : frame.receiver with
      | none => simp only [Option.bind_some, hreceiver]; rfl
      | some o => simp only [Option.bind_some, hreceiver]; rfl

theorem superTarget_eq :
    superTarget p m =
      match m.frame? with
      | none => .error (.failed ⟨.superOutsideMethod, some p⟩) m
      | some frame =>
        match (m.heap.classObject frame.home).superclass with
        | some parent => .ok (frame, parent) m
        | none => .error (.failed ⟨.noSuperclass (m.heap.classObject frame.home).name, some p⟩) m := by
  unfold superTarget
  cases hframe : m.frame? with
  | none =>
      rw [bind_error _ (by rw [methodFrame_eq, hframe])]
  | some frame =>
      rw [bind_ok _ (by rw [methodFrame_eq, hframe])]
      show superOf frame p m.heap m = _
      unfold superOf
      cases hparent : (m.heap.classObject frame.home).superclass with
      | none => simp only [hparent]; rfl
      | some parent => simp only [hparent]; rfl

/-- The superclass has been found for the innermost frame. -/
theorem superTarget_ok {t : Frame × ClassRef} {m' : Machine} (h : superTarget p m = .ok t m') :
    m' = m ∧ m.frame? = some t.1 ∧ (m.heap.classObject t.1.home).superclass = some t.2 := by
  rw [superTarget_eq] at h
  cases hframe : m.frame? with
  | none =>
      rw [hframe] at h
      cases h
  | some frame =>
      rw [hframe] at h
      cases hparent : (m.heap.classObject frame.home).superclass with
      | none =>
          simp only [hparent] at h
          cases h
      | some parent =>
          simp only [hparent] at h
          cases h
          exact ⟨rfl, rfl, hparent⟩

theorem superMember_eq (name : String) :
    superMember name p m =
      match superTarget p m with
      | .error halt m' => .error halt m'
      | .ok t m' =>
        match m'.heap.findMethod? t.2 (superTable t.1) name with
        | some (home, method) => .ok (.bound t.1.receiver method home) m'
        | none =>
          .error (.failed ⟨.undefinedProperty name
            ("<class " ++ (m'.heap.classObject t.2).name ++ ">"), some p⟩) m' := by
  unfold superMember
  cases htarget : superTarget p m with
  | error halt m' => rw [bind_error _ htarget]
  | ok t m' =>
      rw [bind_ok _ htarget]
      show superMethod t name p m'.heap m' = _
      unfold superMethod
      cases hfound : m'.heap.findMethod? t.2 (superTable t.1) name with
      | none => simp only [hfound]; rfl
      | some found => simp only [hfound]; rfl

/-- What `upar.name` gives is found from the superclass of the home of the running method, and is
bound to its receiver. -/
theorem superMember_cases (name : String) :
    (∃ halt, superMember name p m = .error halt m) ∨
      ∃ frame parent home f, m.frame? = some frame ∧
        (m.heap.classObject frame.home).superclass = some parent ∧
        m.heap.findMethod? parent (superTable frame) name = some (home, f) ∧
        superMember name p m = .ok (.bound frame.receiver f home) m := by
  rw [superMember_eq]
  cases htarget : superTarget p m with
  | error halt m' =>
      rw [superTarget_eq] at htarget
      split at htarget
      · cases htarget
        exact .inl ⟨_, rfl⟩
      · split at htarget <;> cases htarget
        exact .inl ⟨_, rfl⟩
  | ok t m' =>
      obtain ⟨rfl, hframe, hparent⟩ := superTarget_ok p m htarget
      dsimp only
      cases hfound : m'.heap.findMethod? t.2 (superTable t.1) name with
      | none => exact .inl ⟨_, rfl⟩
      | some found => exact .inr ⟨t.1, t.2, found.1, found.2, hframe, hparent, hfound, rfl⟩

theorem getMember_eq (target : Value) (key : Key) :
    getMember target key p m = lift p (m.getMember target key) m := by
  unfold getMember
  cases m.getMember target key <;> rfl

theorem declare_eq (name : String) (v : Value) (constant : Bool) :
    declare name v constant p m =
      update p (·.defineTarget m.environment name) (fun d h => h.setBinding d name ⟨v, constant⟩) m :=
  rfl

theorem assign_eq (name : String) (v : Value) :
    assign name v p m =
      update p (·.assignTarget m.environment name) (fun d h => h.setBinding d name ⟨v, false⟩) m :=
  rfl

/-! ## What these steps leave aside -/

section Aside

variable {change : Machine → Machine} (h : Machine.Aside change)
include h

theorem oblivious_lookup (name : String) : (lookup name p).Oblivious change := by
  intro m
  unfold lookup
  rw [h.heap, h.environment]
  cases m.heap.lookup? m.environment name <;> rfl

theorem oblivious_receiver : (receiver p).Oblivious change := by
  intro m
  rw [receiver_eq, receiver_eq, h.frame? m]
  cases m.frame?.bind (·.receiver) <;> rfl

theorem oblivious_superTarget : (superTarget p).Oblivious change := by
  intro m
  rw [superTarget_eq, superTarget_eq, h.frame? m, h.heap]
  cases m.frame? with
  | none => rfl
  | some frame =>
      dsimp only
      cases (m.heap.classObject frame.home).superclass <;> rfl

theorem oblivious_superMember (name : String) : (superMember name p).Oblivious change := by
  intro m
  rw [superMember_eq, superMember_eq, oblivious_superTarget p h m]
  cases superTarget p m with
  | error halt m' => rfl
  | ok t m' =>
      show (match (change m').heap.findMethod? t.2 (superTable t.1) name with
        | some (home, method) => _
        | none => _ : EStateM.Result Halt Machine Value) = _
      rw [h.heap]
      dsimp only
      cases m'.heap.findMethod? t.2 (superTable t.1) name <;> rfl

omit h in
theorem oblivious_lift {α : Type} (r : Except RuntimeError.Cause α) :
    (lift p r).Oblivious change := by
  intro m
  cases r <;> rfl

end Aside

end Eval

end Lipi
