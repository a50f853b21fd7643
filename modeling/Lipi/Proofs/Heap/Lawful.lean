import Lipi.Heap.Scope
import Lipi.Proofs.Dict
import Lipi.Proofs.Heap.Elements
import Lipi.Proofs.Heap.Lineage

set_option autoImplicit false

/-! # Lawful heaps

What a run never breaks. On a lawful heap every class is made after its superclass, every method
stands in one table of one class under one name, and **every value that is held is good**: a method
that is bound to a receiver is declared by the class of the receiver or one of its ancestors, in the
table of instance methods, and a method that is bound to no receiver is static. In later heaps
classes and the classes of instances stay what they are, and so do the values of constants, and no
array is shorter (`Grows`). Every change that a run makes to a heap is shown here to keep both.
-/

namespace Lipi

namespace Heap

/-! ## What a heap holds -/

/-- A value stands somewhere in the heap: it is bound to a name, or it is an element of an array or
a field of an instance. -/
inductive Holds (h : Heap) : Value → Prop where
  | binding {i : Nat} {scope : Scope} {e : String × Binding} : h.scopes[i]? = some scope →
    e ∈ scope.bindings.entries → Holds h e.2.value
  | element {i : Nat} {elements : Array Value} {v : Value} : h.arrays[i]? = some elements →
    v ∈ elements → Holds h v
  | field {i : Nat} {object : InstanceObject} {e : String × Value} : h.instances[i]? = some object →
    e ∈ object.fields.entries → Holds h e.2

/-- What is read of an object that holds something is held. -/
theorem holds_field {h : Heap} {o : InstanceRef} {name : String} {v : Value}
    (hv : (h.instanceObject o).fields.get? name = some v) : h.Holds v := by
  unfold instanceObject at hv
  cases hobject : h.instances[o.index]? with
  | none =>
      rw [hobject] at hv
      cases hv
  | some object =>
      rw [hobject] at hv
      exact .field hobject (Dict.mem_of_get? hv)

theorem holds_element {h : Heap} {a : ArrayRef} {i : Nat} {v : Value}
    (hv : (h.elements a)[i]? = some v) : h.Holds v := by
  unfold elements at hv
  cases harray : h.arrays[a.index]? with
  | none =>
      rw [harray] at hv
      exact absurd hv (by simp)
  | some elements =>
      rw [harray] at hv
      exact .element harray (Array.mem_of_getElem? hv)

/-- What a name stands for, as seen from a scope, is held. -/
theorem holds_of_lookup? {h : Heap} {s : ScopeRef} {name : String} {v : Value}
    (hv : h.lookup? s name = some v) : h.Holds v := by
  obtain ⟨b, hb, rfl⟩ := Option.map_eq_some_iff.mp hv
  obtain ⟨d, _, hd⟩ := Option.bind_eq_some_iff.mp hb
  obtain ⟨scope, hscope, hget⟩ := Option.bind_eq_some_iff.mp hd
  exact .binding hscope (Dict.mem_of_get? hget)

/-- A method is at home in a class: in the table of instance methods of an ancestor of the class of
its receiver, or without a receiver in the table of static methods. -/
inductive Homed (h : Heap) : Option InstanceRef → MethodRef → ClassRef → Prop where
  | ofInstance {o : InstanceRef} {f : MethodRef} {home : ClassRef} {name : String} :
    o.index < h.instances.size → h.Lineage (h.classOf o) home →
    h.Declares home .ofInstances name f → Homed h (some o) f home
  | ofClass {f : MethodRef} {home : ClassRef} {name : String} :
    h.Declares home .ofClass name f → Homed h none f home

end Heap

/-- A value refers to what there is, and a method to a class in which it is at home. -/
def Value.Good (h : Heap) : Value → Prop
  | .bound receiver f home => h.Homed receiver f home
  | .object o => o.index < h.instances.size
  | .ofClass c => c.index < h.classes.size
  | _ => True

/-- The home of an active call with a receiver is the class of the receiver or an ancestor. -/
def Frame.Good (h : Heap) (frame : Frame) : Prop :=
  ∀ o, frame.receiver = some o → o.index < h.instances.size ∧ h.Lineage (h.classOf o) frame.home

namespace Heap

/-- What stays in later heaps. -/
structure Grows (h h' : Heap) : Prop where
  classes : KeepsClasses h h'
  instances : ∀ (i : Nat) (o : InstanceObject), h.instances[i]? = some o →
    ∃ o', h'.instances[i]? = some o' ∧ o'.ofClass = o.ofClass
  constants : ∀ (s : ScopeRef) (name : String) (v : Value),
    h.bindingAt? s name = some ⟨v, true⟩ → h'.bindingAt? s name = some ⟨v, true⟩
  arrays : KeepsArrays h h'

/-- What every heap of a run satisfies. -/
structure Lawful (h : Heap) : Prop where
  ancestral : h.Ancestral
  /-- The methods that are declared have been made. -/
  made : ∀ (c : ClassRef) (table : MethodTable) (name : String) (f : MethodRef),
    h.Declares c table name f → f.index < h.methods.size
  /-- Every method is declared once. -/
  once : ∀ (c d : ClassRef) (table table' : MethodTable) (name name' : String) (f : MethodRef),
    h.Declares c table name f → h.Declares d table' name' f → c = d ∧ table = table' ∧ name = name'
  values : ∀ v, h.Holds v → v.Good h

theorem grows_refl (h : Heap) : Grows h h :=
  ⟨keepsClasses_refl h, fun _ o ho => ⟨o, ho, rfl⟩, fun _ _ _ hv => hv,
    keepsArrays_of_arrays rfl⟩

theorem Grows.trans {h₁ h₂ h₃ : Heap} (h : Grows h₁ h₂) (h' : Grows h₂ h₃) : Grows h₁ h₃ := by
  refine ⟨h.classes.trans h'.classes, fun i o ho => ?_, fun s name v hv =>
    h'.constants s name v (h.constants s name v hv), h.arrays.trans h'.arrays⟩
  obtain ⟨o₂, ho₂, hclass₂⟩ := h.instances i o ho
  obtain ⟨o₃, ho₃, hclass₃⟩ := h'.instances i o₂ ho₂
  exact ⟨o₃, ho₃, hclass₃.trans hclass₂⟩

/-! ## What is good stays good -/

section Growing

variable {h h' : Heap} (g : Grows h h')
include g

theorem Grows.classOf {o : InstanceRef} (ho : o.index < h.instances.size) :
    o.index < h'.instances.size ∧ h'.classOf o = h.classOf o := by
  obtain ⟨object, hobject, hclass⟩ := g.instances o.index _ (Array.getElem?_eq_getElem ho)
  refine ⟨(Array.getElem?_eq_some_iff.mp hobject).1, ?_⟩
  unfold Heap.classOf instanceObject
  rw [hobject, Array.getElem?_eq_getElem ho]
  exact hclass

theorem Grows.homed {receiver : Option InstanceRef} {f : MethodRef} {home : ClassRef}
    (hf : h.Homed receiver f home) : h'.Homed receiver f home := by
  cases hf with
  | ofInstance ho hline hd =>
      obtain ⟨ho', hclass⟩ := g.classOf ho
      refine .ofInstance ho' ?_ (g.classes.declares hd)
      rw [hclass]
      exact g.classes.lineage hline
  | ofClass hd => exact .ofClass (g.classes.declares hd)

theorem Grows.good {v : Value} (hv : v.Good h) : v.Good h' := by
  cases v with
  | bound receiver f home => exact g.homed hv
  | object o => exact (g.classOf hv).1
  | ofClass c => exact g.classes.valid hv
  | _ => trivial

theorem Grows.frame {frame : Frame} (hf : frame.Good h) : frame.Good h' := by
  intro o ho
  obtain ⟨hvalid, hline⟩ := hf o ho
  obtain ⟨hvalid', hclass⟩ := g.classOf hvalid
  refine ⟨hvalid', ?_⟩
  rw [hclass]
  exact g.classes.lineage hline

end Growing

theorem Homed.frame {h : Heap} {receiver : Option InstanceRef} {f : MethodRef} {home : ClassRef}
    (hf : h.Homed receiver f home) : Frame.Good h ⟨receiver, home⟩ := by
  intro o ho
  cases hf with
  | ofInstance hvalid hline _ =>
      cases ho
      exact ⟨hvalid, hline⟩
  | ofClass _ => cases ho

/-! ## What is changed -/

/-- A declaration is made in the scope itself, if it does not bind the name as a constant. -/
theorem eq_of_defineTarget {h : Heap} {s d : ScopeRef} {name : String}
    (htarget : h.defineTarget s name = .ok d) : d = s ∧ h.isConstantAt s name = false := by
  unfold defineTarget at htarget
  split at htarget
  · cases htarget
  · rename_i hfree
    cases htarget
    exact ⟨rfl, Bool.eq_false_iff.mpr hfree⟩

/-- An assignment is made in the nearest scope that binds the name, if not as a constant. -/
theorem binder?_of_assignTarget {h : Heap} {s d : ScopeRef} {name : String}
    (htarget : h.assignTarget s name = .ok d) :
    h.binder? s name = some d ∧ h.isConstantAt d name = false := by
  unfold assignTarget at htarget
  cases hbinder : h.binder? s name with
  | none =>
      rw [hbinder] at htarget
      cases htarget
  | some place =>
      rw [hbinder] at htarget
      dsimp only at htarget
      split at htarget
      · cases htarget
      · rename_i hfree
        cases htarget
        exact ⟨rfl, Bool.eq_false_iff.mpr hfree⟩

theorem bindingAt?_setBinding (h : Heap) (s s' : ScopeRef) (name name' : String) (b : Binding) :
    (h.setBinding s name b).bindingAt? s' name' =
      if s' = s ∧ name' = name then (h.scope? s).map fun _ => b else h.bindingAt? s' name' := by
  unfold bindingAt? scope? setBinding
  dsimp only
  rw [Array.getElem?_modify]
  by_cases hscope : s' = s
  · subst hscope
    by_cases hname : name' = name
    · subst hname
      rw [if_pos rfl, if_pos ⟨rfl, rfl⟩]
      cases h.scopes[s'.index]? with
      | none => rfl
      | some scope => simp
    · rw [if_pos rfl, if_neg fun hsame => hname hsame.2]
      cases h.scopes[s'.index]? with
      | none => rfl
      | some scope => simp [Ne.symm hname]
  · have hindex : s.index ≠ s'.index := by
      intro heq
      apply hscope
      cases s
      cases s'
      rw [ScopeRef.mk.injEq]
      exact heq.symm
    rw [if_neg hindex, if_neg fun hsame => hscope hsame.1]

/-- The elements of an array that is written at an index: those it had, `undefined` up to the index,
and the new one. -/
theorem mem_written {elements : Array Value} {i : Nat} {v w : Value}
    (hw : w ∈ (if i < elements.size then elements.setIfInBounds i v
      else (elements ++ Array.replicate (i - elements.size) Value.undefined).push v)) :
    w ∈ elements ∨ w = .undefined ∨ w = v := by
  split at hw
  · rcases Array.mem_or_eq_of_mem_setIfInBounds hw with hold | hnew
    · exact .inl hold
    · exact .inr (.inr hnew)
  · rw [Array.mem_push, Array.mem_append, Array.mem_replicate] at hw
    rcases hw with (hold | ⟨_, hfill⟩) | hnew
    · exact .inl hold
    · exact .inr (.inl hfill)
    · exact .inr (.inr hnew)

/-! ## Changes that leave the classes alone -/

theorem lawful_empty : Lawful empty where
  ancestral c p hp := absurd hp.valid (Nat.not_lt_zero _)
  made c _ _ _ hd := absurd hd.valid (Nat.not_lt_zero _)
  once c _ _ _ _ _ _ hd := absurd hd.valid (Nat.not_lt_zero _)
  values v hv := by
    cases hv with
    | binding hs _ => simp [empty] at hs
    | element ha _ => simp [empty] at ha
    | field ho _ => simp [empty] at ho

/-- A heap with the same classes and methods is lawful if what is new in it is good. -/
theorem Lawful.of_same {h h' : Heap} (l : h.Lawful) (hclasses : h'.classes = h.classes)
    (hmethods : h'.methods = h.methods) (g : Grows h h')
    (hvalues : ∀ v, h'.Holds v → h.Holds v ∨ v.Good h) : h'.Lawful := by
  have hobject : ∀ c, h'.classObject c = h.classObject c := by
    intro c
    unfold classObject
    rw [hclasses]
  have hdeclares : ∀ c table name f, h'.Declares c table name f → h.Declares c table name f := by
    intro c table name f hd
    unfold Declares at hd
    rwa [hobject] at hd
  refine ⟨fun c p hp => ?_, fun c table name f hd => ?_, fun c d table table' name name' f hc hd => ?_,
    fun v hv => ?_⟩
  · unfold Parent at hp
    rw [hobject] at hp
    exact l.ancestral c p hp
  · rw [hmethods]
    exact l.made c table name f (hdeclares c table name f hd)
  · exact l.once c d table table' name name' f (hdeclares c table name f hc)
      (hdeclares d table' name' f hd)
  · rcases hvalues v hv with hold | hgood
    · exact g.good (l.values v hold)
    · exact g.good hgood

theorem grows_newScope (h : Heap) (scope : Scope) : Grows h (h.newScope scope).2 := by
  refine ⟨keepsClasses_refl h, fun _ o ho => ⟨o, ho, rfl⟩, fun s name v hv => ?_,
    keepsArrays_of_arrays rfl⟩
  unfold bindingAt? scope? at hv ⊢
  show ((h.scopes.push scope)[s.index]?.bind _) = _
  rw [Array.getElem?_push]
  -- a name is bound in a scope that has been there before
  by_cases hlast : s.index = h.scopes.size
  · rw [hlast, Array.getElem?_eq_none (Nat.le_refl _)] at hv
    cases hv
  · rw [if_neg hlast]
    exact hv

section Changes

variable {h : Heap} (l : h.Lawful)
include l

theorem newScope_lawful (bindings : Dict Binding)
    (hgood : ∀ e ∈ bindings.entries, e.2.value.Good h) (parent : Option ScopeRef) :
    (h.newScope ⟨bindings, parent⟩).2.Lawful ∧ Grows h (h.newScope ⟨bindings, parent⟩).2 := by
  have hgrows := grows_newScope h ⟨bindings, parent⟩
  refine ⟨l.of_same rfl rfl hgrows fun v hv => ?_, hgrows⟩
  cases hv with
  | @binding i scope e hs he =>
      change (h.scopes.push ⟨bindings, parent⟩)[i]? = some scope at hs
      rw [Array.getElem?_push] at hs
      split at hs
      · cases hs
        exact .inr (hgood e he)
      · exact .inl (.binding hs he)
  | element ha he => exact .inl (.element ha he)
  | field ho he => exact .inl (.field ho he)

theorem newArray_lawful (elements : Array Value) (hgood : ∀ v ∈ elements, v.Good h) :
    (h.newArray elements).2.Lawful ∧ Grows h (h.newArray elements).2 := by
  have hgrows : Grows h (h.newArray elements).2 :=
    ⟨keepsClasses_refl h, fun _ o ho => ⟨o, ho, rfl⟩, fun _ _ _ hv => hv,
      keepsArrays_newArray h elements⟩
  refine ⟨l.of_same rfl rfl hgrows fun v hv => ?_, hgrows⟩
  cases hv with
  | binding hs he => exact .inl (.binding hs he)
  | @element i elements' _ ha he =>
      change (h.arrays.push elements)[i]? = some elements' at ha
      rw [Array.getElem?_push] at ha
      split at ha
      · cases ha
        exact .inr (hgood _ he)
      · exact .inl (.element ha he)
  | field ho he => exact .inl (.field ho he)

theorem newFunction_lawful (f : Function) :
    (h.newFunction f).2.Lawful ∧ Grows h (h.newFunction f).2 := by
  have hgrows : Grows h (h.newFunction f).2 :=
    ⟨keepsClasses_refl h, fun _ o ho => ⟨o, ho, rfl⟩, fun _ _ _ hv => hv,
      keepsArrays_of_arrays rfl⟩
  refine ⟨l.of_same rfl rfl hgrows fun v hv => ?_, hgrows⟩
  cases hv with
  | binding hs he => exact .inl (.binding hs he)
  | element ha he => exact .inl (.element ha he)
  | field ho he => exact .inl (.field ho he)

theorem newInstance_lawful (c : ClassRef) :
    (h.newInstance c).2.Lawful ∧ Grows h (h.newInstance c).2 := by
  have hgrows : Grows h (h.newInstance c).2 := by
    refine ⟨keepsClasses_refl h, fun i o ho => ⟨o, ?_, rfl⟩, fun _ _ _ hv => hv,
      keepsArrays_of_arrays rfl⟩
    show (h.instances.push ⟨c, .empty⟩)[i]? = some o
    rw [Array.getElem?_push, if_neg (Nat.ne_of_lt (Array.getElem?_eq_some_iff.mp ho).1)]
    exact ho
  refine ⟨l.of_same rfl rfl hgrows fun v hv => ?_, hgrows⟩
  cases hv with
  | binding hs he => exact .inl (.binding hs he)
  | element ha he => exact .inl (.element ha he)
  | @field i object e ho he =>
      change (h.instances.push ⟨c, .empty⟩)[i]? = some object at ho
      rw [Array.getElem?_push] at ho
      split at ho
      · cases ho
        cases he
      · exact .inl (.field ho he)

/-- A name is bound where it is not bound as a constant. -/
theorem setBinding_lawful {s : ScopeRef} {name : String} {b : Binding}
    (hfree : h.isConstantAt s name = false) (hgood : b.value.Good h) :
    (h.setBinding s name b).Lawful ∧ Grows h (h.setBinding s name b) := by
  -- a constant would have been kept, but the name is not bound as one
  have hgrows : Grows h (h.setBinding s name b) := by
    refine ⟨keepsClasses_refl h, fun _ o ho => ⟨o, ho, rfl⟩, fun s' name' v hv => ?_,
      keepsArrays_of_arrays rfl⟩
    rw [bindingAt?_setBinding]
    split
    · rename_i hsame
      obtain ⟨rfl, rfl⟩ := hsame
      unfold isConstantAt at hfree
      rw [hv] at hfree
      cases hfree
    · exact hv
  refine ⟨l.of_same rfl rfl hgrows fun v hv => ?_, hgrows⟩
  -- what is held in the new heap was held before, or is the new value
  cases hv with
  | @binding i scope e hs he =>
      change (h.scopes.modify s.index _)[i]? = some scope at hs
      rw [Array.getElem?_modify] at hs
      split at hs
      · obtain ⟨old, hold, rfl⟩ := Option.map_eq_some_iff.mp hs
        rcases Dict.mem_insert he with hmem | heq
        · exact .inl (.binding hold hmem)
        · rw [heq]
          exact .inr hgood
      · exact .inl (.binding hs he)
  | element ha he => exact .inl (.element ha he)
  | field ho he => exact .inl (.field ho he)

theorem setElement_lawful (a : ArrayRef) (i : Nat) {v : Value} (hgood : v.Good h) :
    (h.setElement a i v).Lawful ∧ Grows h (h.setElement a i v) := by
  have hgrows : Grows h (h.setElement a i v) :=
    ⟨keepsClasses_refl h, fun _ o ho => ⟨o, ho, rfl⟩, fun _ _ _ hv => hv,
      keepsArrays_setElement h a i v⟩
  refine ⟨l.of_same rfl rfl hgrows fun w hw => ?_, hgrows⟩
  cases hw with
  | binding hs he => exact .inl (.binding hs he)
  | @element j elements _ ha he =>
      change (h.arrays.modify a.index _)[j]? = some elements at ha
      rw [Array.getElem?_modify] at ha
      split at ha
      · obtain ⟨old, hold, rfl⟩ := Option.map_eq_some_iff.mp ha
        rcases mem_written he with hmem | rfl | rfl
        · exact .inl (.element hold hmem)
        · exact .inr trivial
        · exact .inr hgood
      · exact .inl (.element ha he)
  | field ho he => exact .inl (.field ho he)

theorem setField_lawful (o : InstanceRef) (name : String) {v : Value} (hgood : v.Good h) :
    (h.setField o name v).Lawful ∧ Grows h (h.setField o name v) := by
  have hgrows : Grows h (h.setField o name v) := by
    refine ⟨keepsClasses_refl h, fun i object hobject => ?_, fun _ _ _ hv => hv,
      keepsArrays_of_arrays rfl⟩
    show ∃ o', (h.instances.modify o.index _)[i]? = some o' ∧ _
    rw [Array.getElem?_modify, hobject]
    split
    · exact ⟨_, rfl, rfl⟩
    · exact ⟨_, rfl, rfl⟩
  refine ⟨l.of_same rfl rfl hgrows fun w hw => ?_, hgrows⟩
  cases hw with
  | binding hs he => exact .inl (.binding hs he)
  | element ha he => exact .inl (.element ha he)
  | @field i object e ho he =>
      change (h.instances.modify o.index _)[i]? = some object at ho
      rw [Array.getElem?_modify] at ho
      split at ho
      · obtain ⟨old, hold, rfl⟩ := Option.map_eq_some_iff.mp ho
        rcases Dict.mem_insert he with hmem | heq
        · exact .inl (.field hold hmem)
        · rw [heq]
          exact .inr hgood
      · exact .inl (.field ho he)

end Changes

/-! ## Declaring a class -/

/-- Two tables as one. -/
def tables (table staticTable : Dict MethodRef) : MethodTable → Dict MethodRef
  | .ofInstances => table
  | .ofClass => staticTable

/-- Every method of two tables is one of those that have the numbers from `low` up to `high`, and
stands there once. -/
structure Numbered (low high : Nat) (t : MethodTable → Dict MethodRef) : Prop where
  range : ∀ (table : MethodTable) (name : String) (f : MethodRef), (t table).get? name = some f →
    low ≤ f.index ∧ f.index < high
  once : ∀ (table table' : MethodTable) (name name' : String) (f : MethodRef),
    (t table).get? name = some f → (t table').get? name' = some f → table = table' ∧ name = name'

/-- A method that has the next number is entered. -/
theorem Numbered.insert {low high : Nat} {t t' : MethodTable → Dict MethodRef}
    (hn : Numbered low high t) (hlow : low ≤ high) (table : MethodTable) {name : String}
    (hentered : t' table = (t table).insert name ⟨high⟩)
    (hother : ∀ other, other ≠ table → t' other = t other) : Numbered low (high + 1) t' := by
  -- what stands in the tables now
  have hget : ∀ (u : MethodTable) (x : String) (f : MethodRef), (t' u).get? x = some f →
      (u = table ∧ x = name ∧ f = ⟨high⟩) ∨ (t u).get? x = some f := by
    intro u x f hf
    by_cases hu : u = table
    · subst hu
      rw [hentered, Dict.get?_insert] at hf
      split at hf
      · rename_i hx
        exact .inl ⟨rfl, hx.symm, (Option.some.inj hf).symm⟩
      · exact .inr hf
    · rw [hother u hu] at hf
      exact .inr hf
  refine ⟨fun u x f hf => ?_, fun u u' x x' f hf hf' => ?_⟩
  · rcases hget u x f hf with ⟨_, _, rfl⟩ | hold
    · exact ⟨hlow, Nat.lt_succ_self high⟩
    · have := hn.range u x f hold
      omega
  · rcases hget u x f hf with ⟨rfl, rfl, rfl⟩ | hold
    · rcases hget u' x' _ hf' with ⟨rfl, rfl, _⟩ | hold'
      · exact ⟨rfl, rfl⟩
      · exact absurd (hn.range u' x' _ hold').2 (Nat.lt_irrefl high)
    · rcases hget u' x' f hf' with ⟨_, _, rfl⟩ | hold'
      · exact absurd (hn.range u x _ hold).2 (Nat.lt_irrefl high)
      · exact hn.once u u' x x' f hold hold'

/-- What making the methods of a declaration leaves alone. -/
theorem newMethods_same (ms : List Method) (table staticTable : Dict MethodRef) (h : Heap) :
    ∃ methods, (newMethods ms table staticTable h).2.2 = { h with methods } ∧
      h.methods.size ≤ methods.size := by
  induction ms generalizing table staticTable h with
  | nil => exact ⟨h.methods, rfl, Nat.le_refl _⟩
  | cons m ms ih =>
      have hpush : (h.newMethod m.object).2.methods.size = h.methods.size + 1 := Array.size_push _
      rw [newMethods_cons]
      split
      · obtain ⟨methods, hsame, hsize⟩ := ih table _ (h.newMethod m.object).2
        exact ⟨methods, hsame, by omega⟩
      · obtain ⟨methods, hsame, hsize⟩ := ih _ staticTable (h.newMethod m.object).2
        exact ⟨methods, hsame, by omega⟩

theorem scopes_declareClass (h : Heap) (name : String) (superclass : Option ClassRef)
    (ms : List Method) (closure : ScopeRef) :
    (h.declareClass name superclass ms closure).2.scopes = h.scopes := by
  obtain ⟨methods, hsame, _⟩ := newMethods_same ms .empty .empty h
  unfold declareClass
  dsimp only
  rw [hsame]
  rfl

/-- The methods of a declaration are numbered in the order of their making. -/
theorem newMethods_numbered {low : Nat} (ms : List Method) (table staticTable : Dict MethodRef)
    (h : Heap) (hlow : low ≤ h.methods.size)
    (hn : Numbered low h.methods.size (tables table staticTable)) :
    Numbered low (newMethods ms table staticTable h).2.2.methods.size
      (tables (newMethods ms table staticTable h).1 (newMethods ms table staticTable h).2.1) := by
  induction ms generalizing table staticTable h with
  | nil => exact hn
  | cons m ms ih =>
      have hpush : (h.newMethod m.object).2.methods.size = h.methods.size + 1 := Array.size_push _
      rw [newMethods_cons]
      split
      · refine ih table _ (h.newMethod m.object).2 (by omega) ?_
        rw [hpush]
        refine hn.insert hlow .ofClass rfl fun other hother => ?_
        cases other with
        | ofInstances => rfl
        | ofClass => exact absurd rfl hother
      · refine ih _ staticTable (h.newMethod m.object).2 (by omega) ?_
        rw [hpush]
        refine hn.insert hlow .ofInstances rfl fun other hother => ?_
        cases other with
        | ofInstances => exact absurd rfl hother
        | ofClass => rfl

/-- A class whose superclass is there and whose methods are new. -/
theorem newClass_lawful {h : Heap} (l : h.Lawful) {object : ClassObject}
    {methods : Array MethodObject} (hsize : h.methods.size ≤ methods.size)
    (hsuper : ∀ p, object.superclass = some p → p.index < h.classes.size)
    (hn : Numbered h.methods.size methods.size object.table) :
    Lawful { h with methods, classes := h.classes.push object } ∧
      Grows h { h with methods, classes := h.classes.push object } := by
  have hkeeps : KeepsClasses h { h with methods, classes := h.classes.push object } := by
    intro i c hc
    show (h.classes.push object)[i]? = some c
    rw [Array.getElem?_push, if_neg (Nat.ne_of_lt (Array.getElem?_eq_some_iff.mp hc).1)]
    exact hc
  have hgrows : Grows h { h with methods, classes := h.classes.push object } :=
    ⟨hkeeps, fun _ o ho => ⟨o, ho, rfl⟩, fun _ _ _ hv => hv, keepsArrays_of_arrays rfl⟩
  -- a class is the new one, or it is what it was
  have hobject : ∀ c : ClassRef,
      (c.index = h.classes.size ∧
        classObject { h with methods, classes := h.classes.push object } c = object) ∨
      (c.index ≠ h.classes.size ∧
        classObject { h with methods, classes := h.classes.push object } c = h.classObject c) := by
    intro c
    unfold classObject
    dsimp only
    rw [Array.getElem?_push]
    by_cases hnew : c.index = h.classes.size
    · rw [if_pos hnew]
      exact .inl ⟨hnew, rfl⟩
    · rw [if_neg hnew]
      exact .inr ⟨hnew, rfl⟩
  have hdeclares : ∀ {c table name f},
      Declares { h with methods, classes := h.classes.push object } c table name f →
      (c.index = h.classes.size ∧ (object.table table).get? name = some f) ∨
      h.Declares c table name f := by
    intro c table name f hd
    unfold Declares at hd
    rcases hobject c with ⟨hnew, heq⟩ | ⟨_, heq⟩ <;> rw [heq] at hd
    · exact .inl ⟨hnew, hd⟩
    · exact .inr hd
  refine ⟨⟨fun c p hp => ?_, fun c table name f hd => ?_, fun c d u u' x x' f hc hd => ?_,
    fun v hv => ?_⟩, hgrows⟩
  · unfold Parent at hp
    rcases hobject c with ⟨hnew, heq⟩ | ⟨_, heq⟩ <;> rw [heq] at hp
    · rw [hnew]
      exact hsuper p hp
    · exact l.ancestral c p hp
  · rcases hdeclares hd with ⟨_, hnew⟩ | hold
    · exact (hn.range table name f hnew).2
    · exact Nat.lt_of_lt_of_le (l.made c table name f hold) hsize
  · rcases hdeclares hc with ⟨hcnew, hf⟩ | hold <;> rcases hdeclares hd with ⟨hdnew, hf'⟩ | hold'
    · obtain ⟨rfl, rfl⟩ := hn.once u u' x x' f hf hf'
      refine ⟨?_, rfl, rfl⟩
      cases c
      cases d
      rw [ClassRef.mk.injEq]
      exact hcnew.trans hdnew.symm
    · have hlow := (hn.range u x f hf).1
      have hhigh := l.made d u' x' f hold'
      omega
    · have hlow := (hn.range u' x' f hf').1
      have hhigh := l.made c u x f hold
      omega
    · exact l.once c d u u' x x' f hold hold'
  · have hheld : h.Holds v := by
      cases hv with
      | binding hs he => exact .binding hs he
      | element ha he => exact .element ha he
      | field ho he => exact .field ho he
    exact hgrows.good (l.values v hheld)

theorem declareClass_lawful {h : Heap} (l : h.Lawful) (name : String) {superclass : Option ClassRef}
    (hsuper : ∀ p, superclass = some p → p.index < h.classes.size) (ms : List Method)
    (closure : ScopeRef) :
    (h.declareClass name superclass ms closure).2.Lawful ∧
      Grows h (h.declareClass name superclass ms closure).2 ∧
      (h.declareClass name superclass ms closure).1.index <
        (h.declareClass name superclass ms closure).2.classes.size := by
  have hempty : Numbered h.methods.size h.methods.size (tables .empty .empty) := by
    refine ⟨fun table name f hf => ?_, fun table _ name _ f hf => ?_⟩ <;> cases table <;> cases hf
  have hnumbered := newMethods_numbered ms .empty .empty h (Nat.le_refl _) hempty
  obtain ⟨methods, hsame, hsize⟩ := newMethods_same ms .empty .empty h
  unfold declareClass
  dsimp only
  rw [hsame] at hnumbered ⊢
  generalize (newMethods ms .empty .empty h).1 = table at hnumbered ⊢
  generalize (newMethods ms .empty .empty h).2.1 = staticTable at hnumbered ⊢
  have htables : tables table staticTable =
      (⟨name, superclass, table, staticTable, closure⟩ : ClassObject).table := by
    funext u
    cases u <;> rfl
  rw [htables] at hnumbered
  obtain ⟨hlawful, hgrows⟩ := newClass_lawful l hsize hsuper hnumbered
  refine ⟨hlawful, hgrows, ?_⟩
  show h.classes.size < (h.classes.push _).size
  rw [Array.size_push]
  exact Nat.lt_succ_self _

end Heap

end Lipi
