import Lipi.Heap.Scope
import Lipi.Proofs.Dict
import Lipi.Proofs.Heap.Lineage

set_option autoImplicit false

/-! # What refers to what

Values refer to objects of the heap, and objects to other objects: a scope to the scope around it
and to what its names stand for, an array to its elements, a function and a class to the scope of
their declaration, a class also to its superclass and its methods, an instance to its class and its
fields. **A search never leaves what can be reached from where it starts** (`Heap.Closed`): names,
fields, elements and methods are found inside every set of objects that refer only to one another.
-/

namespace Lipi

/-! ## References -/

/-- A reference to an object of any sort. -/
inductive Ref where
  | scope (s : ScopeRef)
  | array (a : ArrayRef)
  | function (f : FunctionRef)
  | method (f : MethodRef)
  | ofClass (c : ClassRef)
  | object (o : InstanceRef)
deriving Repr, DecidableEq, Inhabited

/-- The objects to which a value refers. A bound method refers to its receiver and to the class that
declares it. -/
def Value.refs : Value → List Ref
  | array a => [.array a]
  | function f => [.function f]
  | bound receiver f home => .method f :: .ofClass home :: (receiver.map Ref.object).toList
  | ofClass c => [.ofClass c]
  | object o => [.object o]
  | _ => []

/-- A scope refers to the scope around it and to what its names stand for. -/
def Scope.RefersTo (scope : Scope) (r : Ref) : Prop :=
  (∃ p, scope.parent = some p ∧ r = .scope p) ∨ ∃ e ∈ scope.bindings.entries, r ∈ e.2.value.refs

/-- A class refers to its superclass, its methods, and the scope in which it was declared. -/
def ClassObject.RefersTo (c : ClassObject) (r : Ref) : Prop :=
  (∃ p, c.superclass = some p ∧ r = .ofClass p) ∨
    (∃ table name f, (c.table table).get? name = some f ∧ r = .method f) ∨ r = .scope c.closure

/-- An instance refers to its class and to its fields. -/
def InstanceObject.RefersTo (o : InstanceObject) (r : Ref) : Prop :=
  r = .ofClass o.ofClass ∨ ∃ e ∈ o.fields.entries, r ∈ e.2.refs

namespace Heap

/-- The object of one reference refers to another one. A method refers to nothing. -/
def RefersTo (h : Heap) : Ref → Ref → Prop
  | .scope s, r => ∃ scope, h.scope? s = some scope ∧ scope.RefersTo r
  | .array a, r => ∃ v ∈ h.elements a, r ∈ v.refs
  | .function f, r => r = .scope (h.function f).closure
  | .method _, _ => False
  | .ofClass c, r => (h.classObject c).RefersTo r
  | .object o, r => (h.instanceObject o).RefersTo r

/-- The object of a reference has been made. -/
def Has (h : Heap) : Ref → Prop
  | .scope s => s.index < h.scopes.size
  | .array a => a.index < h.arrays.size
  | .function f => f.index < h.functions.size
  | .method f => f.index < h.methods.size
  | .ofClass c => c.index < h.classes.size
  | .object o => o.index < h.instances.size

instance (h : Heap) : (r : Ref) → Decidable (h.Has r)
  | .scope _ | .array _ | .function _ | .method _ | .ofClass _ | .object _ => Nat.decLt _ _

/-- The object of a reference is the same in two heaps. -/
def SameAt (h h' : Heap) : Ref → Prop
  | .scope s => h'.scopes[s.index]? = h.scopes[s.index]?
  | .array a => h'.arrays[a.index]? = h.arrays[a.index]?
  | .function f => h'.functions[f.index]? = h.functions[f.index]?
  | .method f => h'.methods[f.index]? = h.methods[f.index]?
  | .ofClass c => h'.classes[c.index]? = h.classes[c.index]?
  | .object o => h'.instances[o.index]? = h.instances[o.index]?

/-- Every object of a heap is in another one as well. -/
def Within (h h' : Heap) : Prop := ∀ r, h.Has r → h'.Has r

/-- Objects that refer only to one another. -/
def Closed (h : Heap) (inside : Ref → Prop) : Prop :=
  ∀ r r', inside r → h.RefersTo r r' → inside r'

end Heap

/-- A value refers only to certain objects. -/
def Value.Inside (inside : Ref → Prop) (v : Value) : Prop := ∀ r ∈ v.refs, inside r

/-- The receiver and the home of a call are certain objects. -/
structure Frame.Inside (inside : Ref → Prop) (frame : Frame) : Prop where
  receiver : ∀ o, frame.receiver = some o → inside (.object o)
  home : inside (.ofClass frame.home)

/-! ## The same object in two heaps -/

namespace Heap

variable {h h' h'' : Heap} {r r' : Ref}

theorem sameAt_refl (h : Heap) (r : Ref) : h.SameAt h r := by
  cases r <;> rfl

theorem SameAt.trans (hs : h.SameAt h' r) (hs' : h'.SameAt h'' r) : h.SameAt h'' r := by
  cases r <;> exact Eq.trans hs' hs

theorem within_refl (h : Heap) : h.Within h := fun _ hr => hr

theorem Within.trans (hw : h.Within h') (hw' : h'.Within h'') : h.Within h'' :=
  fun r hr => hw' r (hw r hr)

theorem within_newScope (h : Heap) (scope : Scope) : h.Within (h.newScope scope).2 := by
  intro r hr
  cases r with
  | scope s =>
      show s.index < (h.scopes.push scope).size
      rw [Array.size_push]
      exact Nat.lt_succ_of_lt hr
  | _ => exact hr

theorem SameAt.has (hs : h.SameAt h' r) : h'.Has r ↔ h.Has r := by
  have hsize {α : Type} {xs ys : Array α} {i : Nat} (heq : ys[i]? = xs[i]?) :
      i < ys.size ↔ i < xs.size := by
    rw [← Nat.not_le, ← Array.getElem?_eq_none_iff, heq, Array.getElem?_eq_none_iff, Nat.not_le]
  cases r <;> exact hsize hs

/-- An object that is the same refers to the same. -/
theorem SameAt.refersTo (hs : h.SameAt h' r) (hr : h'.RefersTo r r') : h.RefersTo r r' := by
  cases r with
  | scope s =>
      obtain ⟨scope, hscope, hrefs⟩ := hr
      exact ⟨scope, Eq.trans (Eq.symm hs) hscope, hrefs⟩
  | array a =>
      have heq : h'.elements a = h.elements a := congrArg (·.getD #[]) hs
      obtain ⟨v, hv, hrefs⟩ := hr
      exact ⟨v, heq ▸ hv, hrefs⟩
  | function f =>
      have heq : h'.function f = h.function f := congrArg (·.getD default) hs
      show r' = .scope (h.function f).closure
      rw [← heq]
      exact hr
  | method f => exact hr
  | ofClass c =>
      have heq : h'.classObject c = h.classObject c := congrArg (·.getD default) hs
      show (h.classObject c).RefersTo r'
      rw [← heq]
      exact hr
  | object o =>
      have heq : h'.instanceObject o = h.instanceObject o := congrArg (·.getD default) hs
      show (h.instanceObject o).RefersTo r'
      rw [← heq]
      exact hr

end Heap

/-! ## Values inside -/

namespace Value

variable {inside inside' : Ref → Prop}

theorem Inside.mono (himp : ∀ r, inside r → inside' r) {v : Value} (hv : v.Inside inside) :
    v.Inside inside' :=
  fun r hr => himp r (hv r hr)

@[simp] theorem inside_array {a : ArrayRef} : (array a).Inside inside ↔ inside (.array a) := by
  simp [Inside, refs]

@[simp] theorem inside_function {f : FunctionRef} :
    (function f).Inside inside ↔ inside (.function f) := by
  simp [Inside, refs]

@[simp] theorem inside_ofClass {c : ClassRef} : (ofClass c).Inside inside ↔ inside (.ofClass c) := by
  simp [Inside, refs]

@[simp] theorem inside_object {o : InstanceRef} : (object o).Inside inside ↔ inside (.object o) := by
  simp [Inside, refs]

/-- What a bound method refers to, the method apart, is what its call refers to. -/
@[simp] theorem inside_bound {receiver : Option InstanceRef} {f : MethodRef} {home : ClassRef} :
    (bound receiver f home).Inside inside ↔
      inside (.method f) ∧ Frame.Inside inside ⟨receiver, home⟩ := by
  constructor
  · intro hv
    refine ⟨hv _ (by simp [refs]), fun o ho => hv _ ?_, hv _ (by simp [refs])⟩
    cases ho
    simp [refs]
  · rintro ⟨hmethod, hreceiver, hhome⟩ r hr
    cases receiver with
    | none =>
        rcases (by simpa [refs] using hr : r = .method f ∨ r = .ofClass home) with rfl | rfl
        · exact hmethod
        · exact hhome
    | some o =>
        rcases (by simpa [refs] using hr : r = .method f ∨ r = .ofClass home ∨ r = .object o)
          with rfl | rfl | rfl
        · exact hmethod
        · exact hhome
        · exact hreceiver o rfl

/-- A value that refers to nothing, such as a number. -/
theorem inside_of_refs_eq_nil {v : Value} (hv : v.refs = []) : v.Inside inside := by
  intro r hr
  rw [hv] at hr
  cases hr

end Value

theorem Frame.Inside.mono {inside inside' : Ref → Prop} (himp : ∀ r, inside r → inside' r)
    {frame : Frame} (hf : frame.Inside inside) : frame.Inside inside' :=
  ⟨fun o ho => himp _ (hf.receiver o ho), himp _ hf.home⟩

/-! ## Searches -/

namespace Heap.Closed

variable {h : Heap} {inside : Ref → Prop} (hc : h.Closed inside)
include hc

theorem binder? {s d : ScopeRef} {name : String} (hs : inside (.scope s))
    (hd : h.binder? s name = some d) : inside (.scope d) := by
  fun_induction h.binder? s name with
  | case1 s hnone => cases hd
  | case2 s scope hscope hbinds =>
      cases hd
      exact hs
  | case3 s scope hscope hfree hroot => cases hd
  | case4 s scope hscope hfree p hparent hlt ih =>
      exact ih (hc _ _ hs ⟨scope, hscope, .inl ⟨p, hparent, rfl⟩⟩) hd
  | case5 s scope hscope hfree p hparent hlt => cases hd

theorem lookup? {s : ScopeRef} {name : String} {v : Value} (hs : inside (.scope s))
    (hv : h.lookup? s name = some v) : v.Inside inside := by
  obtain ⟨b, hb, rfl⟩ := Option.map_eq_some_iff.mp hv
  obtain ⟨d, hbinder, hd⟩ := Option.bind_eq_some_iff.mp hb
  obtain ⟨scope, hscope, hget⟩ := Option.bind_eq_some_iff.mp hd
  exact fun r hr => hc _ _ (hc.binder? hs hbinder)
    ⟨scope, hscope, .inr ⟨_, Dict.mem_of_get? hget, hr⟩⟩

theorem field {o : InstanceRef} {name : String} {v : Value} (ho : inside (.object o))
    (hv : (h.instanceObject o).fields.get? name = some v) : v.Inside inside :=
  fun _ hr => hc _ _ ho (.inr ⟨_, Dict.mem_of_get? hv, hr⟩)

theorem element {a : ArrayRef} {i : Nat} {v : Value} (ha : inside (.array a))
    (hv : (h.elements a)[i]? = some v) : v.Inside inside :=
  fun _ hr => hc _ _ ha ⟨v, Array.mem_of_getElem? hv, hr⟩

theorem classOf {o : InstanceRef} (ho : inside (.object o)) : inside (.ofClass (h.classOf o)) :=
  hc _ _ ho (.inl rfl)

theorem parent {c p : ClassRef} (hcl : inside (.ofClass c))
    (hp : (h.classObject c).superclass = some p) : inside (.ofClass p) :=
  hc _ _ hcl (.inl ⟨p, hp, rfl⟩)

theorem closure {c : ClassRef} (hcl : inside (.ofClass c)) :
    inside (.scope (h.classObject c).closure) :=
  hc _ _ hcl (.inr (.inr rfl))

theorem functionClosure {f : FunctionRef} (hf : inside (.function f)) :
    inside (.scope (h.function f).closure) :=
  hc _ _ hf rfl

theorem findMethod? {c home : ClassRef} {table : MethodTable} {name : String} {f : MethodRef}
    (hcl : inside (.ofClass c)) (hfound : h.findMethod? c table name = some (home, f)) :
    inside (.ofClass home) ∧ inside (.method f) := by
  fun_induction h.findMethod? c table name with
  | case1 c hnone => cases hfound
  | case2 c object hobject method hmethod =>
      cases hfound
      refine ⟨hcl, hc _ _ hcl (.inr (.inl ⟨table, name, f, ?_, rfl⟩))⟩
      rw [classObject_of_get hobject]
      exact hmethod
  | case3 c object hobject hmethod hsuper => cases hfound
  | case4 c object hobject hmethod parent hsuper hlt ih =>
      exact ih (hc.parent hcl (parent_of_get hobject hsuper)) hfound
  | case5 c object hobject hmethod parent hsuper hlt => cases hfound

end Heap.Closed

end Lipi
