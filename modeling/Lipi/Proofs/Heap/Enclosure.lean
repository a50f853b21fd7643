import Lipi.Proofs.Heap.Lawful
import Lipi.Proofs.Heap.References

set_option autoImplicit false

/-! # Enclosures

A computation that starts with some objects of a heap in its hands can come to those objects, and to
what is made from then on. An `Enclosure` is the heap at the start and the objects that are shared
with the computation; **if these refer only to one another, the computation stays among them and the
new ones**, and everything else is left as it was (`Enclosure.Keeps`). Every change that a run makes
to a heap is shown here to keep an enclosure, if it is made at an object in reach, with values in
reach.
-/

namespace Lipi

/-- The heap on which a computation has started, and what is shared with it. -/
structure Enclosure where
  base : Heap
  shared : Ref → Prop

namespace Enclosure

variable (E : Enclosure)

/-- What the computation can come to: what is shared, and what has been made since the start. -/
def InReach (h : Heap) (r : Ref) : Prop := E.shared r ∨ h.Has r ∧ ¬ E.base.Has r

/-- The objects in reach refer only to one another, and all others are what they were. -/
structure Keeps (h : Heap) : Prop where
  within : E.base.Within h
  closed : h.Closed (E.InReach h)
  same : ∀ r, E.base.Has r → ¬ E.shared r → E.base.SameAt h r

/-- The second heap is what becomes of the first one, and the enclosure is kept. -/
structure Goes (h h' : Heap) : Prop where
  within : h.Within h'
  keeps : E.Keeps h'

variable {E} {h h' : Heap} {r : Ref}

theorem InReach.later (hw : h.Within h') (hr : E.InReach h r) : E.InReach h' r :=
  hr.imp_right fun hnew => ⟨hw r hnew.1, hnew.2⟩

theorem Goes.trans {h'' : Heap} (hg : E.Goes h h') (hg' : E.Goes h' h'') : E.Goes h h'' :=
  ⟨hg.within.trans hg'.within, hg'.keeps⟩

/-- At the start only what is shared can be reached. -/
theorem keeps_base (hclosed : E.base.Closed E.shared) : E.Keeps E.base where
  within := Heap.within_refl _
  closed r r' hr href := by
    rcases hr with hshared | ⟨hhas, hfree⟩
    · exact .inl (hclosed r r' hshared href)
    · exact absurd hhas hfree
  same r _ _ := Heap.sameAt_refl _ r

/-! ## Arrays that become longer, or other at one place -/

section Arrays

variable {α : Type} {xs : Array α} {i j : Nat}

theorem lt_size_push (xs : Array α) (x : α) : xs.size < (xs.push x).size := by
  rw [Array.size_push]
  exact Nat.lt_succ_self _

theorem getElem?_push_ne {x : α} (hi : i ≠ xs.size) : (xs.push x)[i]? = xs[i]? := by
  rw [Array.getElem?_push, if_neg hi]

theorem getElem?_modify_ne {f : α → α} (hij : i ≠ j) : (xs.modify j f)[i]? = xs[i]? := by
  rw [Array.getElem?_modify, if_neg hij.symm]

theorem lt_size_modify {f : α → α} (hi : i < xs.size) : i < (xs.modify j f).size := by
  rwa [Array.size_modify]

end Arrays

namespace Keeps

variable (k : E.Keeps h)
include k

/-- The enclosure is kept by a change at one place that is new or in reach, if the object there now
refers to what was in reach. -/
theorem goes (place : Ref) (hsame : ∀ r, r ≠ place → h.SameAt h' r)
    (hplace : h.Has place → h'.Has place ∧ E.InReach h place)
    (hrefs : ∀ r, h'.RefersTo place r → E.InReach h r) : E.Goes h h' := by
  have hwithin : h.Within h' := by
    intro r hr
    by_cases hat : r = place
    · subst hat
      exact (hplace hr).1
    · exact (hsame r hat).has.mpr hr
  refine ⟨hwithin, k.within.trans hwithin, fun r r' hr href => ?_, fun r hbase hfree => ?_⟩
  · refine InReach.later hwithin ?_
    by_cases hat : r = place
    · subst hat
      exact hrefs r' href
    · have hs := hsame r hat
      exact k.closed r r' (hr.imp_right fun hnew => ⟨hs.has.mp hnew.1, hnew.2⟩) (hs.refersTo href)
  · by_cases hat : r = place
    · subst hat
      rcases (hplace (k.within r hbase)).2 with hshared | ⟨_, hnew⟩
      · exact absurd hshared hfree
      · exact absurd hbase hnew
    · exact (k.same r hbase hfree).trans (hsame r hat)

/-- The enclosure is kept when an object is made that refers to what is in reach, and the new object
is in reach. -/
theorem make (new : Ref) (hfree : ¬ h.Has new) (hnew : h'.Has new)
    (hsame : ∀ r, r ≠ new → h.SameAt h' r) (hrefs : ∀ r, h'.RefersTo new r → E.InReach h r) :
    E.Goes h h' ∧ E.InReach h' new :=
  ⟨k.goes new hsame (fun hold => absurd hold hfree) hrefs,
    .inr ⟨hnew, fun hbase => hfree (k.within new hbase)⟩⟩

/-! ## New objects -/

theorem newScope (scope : Scope) (hscope : ∀ r, scope.RefersTo r → E.InReach h r) :
    E.Goes h (h.newScope scope).2 ∧
      E.InReach (h.newScope scope).2 (.scope (h.newScope scope).1) := by
  refine k.make _ (Nat.lt_irrefl _) (lt_size_push _ _) (fun r hr => ?_) fun r href => ?_
  · cases r with
    | scope s => exact getElem?_push_ne fun hlast => hr (congrArg (Ref.scope ⟨·⟩) hlast)
    | _ => rfl
  · obtain ⟨scope', hget, href⟩ := href
    cases Array.getElem?_push_size.symm.trans hget
    exact hscope r href

theorem newArray (elements : Array Value)
    (helements : ∀ v ∈ elements, v.Inside (E.InReach h)) :
    E.Goes h (h.newArray elements).2 ∧
      E.InReach (h.newArray elements).2 (.array (h.newArray elements).1) := by
  refine k.make _ (Nat.lt_irrefl _) (lt_size_push _ _) (fun r hr => ?_) fun r href => ?_
  · cases r with
    | array a => exact getElem?_push_ne fun hlast => hr (congrArg (Ref.array ⟨·⟩) hlast)
    | _ => rfl
  · obtain ⟨v, hv, href⟩ := href
    change v ∈ (h.arrays.push elements)[h.arrays.size]?.getD #[] at hv
    rw [Array.getElem?_push_size] at hv
    exact helements v hv r href

theorem newFunction {f : Function} (hclosure : E.InReach h (.scope f.closure)) :
    E.Goes h (h.newFunction f).2 ∧
      E.InReach (h.newFunction f).2 (.function (h.newFunction f).1) := by
  refine k.make _ (Nat.lt_irrefl _) (lt_size_push _ _) (fun r hr => ?_) fun r href => ?_
  · cases r with
    | function g => exact getElem?_push_ne fun hlast => hr (congrArg (Ref.function ⟨·⟩) hlast)
    | _ => rfl
  · change r = .scope ((h.functions.push f)[h.functions.size]?.getD default).closure at href
    rw [Array.getElem?_push_size] at href
    rw [href]
    exact hclosure

theorem newMethod (f : MethodObject) :
    E.Goes h (h.newMethod f).2 ∧ E.InReach (h.newMethod f).2 (.method (h.newMethod f).1) := by
  refine k.make _ (Nat.lt_irrefl _) (lt_size_push _ _) (fun r hr => ?_) fun r href => nomatch href
  cases r with
  | method g => exact getElem?_push_ne fun hlast => hr (congrArg (Ref.method ⟨·⟩) hlast)
  | _ => rfl

theorem newClass {c : ClassObject} (hc : ∀ r, c.RefersTo r → E.InReach h r) :
    E.Goes h (h.newClass c).2 ∧ E.InReach (h.newClass c).2 (.ofClass (h.newClass c).1) := by
  refine k.make _ (Nat.lt_irrefl _) (lt_size_push _ _) (fun r hr => ?_) fun r href => ?_
  · cases r with
    | ofClass d => exact getElem?_push_ne fun hlast => hr (congrArg (Ref.ofClass ⟨·⟩) hlast)
    | _ => rfl
  · change ((h.classes.push c)[h.classes.size]?.getD default).RefersTo r at href
    rw [Array.getElem?_push_size] at href
    exact hc r href

theorem newInstance {c : ClassRef} (hc : E.InReach h (.ofClass c)) :
    E.Goes h (h.newInstance c).2 ∧
      E.InReach (h.newInstance c).2 (.object (h.newInstance c).1) := by
  refine k.make _ (Nat.lt_irrefl _) (lt_size_push _ _) (fun r hr => ?_) fun r href => ?_
  · cases r with
    | object o => exact getElem?_push_ne fun hlast => hr (congrArg (Ref.object ⟨·⟩) hlast)
    | _ => rfl
  · change ((h.instances.push ⟨c, .empty⟩)[h.instances.size]?.getD default).RefersTo r at href
    rw [Array.getElem?_push_size] at href
    rcases href with rfl | ⟨e, he, _⟩
    · exact hc
    · cases he

/-- The methods of a declaration are made one after the other, and entered into two tables. -/
theorem newMethods (ms : List Method) (table staticTable : Dict MethodRef)
    (htables : ∀ t name f, (Heap.tables table staticTable t).get? name = some f →
      E.InReach h (.method f)) :
    E.Goes h (Heap.newMethods ms table staticTable h).2.2 ∧
      ∀ t name f, (Heap.tables (Heap.newMethods ms table staticTable h).1
        (Heap.newMethods ms table staticTable h).2.1 t).get? name = some f →
        E.InReach (Heap.newMethods ms table staticTable h).2.2 (.method f) := by
  induction ms generalizing h table staticTable with
  | nil => exact ⟨⟨Heap.within_refl h, k⟩, htables⟩
  | cons m ms ih =>
      obtain ⟨hgoes, hnew⟩ := k.newMethod m.object
      -- what stands in a table into which the method has been entered
      have hentered {t : Dict MethodRef} (ht : ∀ name f, t.get? name = some f →
          E.InReach h (.method f)) (name : String) (f : MethodRef)
          (hf : (t.insert m.name ⟨h.methods.size⟩).get? name = some f) :
          E.InReach (h.newMethod m.object).2 (.method f) := by
        rw [Dict.get?_insert] at hf
        split at hf
        · cases hf
          exact hnew
        · exact (ht name f hf).later hgoes.within
      rw [Heap.newMethods_cons]
      split
      · obtain ⟨hrest, hall⟩ := ih hgoes.keeps table (staticTable.insert m.name ⟨h.methods.size⟩)
          fun t name f hf => by
            cases t with
            | ofInstances => exact (htables .ofInstances name f hf).later hgoes.within
            | ofClass => exact hentered (htables .ofClass) name f hf
        exact ⟨hgoes.trans hrest, hall⟩
      · obtain ⟨hrest, hall⟩ := ih hgoes.keeps (table.insert m.name ⟨h.methods.size⟩) staticTable
          fun t name f hf => by
            cases t with
            | ofInstances => exact hentered (htables .ofInstances) name f hf
            | ofClass => exact (htables .ofClass name f hf).later hgoes.within
        exact ⟨hgoes.trans hrest, hall⟩

theorem declareClass (name : String) {superclass : Option ClassRef} {closure : ScopeRef}
    (hsuper : ∀ p, superclass = some p → E.InReach h (.ofClass p))
    (hclosure : E.InReach h (.scope closure)) (ms : List Method) :
    E.Goes h (h.declareClass name superclass ms closure).2 ∧
      E.InReach (h.declareClass name superclass ms closure).2
        (.ofClass (h.declareClass name superclass ms closure).1) := by
  obtain ⟨hgoes, htables⟩ := k.newMethods ms .empty .empty fun t _ _ hf => by cases t <;> cases hf
  unfold Heap.declareClass
  dsimp only
  generalize Heap.newMethods ms .empty .empty h = made at hgoes htables ⊢
  obtain ⟨hclass, hnew⟩ := hgoes.keeps.newClass (c := ⟨name, superclass, made.1, made.2.1, closure⟩)
    fun r href => by
      rcases href with ⟨p, hp, rfl⟩ | ⟨t, x, f, hf, rfl⟩ | rfl
      · exact (hsuper p hp).later hgoes.within
      · exact htables t x f (by cases t <;> exact hf)
      · exact hclosure.later hgoes.within
  exact ⟨hgoes.trans hclass, hnew⟩

/-! ## Changes of objects in reach -/

theorem setBinding {s : ScopeRef} {name : String} {b : Binding} (hs : E.InReach h (.scope s))
    (hb : b.value.Inside (E.InReach h)) : E.Goes h (h.setBinding s name b) := by
  refine k.goes (.scope s) (fun r hr => ?_) (fun hold => ⟨lt_size_modify hold, hs⟩) fun r href => ?_
  · cases r with
    | scope s' => exact getElem?_modify_ne fun hat => hr (congrArg (Ref.scope ⟨·⟩) hat)
    | _ => rfl
  · obtain ⟨scope, hget, href⟩ := href
    change (h.scopes.modify s.index _)[s.index]? = some scope at hget
    rw [Array.getElem?_modify, if_pos rfl] at hget
    obtain ⟨old, hold, rfl⟩ := Option.map_eq_some_iff.mp hget
    rcases href with ⟨p, hp, rfl⟩ | ⟨e, he, hre⟩
    · exact k.closed _ _ hs ⟨old, hold, .inl ⟨p, hp, rfl⟩⟩
    · rcases Dict.mem_insert he with hmem | rfl
      · exact k.closed _ _ hs ⟨old, hold, .inr ⟨e, hmem, hre⟩⟩
      · exact hb r hre

theorem setElement {a : ArrayRef} {i : Nat} {v : Value} (ha : E.InReach h (.array a))
    (hv : v.Inside (E.InReach h)) : E.Goes h (h.setElement a i v) := by
  refine k.goes (.array a) (fun r hr => ?_) (fun hold => ⟨lt_size_modify hold, ha⟩) fun r href => ?_
  · cases r with
    | array b => exact getElem?_modify_ne fun hat => hr (congrArg (Ref.array ⟨·⟩) hat)
    | _ => rfl
  · obtain ⟨w, hw, href⟩ := href
    change w ∈ (h.arrays.modify a.index _)[a.index]?.getD #[] at hw
    rw [Array.getElem?_modify, if_pos rfl] at hw
    cases hold : h.arrays[a.index]? with
    | none =>
        rw [hold] at hw
        exact absurd hw (by simp)
    | some elements =>
        rw [hold] at hw
        rcases Heap.mem_written hw with hmem | rfl | rfl
        · refine k.closed _ _ ha ⟨w, ?_, href⟩
          show w ∈ h.arrays[a.index]?.getD #[]
          rw [hold]
          exact hmem
        · cases href
        · exact hv r href

theorem setField {o : InstanceRef} {name : String} {v : Value} (ho : E.InReach h (.object o))
    (hv : v.Inside (E.InReach h)) : E.Goes h (h.setField o name v) := by
  refine k.goes (.object o) (fun r hr => ?_) (fun hold => ⟨lt_size_modify hold, ho⟩) fun r href => ?_
  · cases r with
    | object o' => exact getElem?_modify_ne fun hat => hr (congrArg (Ref.object ⟨·⟩) hat)
    | _ => rfl
  · change ((h.instances.modify o.index _)[o.index]?.getD default).RefersTo r at href
    rw [Array.getElem?_modify, if_pos rfl] at href
    have hold : ∀ r, (h.instances[o.index]?.getD default).RefersTo r → E.InReach h r :=
      fun r => k.closed (.object o) r ho
    cases hobject : h.instances[o.index]? with
    | none =>
        rw [hobject] at href hold
        exact hold r href
    | some object =>
        rw [hobject] at href hold
        rcases href with rfl | ⟨e, he, hre⟩
        · exact hold _ (.inl rfl)
        · rcases Dict.mem_insert he with hmem | rfl
          · exact hold r (.inr ⟨e, hmem, hre⟩)
          · exact hv r hre

end Keeps

end Enclosure

end Lipi
