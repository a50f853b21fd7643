import Lipi.Proofs.Heap.Classes
import Mathlib.Logic.Relation

set_option autoImplicit false

/-! # Ancestors of classes

A class and its superclasses form a chain that goes down in the order of their making, so it has no
cycles. **The search for a method gives the nearest class of the chain that declares it**
(`Ancestral.findMethod?_iff`), and the chain of a class is the same in every later heap.
-/

namespace Lipi.Heap

variable (h : Heap)

/-- A class is declared with this superclass. -/
def Parent (c p : ClassRef) : Prop := (h.classObject c).superclass = some p

/-- A class is another one or one of its ancestors. -/
def Lineage (c a : ClassRef) : Prop := Relation.ReflTransGen h.Parent c a

/-- A class is a proper ancestor of another one. -/
def Ancestor (c a : ClassRef) : Prop := Relation.TransGen h.Parent c a

/-- A class declares a method in one of its tables. -/
def Declares (c : ClassRef) (table : MethodTable) (name : String) (method : MethodRef) : Prop :=
  ((h.classObject c).table table).get? name = some method

/-- Every class is made after its superclass. -/
def Ancestral : Prop := ∀ c p, h.Parent c p → p.index < c.index

/-- The nearest class from `c` upward that declares a method of the given name in a table. -/
structure Nearest (c : ClassRef) (table : MethodTable) (name : String) (home : ClassRef)
    (method : MethodRef) : Prop where
  lineage : h.Lineage c home
  declares : h.Declares home table name method
  first : ∀ mid, h.Lineage c mid → h.Ancestor mid home → ∀ f, ¬ h.Declares mid table name f

/-- The nearest proper ancestor of `c` that declares a method of the given name in a table. -/
structure NearestAbove (c : ClassRef) (table : MethodTable) (name : String) (home : ClassRef)
    (method : MethodRef) : Prop where
  ancestor : h.Ancestor c home
  declares : h.Declares home table name method
  first : ∀ mid, h.Ancestor c mid → h.Ancestor mid home → ∀ f, ¬ h.Declares mid table name f

variable {h}

theorem Parent.unique {c p q : ClassRef} (hp : h.Parent c p) (hq : h.Parent c q) : p = q :=
  Option.some.inj (hp.symm.trans hq)

theorem classObject_of_get {c : ClassRef} {object : ClassObject}
    (hc : h.classes[c.index]? = some object) : h.classObject c = object := by
  rw [classObject, hc]
  rfl

theorem parent_of_get {c p : ClassRef} {object : ClassObject}
    (hc : h.classes[c.index]? = some object) (hsuper : object.superclass = some p) :
    h.Parent c p := by
  unfold Parent
  rw [classObject_of_get hc]
  exact hsuper

/-- Only a class that has been made has a superclass. -/
theorem Parent.valid {c p : ClassRef} (hp : h.Parent c p) : c.index < h.classes.size := by
  refine Nat.lt_of_not_le fun hle => ?_
  unfold Parent classObject at hp
  rw [Array.getElem?_eq_none hle] at hp
  cases hp

/-- Only a class that has been made declares methods. -/
theorem Declares.valid {c : ClassRef} {table : MethodTable} {name : String} {method : MethodRef}
    (hd : h.Declares c table name method) : c.index < h.classes.size := by
  refine Nat.lt_of_not_le fun hle => ?_
  unfold Declares classObject at hd
  rw [Array.getElem?_eq_none hle] at hd
  cases table <;> cases hd

/-- The proper ancestors of a class are its superclass and the ancestors of that. -/
theorem ancestor_iff {c p a : ClassRef} (hp : h.Parent c p) : h.Ancestor c a ↔ h.Lineage p a := by
  constructor
  · intro ha
    obtain ⟨q, hq, hline⟩ := Relation.TransGen.head'_iff.mp ha
    rwa [hp.unique hq]
  · intro hline
    exact Relation.TransGen.head' hp hline

/-- The chain of a class goes on with that of its superclass. -/
theorem lineage_iff {c p a : ClassRef} (hp : h.Parent c p) :
    h.Lineage c a ↔ a = c ∨ h.Lineage p a := by
  constructor
  · intro hline
    rcases Relation.ReflTransGen.cases_head hline with heq | ⟨q, hq, hrest⟩
    · exact .inl heq.symm
    · rw [hp.unique hq]
      exact .inr hrest
  · rintro (rfl | hline)
    · exact .refl
    · exact .head hp hline

theorem lineage_root {c a : ClassRef} (hroot : (h.classObject c).superclass = none)
    (hline : h.Lineage c a) : a = c := by
  rcases Relation.ReflTransGen.cases_head hline with heq | ⟨q, hq, _⟩
  · exact heq.symm
  · exact absurd (hq.symm.trans hroot) (Option.some_ne_none q)

theorem nearestAbove_iff {c p home : ClassRef} {table : MethodTable} {name : String}
    {method : MethodRef} (hp : h.Parent c p) :
    h.NearestAbove c table name home method ↔ h.Nearest p table name home method := by
  constructor
  · intro hn
    exact ⟨(ancestor_iff hp).mp hn.ancestor, hn.declares,
      fun mid hmid => hn.first mid ((ancestor_iff hp).mpr hmid)⟩
  · intro hn
    exact ⟨(ancestor_iff hp).mpr hn.lineage, hn.declares,
      fun mid hmid => hn.first mid ((ancestor_iff hp).mp hmid)⟩

/-- If a class declares the method, no other class is the nearest one. -/
theorem nearest_declared {c home : ClassRef} {table : MethodTable} {name : String}
    {f method : MethodRef} (hd : h.Declares c table name f)
    (hn : h.Nearest c table name home method) : home = c ∧ method = f := by
  rcases Relation.ReflTransGen.cases_head hn.lineage with rfl | ⟨p, hp, hline⟩
  · exact ⟨rfl, Option.some.inj (hn.declares.symm.trans hd)⟩
  · exact absurd hd (hn.first c .refl ((ancestor_iff hp).mpr hline) f)

/-- If a class does not declare the method, the nearest one is found from its superclass. -/
theorem nearest_parent {c p home : ClassRef} {table : MethodTable} {name : String}
    {method : MethodRef} (hd : ∀ f, ¬ h.Declares c table name f) (hp : h.Parent c p) :
    h.Nearest c table name home method ↔ h.Nearest p table name home method := by
  constructor
  · intro hn
    rcases (lineage_iff hp).mp hn.lineage with rfl | hline
    · exact absurd hn.declares (hd method)
    · exact ⟨hline, hn.declares, fun mid hmid => hn.first mid ((lineage_iff hp).mpr (.inr hmid))⟩
  · intro hn
    refine ⟨(lineage_iff hp).mpr (.inr hn.lineage), hn.declares, fun mid hmid hbelow => ?_⟩
    rcases (lineage_iff hp).mp hmid with rfl | hmid
    · exact hd
    · exact hn.first mid hmid hbelow

namespace Ancestral

variable (ha : h.Ancestral)
include ha

theorem index_le {c a : ClassRef} (hline : h.Lineage c a) : a.index ≤ c.index := by
  induction hline with
  | refl => exact Nat.le_refl _
  | tail _ hp ih => exact Nat.le_trans (Nat.le_of_lt (ha _ _ hp)) ih

theorem index_lt {c a : ClassRef} (hanc : h.Ancestor c a) : a.index < c.index := by
  obtain ⟨p, hp, hline⟩ := Relation.TransGen.head'_iff.mp hanc
  exact Nat.lt_of_le_of_lt (ha.index_le hline) (ha _ _ hp)

/-- No class is its own ancestor. -/
theorem acyclic (c : ClassRef) : ¬ h.Ancestor c c :=
  fun hc => Nat.lt_irrefl _ (ha.index_lt hc)

/-- A class that declares the method itself is the nearest one. -/
theorem nearest_self {c : ClassRef} {table : MethodTable} {name : String} {method : MethodRef}
    (hd : h.Declares c table name method) : h.Nearest c table name c method := by
  refine ⟨.refl, hd, fun mid hmid hbelow f _ => ?_⟩
  have hle := ha.index_le hmid
  have hlt := ha.index_lt hbelow
  omega

/-- **The search for a method gives the nearest class that declares it.** -/
theorem findMethod?_iff (c : ClassRef) (table : MethodTable) (name : String) (home : ClassRef)
    (method : MethodRef) :
    h.findMethod? c table name = some (home, method) ↔ h.Nearest c table name home method := by
  fun_induction h.findMethod? c table name with
  -- a class that does not exist declares nothing and has no parent
  | case1 c hnone =>
      have hinvalid : ¬ c.index < h.classes.size := by simpa using hnone
      simp only [reduceCtorEq, false_iff]
      intro hn
      rcases Relation.ReflTransGen.cases_head hn.lineage with rfl | ⟨p, hp, _⟩
      · exact hinvalid hn.declares.valid
      · exact hinvalid hp.valid
  | case2 c object hc f hf =>
      have hd : h.Declares c table name f := by
        unfold Declares
        rw [classObject_of_get hc]
        exact hf
      constructor
      · intro hfound
        cases hfound
        exact ha.nearest_self hd
      · intro hn
        obtain ⟨rfl, rfl⟩ := nearest_declared hd hn
        rfl
  -- a class without parent is the only one of its lineage
  | case3 c object hc hf hroot =>
      simp only [reduceCtorEq, false_iff]
      intro hn
      have hhome := lineage_root (by rw [classObject_of_get hc]; exact hroot) hn.lineage
      have hd := hn.declares
      rw [hhome, Declares, classObject_of_get hc, hf] at hd
      cases hd
  | case4 c object hc hf p hsuper hlt ih =>
      have hp := parent_of_get hc hsuper
      have hd : ∀ f, ¬ h.Declares c table name f := by
        intro f hd
        rw [Declares, classObject_of_get hc, hf] at hd
        cases hd
      exact ih.trans (nearest_parent hd hp).symm
  -- parents are older than their classes, so the search goes on wherever there is one
  | case5 c object hc hf p hsuper hlt =>
      have hp := parent_of_get hc hsuper
      exact absurd (ha c p hp) hlt

/-- The search for an ancestor finds every class of the chain. -/
theorem isSubclass_iff (c a : ClassRef) : h.isSubclass c a = true ↔ h.Lineage c a := by
  fun_induction h.isSubclass c a with
  | case1 => simp only [true_iff]; exact .refl
  | case2 c hne hnone =>
      have hinvalid : ¬ c.index < h.classes.size := by simpa using hnone
      simp only [Bool.false_eq_true, false_iff]
      intro hline
      rcases Relation.ReflTransGen.cases_head hline with rfl | ⟨p, hp, _⟩
      · exact hne rfl
      · exact hinvalid hp.valid
  | case3 c hne object hc hroot =>
      simp only [Bool.false_eq_true, false_iff]
      intro hline
      exact hne (lineage_root (by rw [classObject_of_get hc]; exact hroot) hline).symm
  | case4 c hne object hc p hsuper hlt ih =>
      have hp := parent_of_get hc hsuper
      refine ih.trans ⟨fun hline => (lineage_iff hp).mpr (.inr hline), fun hline => ?_⟩
      exact ((lineage_iff hp).mp hline).resolve_left (Ne.symm hne)
  | case5 c hne object hc p hsuper hlt =>
      have hp := parent_of_get hc hsuper
      exact absurd (ha c p hp) hlt

end Ancestral

/-! ## Later heaps -/

/-- Every class of a heap is in another one as well. -/
def KeepsClasses (h h' : Heap) : Prop :=
  ∀ (i : Nat) (c : ClassObject), h.classes[i]? = some c → h'.classes[i]? = some c

theorem keepsClasses_refl (h : Heap) : KeepsClasses h h :=
  fun _ _ hc => hc

theorem KeepsClasses.trans {h₁ h₂ h₃ : Heap} (h : KeepsClasses h₁ h₂) (h' : KeepsClasses h₂ h₃) :
    KeepsClasses h₁ h₃ :=
  fun i c hc => h' i c (h i c hc)

namespace KeepsClasses

variable {h h' : Heap} (k : KeepsClasses h h')
include k

theorem valid {c : ClassRef} (hc : c.index < h.classes.size) : c.index < h'.classes.size := by
  have hkept := k c.index _ (Array.getElem?_eq_getElem hc)
  exact (Array.getElem?_eq_some_iff.mp hkept).1

theorem classObject {c : ClassRef} (hc : c.index < h.classes.size) :
    h'.classObject c = h.classObject c := by
  unfold Heap.classObject
  rw [k c.index _ (Array.getElem?_eq_getElem hc), Array.getElem?_eq_getElem hc]

theorem parent {c p : ClassRef} (hp : h.Parent c p) : h'.Parent c p := by
  unfold Parent
  rw [k.classObject hp.valid]
  exact hp

theorem parent_iff {c : ClassRef} (hc : c.index < h.classes.size) (p : ClassRef) :
    h'.Parent c p ↔ h.Parent c p := by
  unfold Parent
  rw [k.classObject hc]

theorem declares_iff {c : ClassRef} (hc : c.index < h.classes.size) (table : MethodTable)
    (name : String) (f : MethodRef) :
    h'.Declares c table name f ↔ h.Declares c table name f := by
  unfold Declares
  rw [k.classObject hc]

theorem declares {c : ClassRef} {table : MethodTable} {name : String} {f : MethodRef}
    (hd : h.Declares c table name f) : h'.Declares c table name f :=
  (k.declares_iff hd.valid table name f).mpr hd

theorem lineage {c a : ClassRef} (hline : h.Lineage c a) : h'.Lineage c a :=
  Relation.ReflTransGen.mono (fun _ _ => k.parent) _ _ hline

theorem ancestor {c a : ClassRef} (hanc : h.Ancestor c a) : h'.Ancestor c a :=
  Relation.TransGen.mono (fun _ _ => k.parent) _ _ hanc

/-- The search for a method finds the same in every later heap. -/
theorem findMethod? {c : ClassRef} (hc : c.index < h.classes.size)
    (table : MethodTable) (name : String) :
    h'.findMethod? c table name = h.findMethod? c table name := by
  fun_induction h.findMethod? c table name with
  | case1 c hnone => exact absurd hc (by simpa using hnone)
  | case2 c object hobject method hmethod =>
      rw [Heap.findMethod?, k c.index object hobject]
      simp only [hmethod]
  | case3 c object hobject hmethod hsuper =>
      rw [Heap.findMethod?, k c.index object hobject]
      simp only [hmethod, hsuper]
  | case4 c object hobject hmethod parent hsuper hlt ih =>
      rw [Heap.findMethod?, k c.index object hobject]
      simp only [hmethod, hsuper, if_pos hlt]
      exact ih (Nat.lt_trans hlt hc)
  | case5 c object hobject hmethod parent hsuper hlt =>
      rw [Heap.findMethod?, k c.index object hobject]
      simp only [hmethod, hsuper, if_neg hlt]

end KeepsClasses

end Lipi.Heap
