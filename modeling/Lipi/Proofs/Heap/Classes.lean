import Lipi.Machine.Inheritance

set_option autoImplicit false

/-! # Classes of a heap

How the methods of a declaration are made, one after the other, and what the search for a method
depends on.
-/

namespace Lipi

/-- The object that is made for a method of a declaration. -/
def Method.object (m : Method) : MethodObject :=
  ⟨⟨m.name, m.parameters, m.body⟩, m.access, m.isConstructor⟩

namespace Heap

theorem newMethods_cons (m : Method) (ms : List Method) (table staticTable : Dict MethodRef)
    (h : Heap) :
    newMethods (m :: ms) table staticTable h =
      if m.isStatic then
        newMethods ms table (staticTable.insert m.name ⟨h.methods.size⟩) (h.newMethod m.object).2
      else
        newMethods ms (table.insert m.name ⟨h.methods.size⟩) staticTable (h.newMethod m.object).2 :=
  rfl

/-- The class of a new instance. -/
theorem classOf_newInstance (h : Heap) (c : ClassRef) :
    (h.newInstance c).2.classOf (h.newInstance c).1 = c := by
  simp [newInstance, classOf, instanceObject]

/-! ## The search for a method

What a class is and where its methods are depends on the classes of the heap only. -/

theorem findMethod?_congr {h h' : Heap} (hclasses : h'.classes = h.classes) (c : ClassRef)
    (table : MethodTable) (name : String) :
    h'.findMethod? c table name = h.findMethod? c table name := by
  fun_induction h.findMethod? c table name with
  | case1 c hnone =>
      rw [findMethod?, hclasses]
      simp only [hnone]
  | case2 c object hobject method hmethod =>
      rw [findMethod?, hclasses]
      simp only [hobject, hmethod]
  | case3 c object hobject hmethod hsuper =>
      rw [findMethod?, hclasses]
      simp only [hobject, hmethod, hsuper]
  | case4 c object hobject hmethod parent hsuper hlt ih =>
      rw [findMethod?, hclasses]
      simp only [hobject, hmethod, hsuper, if_pos hlt, ih]
  | case5 c object hobject hmethod parent hsuper hlt =>
      rw [findMethod?, hclasses]
      simp only [hobject, hmethod, hsuper, if_neg hlt]

theorem isSubclass_congr {h h' : Heap} (hclasses : h'.classes = h.classes) (c ancestor : ClassRef) :
    h'.isSubclass c ancestor = h.isSubclass c ancestor := by
  fun_induction h.isSubclass c ancestor with
  | case1 => rw [isSubclass, if_pos rfl]
  | case2 c hne hnone =>
      rw [isSubclass, if_neg hne, hclasses]
      simp only [hnone]
  | case3 c hne object hobject hsuper =>
      rw [isSubclass, if_neg hne, hclasses]
      simp only [hobject, hsuper]
  | case4 c hne object hobject parent hsuper hlt ih =>
      rw [isSubclass, if_neg hne, hclasses]
      simp only [hobject, hsuper, if_pos hlt, ih]
  | case5 c hne object hobject parent hsuper hlt =>
      rw [isSubclass, if_neg hne, hclasses]
      simp only [hobject, hsuper, if_neg hlt]

end Heap

end Lipi
