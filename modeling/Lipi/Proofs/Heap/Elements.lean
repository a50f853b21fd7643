import Lipi.Proofs.Heap.References

set_option autoImplicit false

/-! # The elements of arrays

Writing an element changes one array: at the index it has the new element, before it what it had,
and **an array that was too short has `undefined` between its old end and the index**
(`getElem?_setElement`). No operation makes an array shorter (`KeepsArrays`).
-/

namespace Lipi.Heap

/-- All arrays are still there, and none has become shorter. -/
def KeepsArrays (h h' : Heap) : Prop :=
  ∀ a : ArrayRef, a.index < h.arrays.size →
    a.index < h'.arrays.size ∧ (h.elements a).size ≤ (h'.elements a).size

section Writing

variable {h : Heap} {a : ArrayRef} {i : Nat} {v : Value}

theorem elements_setElement (ha : a.index < h.arrays.size) :
    (h.setElement a i v).elements a =
      if i < (h.elements a).size then (h.elements a).setIfInBounds i v
      else (h.elements a ++ Array.replicate (i - (h.elements a).size) Value.undefined).push v := by
  unfold elements setElement
  dsimp only
  rw [Array.getElem?_modify, if_pos rfl, Array.getElem?_eq_getElem ha]
  rfl

/-- Everything else is what it was. -/
theorem sameAt_setElement (h : Heap) (a : ArrayRef) (i : Nat) (v : Value) {r : Ref}
    (hr : r ≠ .array a) : h.SameAt (h.setElement a i v) r := by
  cases r with
  | array b =>
      have hindex : a.index ≠ b.index := fun hsame => hr (congrArg (Ref.array ⟨·⟩) hsame.symm)
      show (h.arrays.modify a.index _)[b.index]? = h.arrays[b.index]?
      rw [Array.getElem?_modify, if_neg hindex]
  | _ => rfl

theorem elements_setElement_ne {b : ArrayRef} (hb : b ≠ a) :
    (h.setElement a i v).elements b = h.elements b := by
  have hsame := sameAt_setElement h a i v fun heq : Ref.array b = .array a => hb (Ref.array.inj heq)
  unfold elements
  rw [show (h.setElement a i v).arrays[b.index]? = h.arrays[b.index]? from hsame]

/-- The array is as long as it was, or just long enough. -/
theorem size_setElement (ha : a.index < h.arrays.size) :
    ((h.setElement a i v).elements a).size = max (h.elements a).size (i + 1) := by
  rw [elements_setElement ha]
  split
  · rw [Array.size_setIfInBounds]
    omega
  · rw [Array.size_push, Array.size_append, Array.size_replicate]
    omega

/-- **The elements of an array after one of them has been written.** -/
theorem getElem?_setElement (ha : a.index < h.arrays.size) (j : Nat) :
    ((h.setElement a i v).elements a)[j]? =
      if j = i then some v
      else if j < (h.elements a).size then (h.elements a)[j]?
      else if j < i then some .undefined
      else none := by
  rw [elements_setElement ha]
  by_cases hinside : i < (h.elements a).size
  · rw [if_pos hinside, Array.getElem?_setIfInBounds]
    by_cases hj : j = i
    · rw [if_pos hj, if_pos hj.symm, if_pos hinside]
    · rw [if_neg hj, if_neg (Ne.symm hj)]
      by_cases hold : j < (h.elements a).size
      · rw [if_pos hold]
      · rw [if_neg hold, if_neg (by omega)]
        exact Array.getElem?_eq_none (Nat.not_lt.mp hold)
  -- the array grows up to the index, with undefined elements between
  · rw [if_neg hinside, Array.getElem?_push, Array.getElem?_append, Array.getElem?_replicate,
      Array.size_append, Array.size_replicate]
    by_cases hj : j = i
    · rw [if_pos hj, if_pos (by omega)]
    · rw [if_neg hj, if_neg (by omega)]
      by_cases hold : j < (h.elements a).size
      · rw [if_pos hold, if_pos hold]
      · rw [if_neg hold, if_neg hold]
        by_cases hgap : j < i
        · rw [if_pos hgap, if_pos (by omega)]
        · rw [if_neg hgap, if_neg (by omega)]

end Writing

/-! ## No array becomes shorter -/

section Keeping

variable {h h' h'' : Heap}

theorem keepsArrays_of_arrays (harrays : h'.arrays = h.arrays) : h.KeepsArrays h' := by
  intro a ha
  unfold elements
  rw [harrays]
  exact ⟨ha, Nat.le_refl _⟩

theorem KeepsArrays.trans (hk : h.KeepsArrays h') (hk' : h'.KeepsArrays h'') :
    h.KeepsArrays h'' := by
  intro a ha
  obtain ⟨hvalid, hsize⟩ := hk a ha
  obtain ⟨hvalid', hsize'⟩ := hk' a hvalid
  exact ⟨hvalid', Nat.le_trans hsize hsize'⟩

theorem keepsArrays_newArray (h : Heap) (elements : Array Value) :
    h.KeepsArrays (h.newArray elements).2 := by
  intro a ha
  have hvalid : a.index < (h.arrays.push elements).size := by
    rw [Array.size_push]
    exact Nat.lt_succ_of_lt ha
  have hsame : (h.newArray elements).2.elements a = h.elements a := by
    unfold newArray Heap.elements
    dsimp only
    rw [Array.getElem?_push, if_neg (Nat.ne_of_lt ha)]
  exact ⟨hvalid, Nat.le_of_eq (congrArg Array.size hsame.symm)⟩

theorem keepsArrays_setElement (h : Heap) (a : ArrayRef) (i : Nat) (v : Value) :
    h.KeepsArrays (h.setElement a i v) := by
  intro b hb
  have hvalid : b.index < (h.setElement a i v).arrays.size := by
    unfold setElement
    rw [Array.size_modify]
    exact hb
  refine ⟨hvalid, ?_⟩
  by_cases hsame : b = a
  · rw [hsame] at hb ⊢
    rw [size_setElement hb]
    exact Nat.le_max_left _ _
  · exact Nat.le_of_eq (congrArg Array.size (elements_setElement_ne hsame).symm)

end Keeping

end Lipi.Heap
