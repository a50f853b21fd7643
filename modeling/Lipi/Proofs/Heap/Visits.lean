import Lipi.Heap.Text
import Mathlib.Data.List.Nodup
import Mathlib.Data.List.Perm.Subperm
import Mathlib.Data.List.Range

set_option autoImplicit false

/-! # What the text of a value visits

To write a value down is to visit the instances in it: the value itself if it is an instance, and
what the elements of an array visit if it is an array. The search for an instance (`Heap.mentions`)
does not open an array inside itself and opens at most as many arrays as there are; **it finds an
instance exactly if some chain of elements, however long, leads to it** (`mentions_iff`). For of
the chains that lead to an instance a shortest one passes no array twice.
-/

namespace Lipi.Heap

/-- Writing the value down visits the instance. -/
inductive Visits (h : Heap) (o : InstanceRef) : Value → Prop where
  | object : Visits h o (.object o)
  | element {a : ArrayRef} {v : Value} : v ∈ h.elements a → Visits h o v → Visits h o (.array a)

/-- The instance is reached by opening `n` arrays, one inside the other. -/
inductive VisitsIn (h : Heap) (o : InstanceRef) : Nat → Value → Prop where
  | object : VisitsIn h o 0 (.object o)
  | element {n : Nat} {a : ArrayRef} {v : Value} : v ∈ h.elements a → VisitsIn h o n v →
    VisitsIn h o (n + 1) (.array a)

variable {h : Heap} {o : InstanceRef}

theorem Visits.exists_visitsIn {v : Value} (hv : h.Visits o v) : ∃ n, h.VisitsIn o n v := by
  induction hv with
  | object => exact ⟨0, .object⟩
  | element hmem _ ih =>
      obtain ⟨n, hn⟩ := ih
      exact ⟨n + 1, .element hmem hn⟩

/-! ## The search -/

theorem elementMentions_array (n : Nat) (opened : List ArrayRef) (a : ArrayRef) :
    h.elementMentions o (n + 1) opened (.array a) =
      if a ∈ opened then false
      else (h.elements a).toList.any (h.elementMentions o n (a :: opened)) := by
  rw [elementMentions]

theorem visits_of_elementMentions {n : Nat} {opened : List ArrayRef} {v : Value}
    (hfound : h.elementMentions o n opened v = true) : h.Visits o v := by
  induction n generalizing opened v with
  | zero =>
      cases v with
      | object p =>
          have hsame : o = p := by simpa [elementMentions] using hfound
          subst hsame
          exact .object
      | _ => simp [elementMentions] at hfound
  | succ n ih =>
      cases v with
      | object p =>
          have hsame : o = p := by simpa [elementMentions] using hfound
          subst hsame
          exact .object
      | array a =>
          rw [elementMentions_array] at hfound
          split at hfound
          · cases hfound
          · obtain ⟨w, hw, hmentions⟩ := List.any_eq_true.mp hfound
            exact .element (Array.mem_toList_iff.mp hw) (ih hmentions)
      | _ => simp [elementMentions] at hfound

/-- Different arrays that are there are no more than there are arrays. -/
theorem length_le_arrays {opened : List ArrayRef} (hnodup : opened.Nodup)
    (hvalid : ∀ a ∈ opened, a.index < h.arrays.size) : opened.length ≤ h.arrays.size := by
  have hindices : (opened.map ArrayRef.index).Nodup := by
    refine hnodup.map fun a b hab => ?_
    cases a
    cases b
    rw [ArrayRef.mk.injEq]
    exact hab
  have hrange : opened.map ArrayRef.index ⊆ List.range h.arrays.size := by
    intro i hi
    obtain ⟨a, ha, rfl⟩ := List.mem_map.mp hi
    exact List.mem_range.mpr (hvalid a ha)
  simpa using (hindices.subperm hrange).length_le

/-- Only an array that is there has elements. -/
theorem valid_of_mem_elements {a : ArrayRef} {v : Value} (hv : v ∈ h.elements a) :
    a.index < h.arrays.size := by
  refine Nat.lt_of_not_le fun hle => ?_
  unfold elements at hv
  rw [Array.getElem?_eq_none hle] at hv
  simp at hv

/-- The search finds an instance that is reached by opening `n` arrays if none of the arrays that
are open leads to it in as few steps, and if there is room for all arrays that are not open. -/
theorem elementMentions_of_visitsIn {n room : Nat} {opened : List ArrayRef} {v : Value}
    (hv : h.VisitsIn o n v) (hopened : ∀ a ∈ opened, ∀ k ≤ n, ¬ h.VisitsIn o k (.array a))
    (hnodup : opened.Nodup) (hvalid : ∀ a ∈ opened, a.index < h.arrays.size)
    (hroom : h.arrays.size ≤ room + opened.length) :
    h.elementMentions o room opened v = true := by
  induction n using Nat.strong_induction_on generalizing room opened v with
  | _ n ih =>
      cases hv with
      | object => simp [elementMentions]
      | @element n a w hw hvisits =>
          by_cases hshorter : ∃ k < n + 1, h.VisitsIn o k (.array a)
          · obtain ⟨k, hk, hshort⟩ := hshorter
            exact ih k hk hshort (fun b hb j hj => hopened b hb j (by omega)) hnodup hvalid hroom
          · -- the chain is a shortest one, so that `a` does not come again behind itself
            have hfresh : a ∉ opened := fun ha =>
              hopened a ha (n + 1) (Nat.le_refl _) (.element hw hvisits)
            have hnodup' : (a :: opened).Nodup := List.nodup_cons.mpr ⟨hfresh, hnodup⟩
            have hvalid' : ∀ b ∈ a :: opened, b.index < h.arrays.size := by
              intro b hb
              rcases List.mem_cons.mp hb with rfl | hb
              · exact valid_of_mem_elements hw
              · exact hvalid b hb
            have hlength := length_le_arrays hnodup' hvalid'
            rw [List.length_cons] at hlength
            obtain ⟨room, rfl⟩ : ∃ r, room = r + 1 := ⟨room - 1, by omega⟩
            have hinside : h.elementMentions o room (a :: opened) w = true := by
              refine ih n (Nat.lt_succ_self n) hvisits (fun b hb j hj => ?_) hnodup' hvalid' ?_
              · rcases List.mem_cons.mp hb with rfl | hb
                · exact fun hagain => hshorter ⟨j, by omega, hagain⟩
                · exact hopened b hb j (by omega)
              · rw [List.length_cons]
                omega
            rw [elementMentions_array, if_neg hfresh]
            exact List.any_eq_true.mpr ⟨w, Array.mem_toList_iff.mpr hw, hinside⟩

/-- **The search finds exactly the instances that are visited**, at any depth and in any tangle of
arrays. -/
theorem mentions_iff {v : Value} : h.mentions o v = true ↔ h.Visits o v := by
  constructor
  · exact visits_of_elementMentions
  · intro hv
    obtain ⟨n, hn⟩ := hv.exists_visitsIn
    exact elementMentions_of_visitsIn hn (fun _ ha => absurd ha List.not_mem_nil) List.nodup_nil
      (fun _ ha => absurd ha List.not_mem_nil) (Nat.le_add_right _ _)

/-! ## Texts and fields -/

/-- The text of a value depends on what arrays hold and on names, but on no field. -/
theorem elementText_setField (h : Heap) (o : InstanceRef) (name : String) (w : Value) (n : Nat)
    (opened : List ArrayRef) (v : Value) :
    (h.setField o name w).elementText n opened v = h.elementText n opened v := by
  -- of an instance the text shows the name of its class only
  have hclassOf : ∀ p, (h.setField o name w).classOf p = h.classOf p := by
    intro p
    unfold classOf instanceObject setField
    dsimp only
    rw [Array.getElem?_modify]
    split
    · cases h.instances[p.index]? <;> rfl
    · rfl
  have hsimple : ∀ u, (h.setField o name w).simpleText u = h.simpleText u := by
    intro u
    cases u with
    | object p =>
        unfold simpleText
        dsimp only
        rw [hclassOf]
        rfl
    | bool b => cases b <;> rfl
    | _ => rfl
  induction n generalizing opened v with
  | zero =>
      cases v with
      | string s => rfl
      | _ => exact hsimple _
  | succ n ih =>
      cases v with
      | string s => rfl
      | array a =>
          have helements : (h.setField o name w).elementText n (a :: opened) =
              h.elementText n (a :: opened) := funext fun u => ih (a :: opened) u
          rw [elementText, elementText, helements]
          rfl
      | _ => exact hsimple _

theorem text_setField (h : Heap) (o : InstanceRef) (name : String) (w v : Value) :
    (h.setField o name w).text v = h.text v := by
  cases v with
  | string s => rfl
  | _ => exact elementText_setField h o name w _ [] _

/-- A field that has been set has the value. -/
theorem field_setField {o : InstanceRef} (ho : o.index < h.instances.size) (name : String)
    (w : Value) : ((h.setField o name w).instanceObject o).fields.get? name = some w := by
  unfold instanceObject setField
  dsimp only
  rw [Array.getElem?_modify, if_pos rfl, Array.getElem?_eq_getElem ho]
  simp

end Lipi.Heap
