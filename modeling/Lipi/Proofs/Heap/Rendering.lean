import Lipi.Proofs.Heap.Visits
import Mathlib.Logic.Relation

set_option autoImplicit false

/-! # What the text of an array is

An array is written as the texts of its elements in brackets. Which of its elements are written as
`[...]` depends on the path by which they are reached from the array that is printed: **an array is
written as `[...]` exactly if it lies on this path already, and in full otherwise**
(`text_of_array`). For the path is what the arrays that are open stand for, and as no array comes
twice on a path, no heap has a path for which the room of `Heap.text` is too small.

An array that reaches no cycle of arrays is written without any `[...]`, and it is the only kind of
array that can be. What it shares between several of its elements is written at each of them.
-/

namespace Lipi.Heap

/-! ## Renderings -/

/-- The text in brackets of an array with these elements, each of them with its own text. -/
def bracketed (values : Array Value) (textOf : Value → String) : String :=
  "[" ++ ", ".intercalate (values.toList.map textOf) ++ "]"

/-- The value, as an element of the last array of a path, is written as this text. The path leads
from the array that is printed to the value; its last array stands in front. -/
inductive Renders (h : Heap) : List ArrayRef → Value → String → Prop where
  | quoted {path : List ArrayRef} (s : String) : Renders h path (.string s) ("\"" ++ s ++ "\"")
  | simple {path : List ArrayRef} {v : Value} : (∀ s, v ≠ .string s) → (∀ a, v ≠ .array a) →
    Renders h path v (h.simpleText v)
  | again {path : List ArrayRef} {a : ArrayRef} : a ∈ path → Renders h path (.array a) "[...]"
  | full {path : List ArrayRef} {a : ArrayRef} {textOf : Value → String} : a ∉ path →
    (∀ v ∈ h.elements a, Renders h (a :: path) v (textOf v)) →
    Renders h path (.array a) (bracketed (h.elements a) textOf)

/-- The value is printed as this text: a string as it is, everything else as an element is written
for which no array is open. -/
inductive Displays (h : Heap) : Value → String → Prop where
  | string (s : String) : Displays h (.string s) s
  | other {v : Value} {t : String} : (∀ s, v ≠ .string s) → Renders h [] v t → Displays h v t

/-- The value is written as this text with all arrays in full, wherever they stand. -/
inductive Unfolds (h : Heap) : Value → String → Prop where
  | quoted (s : String) : Unfolds h (.string s) ("\"" ++ s ++ "\"")
  | simple {v : Value} : (∀ s, v ≠ .string s) → (∀ a, v ≠ .array a) → Unfolds h v (h.simpleText v)
  | full {a : ArrayRef} {textOf : Value → String} :
    (∀ v ∈ h.elements a, Unfolds h v (textOf v)) →
    Unfolds h (.array a) (bracketed (h.elements a) textOf)

/-- The second array is an element of the first. -/
def Nests (h : Heap) (a b : ArrayRef) : Prop := Value.array b ∈ h.elements a

/-- The second array is reached from the first by going from arrays to their elements. -/
def Leads (h : Heap) : ArrayRef → ArrayRef → Prop := Relation.ReflTransGen h.Nests

/-- No array that is reached from this one is reached from itself through its elements. -/
def Acyclic (h : Heap) (a : ArrayRef) : Prop := ∀ b, h.Leads a b → ¬ Relation.TransGen h.Nests b b

variable {h : Heap}

/-- Texts of the same elements are the same if the texts of each are. -/
theorem bracketed_congr {values : Array Value} {f g : Value → String}
    (hsame : ∀ v ∈ values, f v = g v) : bracketed values f = bracketed values g := by
  have htexts : values.toList.map f = values.toList.map g :=
    List.map_congr_left fun v hv => hsame v (Array.mem_toList_iff.mp hv)
  rw [bracketed, bracketed, htexts]

theorem elementText_array (n : Nat) (path : List ArrayRef) (a : ArrayRef) :
    h.elementText (n + 1) path (.array a) =
      if a ∈ path then "[...]" else bracketed (h.elements a) (h.elementText n (a :: path)) := by
  rw [elementText, bracketed]

/-! ## The text is the rendering -/

/-- A value has one rendering only. -/
theorem Renders.unique {path : List ArrayRef} {v : Value} {t t' : String}
    (ht : h.Renders path v t) (ht' : h.Renders path v t') : t = t' := by
  induction ht generalizing t' with
  | quoted s =>
      cases ht' with
      | quoted => rfl
      | simple hstring _ => exact absurd rfl (hstring s)
  | simple hstring harray =>
      cases ht' with
      | quoted s => exact absurd rfl (hstring s)
      | simple => rfl
      | again => exact absurd rfl (harray _)
      | full => exact absurd rfl (harray _)
  | again hmem =>
      cases ht' with
      | simple _ harray => exact absurd rfl (harray _)
      | again => rfl
      | full hfresh _ => exact absurd hmem hfresh
  | full hfresh _ ih =>
      cases ht' with
      | simple _ harray => exact absurd rfl (harray _)
      | again hmem => exact absurd hmem hfresh
      | full _ helements => exact bracketed_congr fun v hv => ih v hv (helements v hv)

/-- The text of an element is its rendering, as long as there is room for all arrays that are not on
the path and for one more. -/
theorem renders_elementText {room : Nat} {path : List ArrayRef} (hnodup : path.Nodup)
    (hvalid : ∀ a ∈ path, a.index < h.arrays.size) (hroom : h.arrays.size < room + path.length)
    (v : Value) : h.Renders path v (h.elementText room path v) := by
  induction room generalizing path v with
  | zero =>
      -- there would be more arrays on the path than on the heap
      have hlength := length_le_arrays hnodup hvalid
      omega
  | succ room ih =>
      cases v with
      | string s => exact .quoted s
      | array a =>
          rw [elementText_array]
          split
          next hmem => exact .again hmem
          next hfresh =>
            refine .full hfresh fun v hv => ih (List.nodup_cons.mpr ⟨hfresh, hnodup⟩) ?_ ?_ v
            · intro b hb
              rcases List.mem_cons.mp hb with rfl | hb
              · exact valid_of_mem_elements hv
              · exact hvalid b hb
            · rw [List.length_cons]
              omega
      | _ => exact .simple (fun _ => Value.noConfusion) (fun _ => Value.noConfusion)

/-- With no array open there is room for all of them. -/
theorem renders_nil_iff {v : Value} {t : String} :
    h.Renders [] v t ↔ t = h.elementText (h.arrays.size + 1) [] v := by
  have hrenders : h.Renders [] v (h.elementText (h.arrays.size + 1) [] v) :=
    renders_elementText List.nodup_nil (fun _ ha => absurd ha List.not_mem_nil)
      (Nat.lt_succ_self _) v
  constructor
  · intro ht
    exact ht.unique hrenders
  · rintro rfl
    exact hrenders

theorem displays_iff {v : Value} {t : String} : h.Displays v t ↔ t = h.text v := by
  cases v with
  | string s =>
      constructor
      · intro ht
        cases ht with
        | string => rfl
        | other hstring _ => exact absurd rfl (hstring s)
      · intro ht
        rw [ht]
        exact .string s
  | _ =>
      constructor
      · intro ht
        cases ht with
        | other _ hrenders => exact renders_nil_iff.mp hrenders
      · intro ht
        exact .other (fun _ => Value.noConfusion) (renders_nil_iff.mpr ht)

/-! ## Arrays in full -/

/-- An array that can be written in full reaches no cycle: a cycle would be written in it again and
again. -/
theorem Unfolds.acyclic {a : ArrayRef} {t : String} (ht : h.Unfolds (.array a) t) :
    h.Acyclic a := by
  generalize hv : Value.array a = v at ht
  induction ht generalizing a with
  | quoted s => cases hv
  | simple _ harray => exact absurd hv.symm (harray a)
  | full _ ih =>
      cases hv
      intro b hleads hcycle
      rcases hleads.cases_head with rfl | ⟨c, hnests, hleads⟩
      · -- a cycle through the array itself is reached from the element by which it leaves
        obtain ⟨c, hnests, hback⟩ := Relation.TransGen.head'_iff.mp hcycle
        exact ih _ hnests rfl _ hback hcycle
      · exact ih _ hnests rfl b hleads hcycle

/-- An array in an acyclic one is acyclic. -/
theorem Acyclic.nests {a b : ArrayRef} (ha : h.Acyclic a) (hnests : h.Nests a b) : h.Acyclic b :=
  fun c hleads => ha c (.head hnests hleads)

/-- No element of an acyclic array leads to an array of a path that ends in this array, if the array
itself does not lead to one that stands before it. -/
theorem Acyclic.away {a b : ArrayRef} {path : List ArrayRef} (ha : h.Acyclic a)
    (haway : ∀ c ∈ path, ¬ h.Leads a c) (hnests : h.Nests a b) : ∀ c ∈ a :: path, ¬ h.Leads b c := by
  intro c hc hleads
  rcases List.mem_cons.mp hc with rfl | hc
  · exact ha c .refl (.head' hnests hleads)
  · exact haway c hc (.head hnests hleads)

/-- What is written in full is also what is written along any path to which it does not lead
back. -/
theorem Unfolds.renders {v : Value} {t : String} (ht : h.Unfolds v t) {path : List ArrayRef}
    (haway : ∀ a, v = .array a → ∀ c ∈ path, ¬ h.Leads a c) : h.Renders path v t := by
  induction ht generalizing path with
  | quoted s => exact .quoted s
  | simple hstring harray => exact .simple hstring harray
  | @full a textOf helements ih =>
      -- inside, the path ends in `a`, to which no element leads back
      have hacyclic : h.Acyclic a := (Unfolds.full helements).acyclic
      refine .full (fun hmem => haway a rfl a hmem .refl) fun v hv => ih v hv ?_
      rintro b rfl
      exact hacyclic.away (haway a rfl) hv

/-- Along a path to which it does not lead back an acyclic array is written in full. -/
theorem Renders.unfolds {path : List ArrayRef} {v : Value} {t : String} (ht : h.Renders path v t)
    (hacyclic : ∀ a, v = .array a → h.Acyclic a)
    (haway : ∀ a, v = .array a → ∀ c ∈ path, ¬ h.Leads a c) : h.Unfolds v t := by
  induction ht with
  | quoted s => exact .quoted s
  | simple hstring harray => exact .simple hstring harray
  | again hmem => exact absurd .refl (haway _ rfl _ hmem)
  | @full path a textOf _ _ ih =>
      refine .full fun v hv => ih v hv ?_ ?_
      · rintro b rfl
        exact (hacyclic a rfl).nests hv
      · rintro b rfl
        exact (hacyclic a rfl).away (haway a rfl) hv

theorem unfolds_iff {a : ArrayRef} {t : String} :
    h.Unfolds (.array a) t ↔ h.Acyclic a ∧ h.Renders [] (.array a) t := by
  have haway : ∀ b, Value.array a = .array b → ∀ c ∈ ([] : List ArrayRef), ¬ h.Leads b c :=
    fun _ _ _ hc => absurd hc List.not_mem_nil
  constructor
  · intro ht
    exact ⟨ht.acyclic, ht.renders haway⟩
  · rintro ⟨hacyclic, ht⟩
    refine ht.unfolds ?_ haway
    rintro b hb
    cases hb
    exact hacyclic

/-! ## The main result -/

/-- **Every value of every heap has exactly one text, and it is the one that is printed**: an array
in it is written as `[...]` exactly where it lies on the path to itself. **An array can be written
in full exactly if it reaches no cycle of arrays, and it is printed in full then.** -/
theorem text_of_array (h : Heap) :
    (∀ v t, h.Displays v t ↔ t = h.text v) ∧
      ∀ a t, h.Unfolds (.array a) t ↔ h.Acyclic a ∧ t = h.text (.array a) := by
  refine ⟨fun v t => displays_iff, fun a t => ?_⟩
  rw [unfolds_iff, renders_nil_iff]
  exact Iff.rfl

/-- The first array holds the second, which holds the first, and twice the third. -/
example : ({ Heap.empty with
      arrays := #[#[.array ⟨1⟩, .array ⟨2⟩, .array ⟨2⟩], #[.array ⟨0⟩], #[.bool true]] } :
    Heap).text (.array ⟨0⟩) = "[[[...]], [true], [true]]" := by
  decide +kernel

end Lipi.Heap
