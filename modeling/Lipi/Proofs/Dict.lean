import Lipi.Dict
import Mathlib.Data.List.Forall2

set_option autoImplicit false

/-! # Entries of dictionaries

What stands in a dictionary after an insertion, and dictionaries that have the same names with
related values.
-/

namespace Lipi.Dict

/-! ## Entries -/

theorem mem_of_find? {β : Type} {name : String} {value : β} {entries : List (String × β)}
    (h : find? name entries = some value) : (name, value) ∈ entries := by
  induction entries with
  | nil => cases h
  | cons entry rest ih =>
      obtain ⟨key, old⟩ := entry
      unfold find? at h
      by_cases hkey : key = name
      · rw [if_pos hkey] at h
        cases h
        subst hkey
        exact List.mem_cons_self
      · rw [if_neg hkey] at h
        exact List.mem_cons_of_mem _ (ih h)

theorem mem_put {β : Type} {name : String} {v : β} {entries : List (String × β)}
    {e : String × β} (he : e ∈ put name v entries) : e ∈ entries ∨ e.2 = v := by
  induction entries with
  | nil =>
      rw [put, List.mem_singleton] at he
      exact .inr (congrArg Prod.snd he)
  | cons entry rest ih =>
      obtain ⟨key, old⟩ := entry
      rw [put] at he
      split at he
      · rcases List.mem_cons.mp he with rfl | hrest
        · exact .inr rfl
        · exact .inl (List.mem_cons_of_mem _ hrest)
      · rcases List.mem_cons.mp he with rfl | hrest
        · exact .inl List.mem_cons_self
        · rcases ih hrest with hmem | heq
          · exact .inl (List.mem_cons_of_mem _ hmem)
          · exact .inr heq

theorem mem_of_get? {β : Type} {d : Dict β} {name : String} {v : β} (h : d.get? name = some v) :
    (name, v) ∈ d.entries :=
  mem_of_find? h

/-- An entry of a dictionary after an insertion is an old one or has the new value. -/
theorem mem_insert {β : Type} {d : Dict β} {name : String} {v : β} {e : String × β}
    (he : e ∈ (d.insert name v).entries) : e ∈ d.entries ∨ e.2 = v :=
  mem_put he

/-! ## Related dictionaries -/

/-- Two dictionaries have the same names in the same order, with related values. -/
def Like {β : Type} (r : β → β → Prop) (d d' : Dict β) : Prop :=
  List.Forall₂ (fun p q => p.1 = q.1 ∧ r p.2 q.2) d.entries d'.entries

section Like

variable {β : Type} {r : β → β → Prop}

theorem like_empty : Like r .empty .empty :=
  .nil

theorem like_refl (hr : ∀ b, r b b) (d : Dict β) : Like r d d :=
  List.forall₂_same.mpr fun p _ => ⟨rfl, hr p.2⟩

theorem Like.mono {r' : β → β → Prop} (hr : ∀ a b, r a b → r' a b) {d d' : Dict β}
    (h : Like r d d') : Like r' d d' :=
  List.Forall₂.imp (fun _ _ hp => ⟨hp.1, hr _ _ hp.2⟩) h

theorem Like.get? {d d' : Dict β} (h : Like r d d') (name : String) :
    Option.Rel r (d.get? name) (d'.get? name) := by
  obtain ⟨entries⟩ := d
  obtain ⟨entries'⟩ := d'
  change List.Forall₂ _ entries entries' at h
  change Option.Rel r (find? name entries) (find? name entries')
  induction h with
  | nil => exact .none
  | @cons p q _ _ hp _ ih =>
      obtain ⟨key, value⟩ := p
      obtain ⟨key', value'⟩ := q
      obtain ⟨rfl, hvalue⟩ := hp
      by_cases hkey : key = name
      · simpa [find?, hkey] using Option.Rel.some hvalue
      · simpa [find?, hkey] using ih

theorem Like.contains {d d' : Dict β} (h : Like r d d') (name : String) :
    d'.contains name = d.contains name := by
  have hget := h.get? name
  unfold Dict.contains
  generalize d.get? name = v at hget
  generalize d'.get? name = v' at hget
  cases hget <;> rfl

theorem Like.insert {d d' : Dict β} (h : Like r d d') (name : String) {v v' : β}
    (hv : r v v') : Like r (d.insert name v) (d'.insert name v') := by
  obtain ⟨entries⟩ := d
  obtain ⟨entries'⟩ := d'
  change List.Forall₂ _ entries entries' at h
  change List.Forall₂ _ (put name v entries) (put name v' entries')
  induction h with
  | nil => exact .cons ⟨rfl, hv⟩ .nil
  | @cons p q _ _ hp htail ih =>
      obtain ⟨key, value⟩ := p
      obtain ⟨key', value'⟩ := q
      obtain ⟨rfl, hvalue⟩ := hp
      by_cases hkey : key = name
      · simpa [put, hkey] using ⟨hv, htail⟩
      · simpa [put, hkey] using ⟨hvalue, ih⟩

/-- Two dictionaries whose values are equal and have a property are the same. -/
theorem like_eq_iff {p : β → Prop} {d d' : Dict β} :
    Like (fun a b => b = a ∧ p a) d d' ↔ d' = d ∧ ∀ e ∈ d.entries, p e.2 := by
  obtain ⟨entries⟩ := d
  obtain ⟨entries'⟩ := d'
  simp only [Like, Dict.mk.injEq]
  induction entries generalizing entries' with
  | nil => simp [List.forall₂_nil_left_iff]
  | cons e entries ih =>
      cases entries' with
      | nil => simp [List.forall₂_nil_right_iff]
      | cons e' entries' =>
          obtain ⟨key, value⟩ := e
          obtain ⟨key', value'⟩ := e'
          simp only [List.forall₂_cons, ih, List.cons.injEq, Prod.mk.injEq, List.mem_cons,
            forall_eq_or_imp]
          constructor
          · rintro ⟨⟨rfl, rfl, hp⟩, rfl, hps⟩
            exact ⟨⟨⟨rfl, rfl⟩, rfl⟩, hp, hps⟩
          · rintro ⟨⟨⟨rfl, rfl⟩, rfl⟩, hp, hps⟩
            exact ⟨⟨rfl, rfl, hp⟩, rfl, hps⟩

end Like

end Lipi.Dict
