import Lipi.Module.Memory
import Lipi.Proofs.Machine.Enclosure
import Lipi.Proofs.Machine.Restoration

set_option autoImplicit false

/-! # Isolated modules

A module gets nothing from its importer. It starts in a new scope, without active calls; the only
objects that it can come to, apart from those it makes, are those to which the exports of modules
lead that have been run before. **All other objects are after the load what they were before it**,
whether the module could be loaded or not, and whatever it has imported in turn
(`imports_isolated`).
-/

namespace Lipi

/-- A value that a module exports leads to the object, through any number of others. -/
def Machine.Exported (m : Machine) (r : Ref) : Prop :=
  ∃ id exports, m.modules.cached? id = some exports ∧ ∃ e ∈ exports.entries, ∃ first ∈ e.2.refs,
    Relation.ReflTransGen m.heap.RefersTo first r

namespace Machine

variable {m : Machine}

theorem closed_exported (m : Machine) : m.heap.Closed m.Exported := by
  rintro r r' ⟨id, exports, hc, e, he, first, hfirst, hpath⟩ href
  exact ⟨id, exports, hc, e, he, first, hfirst, hpath.tail href⟩

/-- What exports lead to is in any set of objects that refer only to one another and to which the
exports refer. -/
theorem Exported.inside (inside : Ref → Prop) (hclosed : m.heap.Closed inside)
    (hexports : ∀ id exports, m.modules.cached? id = some exports →
      ∀ e ∈ exports.entries, e.2.Inside inside)
    {r : Ref} (hr : m.Exported r) : inside r := by
  obtain ⟨id, exports, hc, e, he, first, hfirst, hpath⟩ := hr
  have hin := hexports id exports hc e he first hfirst
  induction hpath with
  | refl => exact hin
  | tail _ href ih => exact hclosed _ _ ih href

/-- What a module that is loaded can come to: the objects to which exports lead, and new ones. -/
def enclosure (m : Machine) : Enclosure := ⟨m.heap, m.Exported⟩

theorem holds_enclosure (m : Machine) : m.enclosure.Holds m where
  heap := Enclosure.keeps_base m.closed_exported
  exports id exports hc e he first hfirst :=
    .inl ⟨id, exports, hc, e, he, first, hfirst, .refl⟩

end Machine

/-! ## Loading -/

/-- A module that is loaded stays in every enclosure that holds its importer's heap and what modules
have exported. -/
theorem Enclosure.Holds.loadModule {E : Enclosure} {m : Machine} (hm : E.Holds m) (n : Nat)
    (specifier : String) (pos : Position) :
    E.Holds (((Runner.within n).loadModule specifier pos).final m) := by
  unfold Eval.final
  rcases Runner.loadModule_cases specifier pos m.modules m.moduleId with
    ⟨cause, hfail⟩ | ⟨exports, hdone⟩ | ⟨id, _, program, _, _, _, hrun⟩
  · rw [hfail _ m rfl rfl]
    exact hm
  · rw [hdone _ m rfl rfl]
    exact hm
  · have hmodule := (E.accord.within n).runModule program (m.startModule id) (m.startModule id)
      (E.accord.later_refl _) ⟨rfl, hm.startModule id⟩
    rw [hrun _ m rfl rfl, Runner.importProgram_eq]
    generalize (Runner.within n).runModule program (m.startModule id) = r at hmodule ⊢
    generalize (Runner.hooked _ n).runModule program (m.startModule id) = r' at hmodule
    cases hmodule with
    | ok _ hended hexports =>
        have hresumed : E.Holds (m.resume _ id) := ⟨hended.2.heap, hended.2.exports⟩
        exact hresumed.store id (Dict.like_eq_iff.mp hexports).2
    | @error halt _ ended _ _ hended _ =>
        have hresumed : E.Holds (m.resume ended id) := ⟨hended.2.heap, hended.2.exports⟩
        cases halt <;> exact hresumed

/-- **Loading a module changes no object to which no export leads**, however the load ends. As long
as no module has been run, it changes no object at all. -/
theorem imports_isolated (n : Nat) (specifier : String) (pos : Position) (m : Machine) :
    (∀ r, m.heap.Has r → ¬ m.Exported r →
      m.heap.SameAt (((Runner.within n).loadModule specifier pos).final m).heap r) ∧
    ((∀ id, m.modules.cached? id = none) → ∀ r, m.heap.Has r →
      m.heap.SameAt (((Runner.within n).loadModule specifier pos).final m).heap r) := by
  have hsame := (m.holds_enclosure.loadModule n specifier pos).heap.same
  refine ⟨hsame, fun hfresh r hr => hsame r hr ?_⟩
  rintro ⟨id, exports, hc, _⟩
  rw [hfresh id] at hc
  cases hc

/-- A module writes to an array that another module exports. An array of the importer stays. -/
theorem imports_isolated_elements :
    let texts := [("a", "lao \x7b ys \x7d se \"b\"\nys[0] = \"new\""), ("b", "")]
    let exports : Exports := Dict.empty.insert "ys" (.array ⟨1⟩)
    let m : Machine := {
      heap := ⟨#[⟨.empty, none⟩], #[#[], #[]], #[], #[], #[], #[]⟩
      globals := ⟨0⟩, environment := ⟨0⟩, frames := [], limits := .standard
      output := #[], exports := #[], moduleId := none
      modules := ⟨(MemoryModules.ofList texts).loader, Dict.empty.insert "b" exports, []⟩ }
    let after := ((Runner.within 20).loadModule "a" ⟨1, 1⟩).final m
    (after.heap.elements ⟨1⟩).size = 1 ∧ m.heap.Has (.array ⟨0⟩) ∧ ¬ m.Exported (.array ⟨0⟩) ∧
      m.heap.SameAt after.heap (.array ⟨0⟩) := by
  intro texts exports m after
  have hfree : ¬ m.Exported (.array ⟨0⟩) := by
    intro hr
    have hother := hr.inside (· = .array ⟨1⟩) ?_ ?_
    · cases hother
    · rintro r r' rfl ⟨v, hv, _⟩
      exact absurd hv (Array.not_mem_empty v)
    · intro id kept hc e he
      change (Dict.empty.insert "b" exports).get? id = some kept at hc
      rw [Dict.get?_insert] at hc
      split at hc
      · cases hc
        cases List.mem_singleton.mp he
        exact Value.inside_array.mpr rfl
      · cases hc
  exact ⟨by decide +kernel, by decide, hfree,
    (imports_isolated 20 "a" ⟨1, 1⟩ m).1 (.array ⟨0⟩) (by decide) hfree⟩

end Lipi
