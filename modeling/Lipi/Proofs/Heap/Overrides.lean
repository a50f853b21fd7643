import Lipi.Proofs.Heap.Lineage
import Mathlib.Data.List.Basic

set_option autoImplicit false

/-! # Overrides

The overrides of a method along the chain of a class, the most derived first. The first of them is
the method that is found from the class, and each of the others is **the nearest one above the one
before it** (`Overrides.nearestAbove_iff`).
-/

namespace Lipi.Heap

variable (h : Heap)

/-- The overrides of an instance method among some classes, the most derived first. -/
structure Overrides (among : ClassRef → Prop) (name : String)
    (chain : List (ClassRef × MethodRef)) : Prop where
  complete : ∀ home f, (home, f) ∈ chain ↔ among home ∧ h.Declares home .ofInstances name f
  ordered : chain.Pairwise fun a b => h.Ancestor a.1 b.1

variable {h} {among : ClassRef → Prop} {c home : ClassRef} {name : String} {f : MethodRef}
  {chain rest : List (ClassRef × MethodRef)}

namespace Overrides

variable (ho : h.Overrides among name ((home, f) :: rest))
include ho

/-- What follows an override are the overrides above it. -/
theorem tail (ha : h.Ancestral) (hup : ∀ d, h.Ancestor home d → among d) :
    h.Overrides (h.Ancestor home) name rest := by
  obtain ⟨hbelow, hordered⟩ := List.pairwise_cons.mp ho.ordered
  refine ⟨fun d g => ⟨fun hmem => ?_, fun ⟨hanc, hg⟩ => ?_⟩, hordered⟩
  · exact ⟨hbelow _ hmem, ((ho.complete d g).mp (List.mem_cons_of_mem _ hmem)).2⟩
  · rcases List.mem_cons.mp ((ho.complete d g).mpr ⟨hup d hanc, hg⟩) with heq | hmem
    · cases heq
      exact absurd hanc (ha.acyclic home)
    · exact hmem

/-- No class below the first override declares the method. -/
theorem first (ha : h.Ancestral) (mid : ClassRef) (hmid : among mid) (hbelow : h.Ancestor mid home)
    (g : MethodRef) : ¬ h.Declares mid .ofInstances name g := by
  intro hg
  rcases List.mem_cons.mp ((ho.complete mid g).mpr ⟨hmid, hg⟩) with heq | hmem
  · cases heq
    exact ha.acyclic _ hbelow
  · exact ha.acyclic _ (hbelow.trans ((List.pairwise_cons.mp ho.ordered).1 _ hmem))

end Overrides

namespace Overrides

/-- What follows the first of the overrides of a class are the overrides above it. -/
theorem tail_of_lineage (ha : h.Ancestral)
    (ho : h.Overrides (h.Lineage c) name ((home, f) :: rest)) :
    h.Overrides (h.Ancestor home) name rest := by
  have hline := ((ho.complete home f).mp List.mem_cons_self).1
  exact ho.tail ha fun d hd => hline.trans hd.to_reflTransGen

/-- What follows the first of the overrides above a class are the overrides above it. -/
theorem tail_of_ancestor (ha : h.Ancestral)
    (ho : h.Overrides (h.Ancestor c) name ((home, f) :: rest)) :
    h.Overrides (h.Ancestor home) name rest := by
  have hanc := ((ho.complete home f).mp List.mem_cons_self).1
  exact ho.tail ha fun d hd => hanc.trans hd

/-- An override below which no class declares the method is the first one. -/
theorem eq_cons_of_first (ho : h.Overrides among name chain) (hamong : among home)
    (hd : h.Declares home .ofInstances name f)
    (hfirst : ∀ mid, among mid → h.Ancestor mid home → ∀ g, ¬ h.Declares mid .ofInstances name g) :
    ∃ rest, chain = (home, f) :: rest := by
  have hmem := (ho.complete home f).mpr ⟨hamong, hd⟩
  cases chain with
  | nil => cases hmem
  | cons head rest =>
      rcases List.mem_cons.mp hmem with heq | hrest
      · exact ⟨rest, by rw [heq]⟩
      · obtain ⟨hin, hdeclared⟩ := (ho.complete head.1 head.2).mp List.mem_cons_self
        exact absurd hdeclared
          (hfirst head.1 hin ((List.pairwise_cons.mp ho.ordered).1 _ hrest) head.2)

/-- The first of the overrides of a class is the method that is found from the class. -/
theorem nearest (ha : h.Ancestral) (ho : h.Overrides (h.Lineage c) name ((home, f) :: rest)) :
    h.Nearest c .ofInstances name home f := by
  obtain ⟨hline, hd⟩ := (ho.complete home f).mp List.mem_cons_self
  exact ⟨hline, hd, ho.first ha⟩

/-- The first of the overrides above a class is the nearest one. -/
theorem nearestAbove_iff (ha : h.Ancestral) (ho : h.Overrides (h.Ancestor c) name chain) :
    h.NearestAbove c .ofInstances name home f ↔ ∃ rest, chain = (home, f) :: rest := by
  constructor
  · exact fun hn => ho.eq_cons_of_first hn.ancestor hn.declares hn.first
  · rintro ⟨rest, rfl⟩
    obtain ⟨hanc, hd⟩ := (ho.complete home f).mp List.mem_cons_self
    exact ⟨hanc, hd, ho.first ha⟩

end Overrides

/-- The overrides among some classes are one chain, if with a class its ancestors are among them. -/
theorem Overrides.unique (ha : h.Ancestral) (hup : ∀ c d, among c → h.Ancestor c d → among d)
    {chain' : List (ClassRef × MethodRef)} (ho : h.Overrides among name chain)
    (ho' : h.Overrides among name chain') : chain = chain' := by
  induction chain generalizing among chain' with
  | nil =>
      cases chain' with
      | nil => rfl
      | cons head rest =>
          have hhead := (ho'.complete head.1 head.2).mp List.mem_cons_self
          exact nomatch (ho.complete head.1 head.2).mpr hhead
  | cons head rest ih =>
      obtain ⟨home, f⟩ := head
      obtain ⟨hhome, hd⟩ := (ho.complete home f).mp List.mem_cons_self
      obtain ⟨rest', rfl⟩ := ho'.eq_cons_of_first hhome hd (ho.first ha)
      have habove := fun d hanc => hup home d hhome hanc
      rw [ih (fun _ _ => .trans) (ho.tail ha habove) (ho'.tail ha habove)]

/-! ## Every class has its overrides -/

theorem lineage_iff_ancestor {a : ClassRef} : h.Lineage c a ↔ a = c ∨ h.Ancestor c a := by
  unfold Lineage Ancestor
  rw [Relation.reflTransGen_iff_eq_or_transGen]

/-- A class that declares the method comes before the overrides above it. -/
theorem overrides_declared (ho : h.Overrides (h.Ancestor c) name rest)
    (hd : h.Declares c .ofInstances name f) : h.Overrides (h.Lineage c) name ((c, f) :: rest) := by
  refine ⟨fun home g => ?_, List.pairwise_cons.mpr ⟨fun a ha => ?_, ho.ordered⟩⟩
  · rw [List.mem_cons, ho.complete, lineage_iff_ancestor]
    constructor
    · rintro (heq | ⟨hanc, hg⟩)
      · cases heq
        exact ⟨.inl rfl, hd⟩
      · exact ⟨.inr hanc, hg⟩
    · rintro ⟨rfl | hanc, hg⟩
      · exact .inl (by rw [Option.some.inj (hd.symm.trans hg)])
      · exact .inr ⟨hanc, hg⟩
  · exact ((ho.complete a.1 a.2).mp ha).1

/-- A class that does not declare the method has the overrides above it. -/
theorem overrides_inherited (ho : h.Overrides (h.Ancestor c) name chain)
    (hd : ∀ f, ¬ h.Declares c .ofInstances name f) : h.Overrides (h.Lineage c) name chain := by
  refine ⟨fun home g => ?_, ho.ordered⟩
  rw [ho.complete, lineage_iff_ancestor]
  constructor
  · exact fun ⟨hanc, hg⟩ => ⟨.inr hanc, hg⟩
  · rintro ⟨rfl | hanc, hg⟩
    · exact absurd hg (hd g)
    · exact ⟨hanc, hg⟩

/-- The overrides of the superclass are those above the class. -/
theorem overrides_above {p : ClassRef} (hp : h.Parent c p) (ho : h.Overrides (h.Lineage p) name chain) :
    h.Overrides (h.Ancestor c) name chain := by
  have hsame : h.Lineage p = h.Ancestor c := funext fun a => propext (ancestor_iff hp).symm
  exact hsame ▸ ho

theorem overrides_root (hroot : (h.classObject c).superclass = none) :
    h.Overrides (h.Ancestor c) name [] := by
  refine ⟨fun home f => ?_, .nil⟩
  simp only [List.not_mem_nil, false_iff]
  rintro ⟨hanc, _⟩
  obtain ⟨p, hp, _⟩ := Relation.TransGen.head'_iff.mp hanc
  exact absurd (hp.symm.trans hroot) (Option.some_ne_none p)

theorem Ancestral.exists_overrides (ha : h.Ancestral) (c : ClassRef) (name : String) :
    ∃ chain, h.Overrides (h.Lineage c) name chain := by
  induction hindex : c.index using Nat.strongRecOn generalizing c with
  | ind n ih =>
      have habove : ∃ rest, h.Overrides (h.Ancestor c) name rest := by
        cases hsuper : (h.classObject c).superclass with
        | none => exact ⟨[], overrides_root hsuper⟩
        | some p =>
            have hp : h.Parent c p := hsuper
            obtain ⟨chain, hchain⟩ := ih p.index (hindex ▸ ha c p hp) p rfl
            exact ⟨chain, overrides_above hp hchain⟩
      obtain ⟨rest, hrest⟩ := habove
      cases hd : ((h.classObject c).table .ofInstances).get? name with
      | some f => exact ⟨_, overrides_declared hrest hd⟩
      | none => exact ⟨rest, overrides_inherited hrest fun f hf => nomatch hd.symm.trans hf⟩

end Lipi.Heap
