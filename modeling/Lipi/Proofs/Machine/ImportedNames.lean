import Lipi.Module.Memory
import Lipi.Proofs.Machine.Declarations
import Lipi.Proofs.Machine.Halting
import Lipi.Proofs.Machine.Steps
import Lipi.Session

set_option autoImplicit false

/-! # The names that an import binds

An import loads a module and then binds the names of its list, one after the other, as constants.
**It stops at the first name that is not exported or is a constant already, and the names before it
stay bound.** Nothing else about the names of any scope is changed, however it ends: with a module
that cannot be loaded it binds nothing, and if it is stopped it has bound what stands before the
name that stopped it (`import_binds_names`). Afterwards other names can be imported; the
names that were bound cannot be imported again (`failed_import_binds`).
-/

namespace Lipi

namespace Heap

/-- The heap in which names are bound in a scope to their exported values, as constants. -/
def bindExports (h : Heap) (s : ScopeRef) (exports : Exports) : List String → Heap
  | [] => h
  | x :: xs =>
    match exports.get? x with
    | some v => (h.setBinding s x ⟨v, true⟩).bindExports s exports xs
    | none => h

/-- Names that can all be bound in a scope: they are exported, the scope does not bind them as
constants, and none of them comes twice. -/
structure Bindable (h : Heap) (s : ScopeRef) (exports : Exports) (names : List String) : Prop where
  exported : ∀ x ∈ names, ∃ v, exports.get? x = some v
  free : ∀ x ∈ names, h.constancy? s x ≠ some true
  once : names.Nodup

/-- A name that cannot be bound in a scope after others, and why. -/
inductive Refuses (h : Heap) (s : ScopeRef) (exports : Exports) (specifier : String)
    (bound : List String) (x : String) : RuntimeError.Cause → Prop where
  | missing : exports.get? x = none →
      Refuses h s exports specifier bound x (.missingExport specifier x)
  | constant {v : Value} : exports.get? x = some v → h.constancy? s x = some true ∨ x ∈ bound →
      Refuses h s exports specifier bound x (.constantReassignment x)

section Binding

variable {h : Heap} {s : ScopeRef} {exports : Exports}

theorem isConstantAt_iff_constancy? (h : Heap) (s : ScopeRef) (x : String) :
    h.isConstantAt s x = true ↔ h.constancy? s x = some true := by
  unfold isConstantAt constancy?
  cases h.bindingAt? s x <;> simp

/-- What a scope of the heap binds after one more binding is made in it. -/
theorem constancy?_setBinding (hs : s.index < h.scopes.size) (x y : String) (b : Binding) :
    (h.setBinding s y b).constancy? s x = if x = y then some b.constant else h.constancy? s x := by
  unfold constancy?
  rw [bindingAt?_setBinding, scope?, Array.getElem?_eq_getElem hs]
  by_cases hx : x = y
  · rw [if_pos ⟨rfl, hx⟩, if_pos hx]
    rfl
  · rw [if_neg fun hsame => hx hsame.2, if_neg hx]

theorem bindExports_cons {x : String} {v : Value} (hv : exports.get? x = some v)
    (xs : List String) : h.bindExports s exports (x :: xs) =
      (h.setBinding s x ⟨v, true⟩).bindExports s exports xs := by
  rw [bindExports, hv]

theorem keepsNames_bindExports (h : Heap) (s : ScopeRef) (exports : Exports)
    (names : List String) : h.KeepsNames (· ≠ s) (h.bindExports s exports names) := by
  induction names generalizing h with
  | nil => exact keepsNames_of_scopes rfl
  | cons y ys ih =>
      unfold bindExports
      cases exports.get? y with
      | none => exact keepsNames_of_scopes rfl
      | some v => exact (keepsNames_setBinding s y _).trans (ih _)

/-- The scope binds the names to their exported values, and what it bound besides. -/
theorem bindingAt?_bindExports {names : List String} (hs : s.index < h.scopes.size)
    (hexported : ∀ x ∈ names, ∃ v, exports.get? x = some v) (x : String) :
    (h.bindExports s exports names).bindingAt? s x =
      if x ∈ names then (exports.get? x).map (⟨·, true⟩) else h.bindingAt? s x := by
  induction names generalizing h with
  | nil => rfl
  | cons y ys ih =>
      obtain ⟨v, hv⟩ := hexported y List.mem_cons_self
      have hs' : s.index < (h.setBinding s y ⟨v, true⟩).scopes.size :=
        Nat.lt_of_lt_of_le hs (keepsNames_setBinding s y _).size
      rw [bindExports_cons hv, ih hs' fun z hz => hexported z (List.mem_cons_of_mem y hz),
        bindingAt?_setBinding, scope?, Array.getElem?_eq_getElem hs]
      by_cases hx : x ∈ ys
      · rw [if_pos hx, if_pos (List.mem_cons_of_mem y hx)]
      · by_cases hy : x = y
        · subst hy
          rw [if_neg hx, if_pos ⟨rfl, rfl⟩, if_pos List.mem_cons_self, hv]
          rfl
        · rw [if_neg hx, if_neg fun hsame => hy hsame.2,
            if_neg fun hmem => (List.mem_cons.mp hmem).elim hy hx]

/-- The names are constants of the scope, beside those that were. -/
theorem Bindable.constancy?_bindExports {names : List String} (hnames : h.Bindable s exports names)
    (hs : s.index < h.scopes.size) (x : String) :
    (h.bindExports s exports names).constancy? s x =
      if x ∈ names then some true else h.constancy? s x := by
  unfold constancy?
  rw [bindingAt?_bindExports hs hnames.exported]
  by_cases hx : x ∈ names
  · obtain ⟨v, hv⟩ := hnames.exported x hx
    rw [if_pos hx, if_pos hx, hv]
    rfl
  · rw [if_neg hx, if_neg hx]

theorem bindable_nil (h : Heap) (s : ScopeRef) (exports : Exports) : h.Bindable s exports [] :=
  ⟨by simp, by simp, List.nodup_nil⟩

/-- The first name can be bound, and after it the others. -/
theorem bindable_cons {x : String} {xs : List String} {v : Value} (hs : s.index < h.scopes.size)
    (hv : exports.get? x = some v) (hfree : h.constancy? s x ≠ some true)
    (hrest : (h.setBinding s x ⟨v, true⟩).Bindable s exports xs) :
    h.Bindable s exports (x :: xs) := by
  have hother : ∀ y ∈ xs, y ≠ x := by
    rintro y hy rfl
    exact hrest.free y hy (by rw [constancy?_setBinding hs, if_pos rfl])
  refine ⟨fun y hy => ?_, fun y hy => ?_,
    List.nodup_cons.mpr ⟨fun hx => hother x hx rfl, hrest.once⟩⟩
  · rcases List.mem_cons.mp hy with rfl | hy
    · exact ⟨v, hv⟩
    · exact hrest.exported y hy
  · rcases List.mem_cons.mp hy with rfl | hy
    · exact hfree
    · have hy' := hrest.free y hy
      rwa [constancy?_setBinding hs, if_neg (hother y hy)] at hy'

theorem Refuses.cons {specifier x y : String} {bound : List String} {v : Value}
    {cause : RuntimeError.Cause} (hs : s.index < h.scopes.size)
    (hrefuses : (h.setBinding s y ⟨v, true⟩).Refuses s exports specifier bound x cause) :
    h.Refuses s exports specifier (y :: bound) x cause := by
  cases hrefuses with
  | missing hnone => exact .missing hnone
  | constant hw hconstant =>
      refine .constant hw ?_
      rw [constancy?_setBinding hs] at hconstant
      rcases hconstant with hconstant | hmem
      · by_cases hx : x = y
        · exact .inr (hx ▸ List.mem_cons_self)
        · rw [if_neg hx] at hconstant
          exact .inl hconstant
      · exact .inr (List.mem_cons_of_mem y hmem)

/-- What can be bound depends on the constants of the scope. -/
theorem Bindable.congr {h' : Heap} {names : List String}
    (hsame : ∀ x, h'.constancy? s x = h.constancy? s x) (hnames : h'.Bindable s exports names) :
    h.Bindable s exports names :=
  ⟨hnames.exported, fun x hx => hsame x ▸ hnames.free x hx, hnames.once⟩

theorem Refuses.congr {h' : Heap} {specifier x : String} {bound : List String}
    {cause : RuntimeError.Cause} (hsame : ∀ x, h'.constancy? s x = h.constancy? s x)
    (hrefuses : h'.Refuses s exports specifier bound x cause) :
    h.Refuses s exports specifier bound x cause := by
  cases hrefuses with
  | missing hnone => exact .missing hnone
  | constant hv hconstant => exact .constant hv (hsame x ▸ hconstant)

/-- Of names that can all be bound none is refused. -/
theorem Bindable.not_refuses {bound rest : List String} {specifier x : String}
    {cause : RuntimeError.Cause} (hnames : h.Bindable s exports (bound ++ x :: rest)) :
    ¬ h.Refuses s exports specifier bound x cause := by
  have hx : x ∈ bound ++ x :: rest := List.mem_append_right bound List.mem_cons_self
  intro hrefuses
  cases hrefuses with
  | missing hnone =>
      obtain ⟨v, hv⟩ := hnames.exported x hx
      rw [hnone] at hv
      cases hv
  | constant _ hconstant =>
      rcases hconstant with hconstant | hmem
      · exact hnames.free x hx hconstant
      · have hapart := (List.nodup_append.mp hnames.once).2.2
        exact hapart x hmem x List.mem_cons_self rfl

end Binding

end Heap

/-! ## The names of a list, one after the other -/

namespace Machine

/-- The machine in whose scope names are bound to their exported values. -/
def withExports (m : Machine) (exports : Exports) (names : List String) : Machine :=
  { m with heap := m.heap.bindExports m.environment exports names }

theorem withExports_cons (m : Machine) {exports : Exports} {x : String} {v : Value}
    (hv : exports.get? x = some v) (xs : List String) :
    m.withExports exports (x :: xs) = withExports
      { m with heap := m.heap.setBinding m.environment x ⟨v, true⟩ } exports xs := by
  unfold withExports
  rw [Heap.bindExports_cons hv]

end Machine

section Binding

variable {m : Machine} {exports : Exports} {specifier x : String} {xs : List String} {p : Position}

theorem Eval.bindImports_missing (hnone : exports.get? x = none) :
    bindImports specifier exports p (x :: xs) m =
      .error (.failed ⟨.missingExport specifier x, some p⟩) m := by
  unfold bindImports
  rw [hnone]
  rfl

theorem Eval.bindImports_constant {v : Value} (hv : exports.get? x = some v)
    (hconstant : m.heap.constancy? m.environment x = some true) :
    bindImports specifier exports p (x :: xs) m =
      .error (.failed ⟨.constantReassignment x, some p⟩) m := by
  have hdeclare : declare x v true p m = .error (.failed ⟨.constantReassignment x, some p⟩) m := by
    rw [declare_eq]
    unfold update Heap.defineTarget
    dsimp only
    rw [if_pos ((Heap.isConstantAt_iff_constancy? _ _ _).mpr hconstant)]
  unfold bindImports
  rw [hv]
  exact Eval.bind_error _ hdeclare

theorem Eval.bindImports_free {v : Value} (hv : exports.get? x = some v)
    (hfree : m.heap.constancy? m.environment x ≠ some true) :
    bindImports specifier exports p (x :: xs) m =
      bindImports specifier exports p xs
        { m with heap := m.heap.setBinding m.environment x ⟨v, true⟩ } := by
  have hdeclare : declare x v true p m =
      .ok () { m with heap := m.heap.setBinding m.environment x ⟨v, true⟩ } := by
    rw [declare_eq]
    unfold update Heap.defineTarget
    dsimp only
    rw [if_neg fun hconstant => hfree ((Heap.isConstantAt_iff_constancy? _ _ _).mp hconstant)]
  conv => lhs; unfold bindImports
  rw [hv]
  exact Eval.bind_ok _ hdeclare

/-- All names of a list are bound, or those before the first one that is refused. -/
theorem Eval.bindImports_cases (names : List String) (m : Machine)
    (hs : m.environment.index < m.heap.scopes.size) :
    (m.heap.Bindable m.environment exports names ∧
      bindImports specifier exports p names m = .ok () (m.withExports exports names)) ∨
    ∃ bound x rest cause, names = bound ++ x :: rest ∧
      m.heap.Bindable m.environment exports bound ∧
      m.heap.Refuses m.environment exports specifier bound x cause ∧
      bindImports specifier exports p names m =
        .error (.failed ⟨cause, some p⟩) (m.withExports exports bound) := by
  induction names generalizing m with
  | nil => exact .inl ⟨Heap.bindable_nil _ _ _, rfl⟩
  | cons y ys ih =>
      cases hv : exports.get? y with
      | none =>
          exact .inr ⟨[], y, ys, _, rfl, Heap.bindable_nil _ _ _, .missing hv,
            bindImports_missing hv⟩
      | some v =>
          by_cases hconstant : m.heap.constancy? m.environment y = some true
          · exact .inr ⟨[], y, ys, _, rfl, Heap.bindable_nil _ _ _, .constant hv (.inl hconstant),
              bindImports_constant hv hconstant⟩
          -- binding one name keeps the scope in which the others are bound
          · have hs' : m.environment.index <
                (m.heap.setBinding m.environment y ⟨v, true⟩).scopes.size :=
              Nat.lt_of_lt_of_le hs (Heap.keepsNames_setBinding m.environment y _).size
            rw [bindImports_free hv hconstant]
            rcases ih { m with heap := m.heap.setBinding m.environment y ⟨v, true⟩ } hs' with
              ⟨hrest, hrun⟩ | ⟨bound, x, rest, cause, rfl, hbound, hrefuses, hrun⟩
            · exact .inl ⟨Heap.bindable_cons hs hv hconstant hrest,
                by rw [hrun, m.withExports_cons hv]⟩
            · exact .inr ⟨y :: bound, x, rest, cause, rfl,
                Heap.bindable_cons hs hv hconstant hbound, hrefuses.cons hs,
                by rw [hrun, m.withExports_cons hv]⟩

end Binding

/-! ## Loading -/

namespace Runner

open Restoration

section Loading

variable {run : Runner} {specifier : String} {exports : Exports} {p : Position} {m loaded : Machine}

/-- The exports of a module that has been loaded are kept. -/
theorem cached_of_loadModule (hs : ∀ s, Restores (run.execute s))
    (hload : run.loadModule specifier p m = .ok exports loaded) :
    ∃ id, loaded.modules.loader.resolve specifier loaded.moduleId = .ok id ∧
      loaded.modules.cached? id = some exports := by
  have hrestored : m.Restored loaded := (restores_loadModule hs specifier p).of_ok hload
  rw [hrestored.moduleId, hrestored.loader]
  rw [loadModule_eq, Eval.findModule_apply] at hload
  cases hresolve : m.modules.loader.resolve specifier m.moduleId with
  | error e =>
      rw [hresolve] at hload
      cases hload
  | ok id =>
      rw [hresolve] at hload
      refine ⟨id, rfl, ?_⟩
      cases hcached : m.modules.cached? id with
      -- the module had been run before, and nothing has changed
      | some kept =>
          simp only [hcached] at hload
          cases hload
          exact hcached
      | none =>
          simp only [hcached] at hload
          by_cases hloading : m.modules.isLoading id = true
          · rw [if_pos hloading] at hload
            cases hload
          · rw [if_neg hloading] at hload
            rcases Eval.readProgram_cases specifier id p m.modules.loader with
              ⟨cause, _, hfail⟩ | ⟨_, program, _, _, hread⟩
            · rw [hfail _ m rfl] at hload
              cases hload
            · rw [hread _ m rfl, importProgram_eq] at hload
              cases hresult : run.runModule program (m.startModule id) with
              | error halt ended =>
                  rw [hresult] at hload
                  cases hload
              -- the module has been run now, and its exports have been stored
              | ok kept ended =>
                  rw [hresult] at hload
                  cases hload
                  exact (Dict.get?_insert _ _ _ _).trans (if_pos rfl)

/-- What has been loaded once is loaded again without running anything. -/
theorem loadModule_again (hs : ∀ s, Restores (run.execute s)) (m' : Machine)
    (hload : run.loadModule specifier p m = .ok exports loaded)
    (hmodules : m'.modules = loaded.modules) (hid : m'.moduleId = loaded.moduleId) (run' : Runner)
    (q : Position) : run'.loadModule specifier q m' = .ok exports m' := by
  obtain ⟨id, hresolve, hcached⟩ := cached_of_loadModule hs hload
  rw [loadModule_eq, Eval.findModule_apply, hmodules, hid, hresolve]
  simp only [hcached]
  rfl

end Loading

/-! ## Imports -/

/-- How an import goes: which names of its list it binds, from the first on, and how it ends. -/
inductive Imports (run : Runner) (names : List String) (specifier : String) (p : Position)
    (m : Machine) : List String → EStateM.Result Halt Machine Unit → Prop where
  /-- The module cannot be loaded. -/
  | unloaded {halt : Halt} {m' : Machine} : run.loadModule specifier p m = .error halt m' →
      Imports run names specifier p m [] (.error halt m')
  /-- A name is refused. -/
  | refused {exports : Exports} {loaded : Machine} {bound rest : List String} {x : String}
      {cause : RuntimeError.Cause} : run.loadModule specifier p m = .ok exports loaded →
      names = bound ++ x :: rest → m.heap.Bindable m.environment exports bound →
      m.heap.Refuses m.environment exports specifier bound x cause →
      Imports run names specifier p m bound
        (.error (.failed ⟨cause, some p⟩) (loaded.withExports exports bound))
  /-- All names are bound. -/
  | bound {exports : Exports} {loaded : Machine} :
      run.loadModule specifier p m = .ok exports loaded →
      m.heap.Bindable m.environment exports names →
      Imports run names specifier p m names (.ok () (loaded.withExports exports names))

/-- What an import that has bound some names leaves behind, well ended or not. -/
structure Binds (run : Runner) (specifier : String) (p : Position) (m : Machine)
    (bound : List String) (m' : Machine) : Prop where
  /-- The machine stands where it stood. -/
  restored : m.Restored m'
  /-- The names are constants of the scope. Otherwise every scope binds the names that it bound, the
  same of them as constants. -/
  names : ∀ s, s.index < m.heap.scopes.size → ∀ x, m'.heap.constancy? s x =
    if s = m.environment ∧ x ∈ bound then some true else m.heap.constancy? s x
  /-- The names are bound to their exported values. -/
  values : ∀ exports loaded, run.loadModule specifier p m = .ok exports loaded → ∀ x ∈ bound,
    ∃ v, exports.get? x = some v ∧ m'.heap.bindingAt? m.environment x = some ⟨v, true⟩
  /-- If the module has been loaded, it can be imported again without being run. -/
  again : ∀ exports loaded, run.loadModule specifier p m = .ok exports loaded →
    ∀ (run' : Runner) (q : Position), run'.loadModule specifier q m' = .ok exports m'
  /-- The next import succeeds, once its module is loaded, if and only if its names are different,
  exported, and neither bound by this import nor constants before it. -/
  next : ∀ (n : Nat) (names : List String) (specifier' : String) (q : Position) (exports : Exports)
    (loaded : Machine), (Runner.within n).loadModule specifier' q m' = .ok exports loaded →
    ((∃ m'', (Runner.within n).importNames names specifier' q m' = .ok () m'') ↔
      names.Nodup ∧ ∀ x ∈ names, (∃ v, exports.get? x = some v) ∧ x ∉ bound ∧
        m.heap.constancy? m.environment x ≠ some true)

section Importing

variable {names : List String} {specifier : String} {exports : Exports} {p : Position}
  {m loaded : Machine}

theorem restores_execute (n : Nat) (s : Statement) : Restores ((within n).execute s) :=
  (restores_within n).2 s

/-- Loading a module changes nothing about the names of scopes, and leaves the machine where it
stood. -/
theorem loadModule_keeps (n : Nat) {r : EStateM.Result Halt Machine Exports}
    (hload : (within n).loadModule specifier p m = r) :
    m.heap.KeepsNames (fun _ => True) (Eval.machineOf r).heap ∧
      m.Restored (Eval.machineOf r) := by
  subst hload
  exact ⟨Declarations.keepsAll_loadModule (Declarations.keeps_within n).2 specifier p m,
    restores_loadModule (restores_execute n) specifier p m⟩

/-- After its module is loaded, an import binds all names, or those before the first that is
refused. -/
theorem importNames_cases (n : Nat) (names : List String)
    (hs : m.environment.index < m.heap.scopes.size)
    (hload : (within n).loadModule specifier p m = .ok exports loaded) :
    (m.heap.Bindable m.environment exports names ∧ (within n).importNames names specifier p m =
      .ok () (loaded.withExports exports names)) ∨
    ∃ bound x rest cause, names = bound ++ x :: rest ∧
      m.heap.Bindable m.environment exports bound ∧
      m.heap.Refuses m.environment exports specifier bound x cause ∧
      (within n).importNames names specifier p m =
        .error (.failed ⟨cause, some p⟩) (loaded.withExports exports bound) := by
  obtain ⟨hkept, hrestored⟩ := loadModule_keeps n hload
  have henv : loaded.environment = m.environment := hrestored.environment
  have hsame : ∀ x, loaded.heap.constancy? m.environment x = m.heap.constancy? m.environment x :=
    hkept.names m.environment hs trivial
  have hs' : loaded.environment.index < loaded.heap.scopes.size :=
    henv ▸ Nat.lt_of_lt_of_le hs hkept.size
  have hrun : (within n).importNames names specifier p m =
      Eval.bindImports specifier exports p names loaded := Eval.bind_ok _ hload
  rw [hrun]
  rcases Eval.bindImports_cases names loaded hs' with
    ⟨hnames, hend⟩ | ⟨bound, x, rest, cause, hsplit, hbound, hrefuses, hend⟩
  · rw [henv] at hnames
    exact .inl ⟨hnames.congr hsame, hend⟩
  · rw [henv] at hbound hrefuses
    exact .inr ⟨bound, x, rest, cause, hsplit, hbound.congr hsame, hrefuses.congr hsame, hend⟩

/-- Once its module is loaded, an import succeeds if and only if all its names can be bound. -/
theorem importNames_iff (n : Nat) (hs : m.environment.index < m.heap.scopes.size)
    (hload : (within n).loadModule specifier p m = .ok exports loaded) :
    (∃ m', (within n).importNames names specifier p m = .ok () m') ↔
      m.heap.Bindable m.environment exports names := by
  rcases importNames_cases n names hs hload with
    ⟨hnames, hend⟩ | ⟨bound, x, rest, cause, rfl, _, hrefuses, hend⟩
  · exact ⟨fun _ => hnames, fun _ => ⟨_, hend⟩⟩
  · refine ⟨?_, fun hnames => absurd hrefuses hnames.not_refuses⟩
    rintro ⟨m', hok⟩
    rw [hend] at hok
    cases hok

/-- The next import succeeds if and only if its names can be bound beside those that were. -/
theorem next_import {m' : Machine} {bound : List String}
    (hs : m.environment.index < m.heap.scopes.size)
    (hsize : m.heap.scopes.size ≤ m'.heap.scopes.size) (henv : m'.environment = m.environment)
    (hsame : ∀ x, m'.heap.constancy? m.environment x =
      if x ∈ bound then some true else m.heap.constancy? m.environment x)
    (n : Nat) (hload : (within n).loadModule specifier p m' = .ok exports loaded) :
    (∃ m'', (within n).importNames names specifier p m' = .ok () m'') ↔
      names.Nodup ∧ ∀ x ∈ names, (∃ v, exports.get? x = some v) ∧ x ∉ bound ∧
        m.heap.constancy? m.environment x ≠ some true := by
  have hfree : ∀ x, m'.heap.constancy? m.environment x ≠ some true ↔
      x ∉ bound ∧ m.heap.constancy? m.environment x ≠ some true := by
    intro x
    rw [hsame]
    by_cases hx : x ∈ bound <;> simp [hx]
  rw [importNames_iff n (henv ▸ Nat.lt_of_lt_of_le hs hsize) hload, henv]
  constructor
  · intro hnames
    exact ⟨hnames.once, fun x hx => ⟨hnames.exported x hx, (hfree x).mp (hnames.free x hx)⟩⟩
  · rintro ⟨honce, hall⟩
    exact ⟨fun x hx => (hall x hx).1, fun x hx => (hfree x).mpr (hall x hx).2, honce⟩

/-- An import whose module cannot be loaded binds nothing. -/
theorem binds_of_unloaded (n : Nat) (hs : m.environment.index < m.heap.scopes.size) {halt : Halt}
    {m' : Machine} (hload : (within n).loadModule specifier p m = .error halt m') :
    (within n).Binds specifier p m [] m' := by
  obtain ⟨hkept, hrestored⟩ := loadModule_keeps n hload
  have hsame : ∀ s, s.index < m.heap.scopes.size → ∀ x,
      m'.heap.constancy? s x = m.heap.constancy? s x :=
    fun s hs => hkept.names s hs trivial
  refine ⟨hrestored, fun s hs x => ?_, fun exports loaded hloaded => ?_,
    fun exports loaded hloaded => ?_, fun k names specifier' q exports loaded hloaded => ?_⟩
  · rw [if_neg fun hx => List.not_mem_nil hx.2]
    exact hsame s hs x
  · rw [hload] at hloaded
    cases hloaded
  · rw [hload] at hloaded
    cases hloaded
  · refine next_import hs hkept.size hrestored.environment (fun x => ?_) k hloaded
    rw [if_neg List.not_mem_nil]
    exact hsame m.environment hs x

/-- Names that can be bound are what an import changes that binds them. -/
theorem binds_of_loaded (n : Nat) (hs : m.environment.index < m.heap.scopes.size)
    (hload : (within n).loadModule specifier p m = .ok exports loaded) {bound : List String}
    (hbound : m.heap.Bindable m.environment exports bound) :
    (within n).Binds specifier p m bound (loaded.withExports exports bound) := by
  obtain ⟨hkept, hrestored⟩ := loadModule_keeps n hload
  have henv : loaded.environment = m.environment := hrestored.environment
  have hsame : ∀ s, s.index < m.heap.scopes.size → ∀ x,
      loaded.heap.constancy? s x = m.heap.constancy? s x :=
    fun s hs => hkept.names s hs trivial
  have hs' : m.environment.index < loaded.heap.scopes.size := Nat.lt_of_lt_of_le hs hkept.size
  -- the module that was loaded has changed no name; binding changes the current scope only
  have hothers : loaded.heap.KeepsNames (· ≠ m.environment)
      (loaded.withExports exports bound).heap :=
    henv ▸ Heap.keepsNames_bindExports loaded.heap loaded.environment exports bound
  have hhere : ∀ x, (loaded.withExports exports bound).heap.constancy? m.environment x =
      if x ∈ bound then some true else m.heap.constancy? m.environment x := by
    intro x
    have hbound' : loaded.heap.Bindable m.environment exports bound :=
      hbound.congr fun x => (hsame m.environment hs x).symm
    have hafter := hbound'.constancy?_bindExports hs' x
    rw [hsame m.environment hs] at hafter
    rw [← hafter]
    unfold Machine.withExports
    rw [henv]
  -- what stays restored, what is bound where, the values, the module once more, the next import
  refine ⟨hrestored.trans ⟨rfl, rfl, rfl, rfl, rfl, rfl, rfl⟩, fun s hold x => ?_,
    fun exports' loaded' hload' x hx => ?_, fun exports' loaded' hload' run' q => ?_,
    fun k names specifier' q exports' loaded' hload' => ?_⟩
  · by_cases hscope : s = m.environment
    · subst hscope
      simp only [true_and]
      exact hhere x
    · rw [if_neg fun hsame => hscope hsame.1,
        hothers.names s (Nat.lt_of_lt_of_le hold hkept.size) hscope, hsame s hold]
  · rw [hload] at hload'
    cases hload'
    obtain ⟨v, hv⟩ := hbound.exported x hx
    refine ⟨v, hv, ?_⟩
    unfold Machine.withExports
    rw [henv, Heap.bindingAt?_bindExports hs' hbound.exported, if_pos hx, hv]
    rfl
  · rw [hload] at hload'
    cases hload'
    exact loadModule_again (restores_execute n) (loaded.withExports exports bound) hload rfl rfl
      run' q
  · exact next_import hs (Nat.le_trans hkept.size hothers.size) henv hhere k hload'

end Importing

end Runner

/-- **What an import binds.** An import binds the names of its list from the first on, up to one
that is refused or to the last, and none if its module cannot be loaded. It leaves all other names
of all scopes as they were, and what it has not bound can be imported afterwards. -/
theorem import_binds_names (n : Nat) (names : List String) (specifier : String) (p : Position)
    (m : Machine) (hs : m.environment.index < m.heap.scopes.size) :
    ∃ bound, (Runner.within n).Imports names specifier p m bound
        ((Runner.within n).importNames names specifier p m) ∧
      (Runner.within n).Binds specifier p m bound
        (((Runner.within n).importNames names specifier p).final m) := by
  unfold Eval.final
  cases hload : (Runner.within n).loadModule specifier p m with
  | error halt m' =>
      have hend : (Runner.within n).importNames names specifier p m = .error halt m' :=
        Eval.bind_error _ hload
      rw [hend]
      exact ⟨[], .unloaded hload, Runner.binds_of_unloaded n hs hload⟩
  | ok exports loaded =>
      rcases Runner.importNames_cases n names hs hload with
        ⟨hnames, hend⟩ | ⟨bound, x, rest, cause, hsplit, hbound, hrefuses, hend⟩
      · rw [hend]
        exact ⟨names, .bound hload hnames, Runner.binds_of_loaded n hs hload hnames⟩
      · rw [hend]
        exact ⟨bound, .refused hload hsplit hbound hrefuses,
          Runner.binds_of_loaded n hs hload hbound⟩

/-- The second name of a list is not exported. -/
theorem import_binds_names_missing :
    let m := Session.machine ⟨.standard,
      (MemoryModules.ofList [("m", "pakka a = 1\nbhejo \x7b a \x7d")]).loader, none⟩
    m.environment.index < m.heap.scopes.size ∧
    ∃ bound, (Runner.within 20).Imports ["a", "b"] "m" ⟨1, 1⟩ m bound
        ((Runner.within 20).importNames ["a", "b"] "m" ⟨1, 1⟩ m) ∧
      (Runner.within 20).Binds "m" ⟨1, 1⟩ m bound
        (((Runner.within 20).importNames ["a", "b"] "m" ⟨1, 1⟩).final m) := by
  intro m
  exact ⟨by decide, import_binds_names 20 ["a", "b"] "m" ⟨1, 1⟩ m (by decide)⟩

/-- An import that fails at its second name has bound the first one, which cannot be imported any
more. -/
theorem failed_import_binds :
    let m := Session.machine ⟨.standard,
      (MemoryModules.ofList [("m", "pakka a = 1\nbhejo \x7b a \x7d")]).loader, none⟩
    let after := ((Runner.within 20).importNames ["a", "b"] "m" ⟨1, 1⟩).final m
    HaltsFor (.failed ⟨.missingExport "m" "b", some ⟨1, 1⟩⟩)
      ((Runner.within 20).importNames ["a", "b"] "m" ⟨1, 1⟩ m) ∧
    m.heap.constancy? m.environment "a" = none ∧
    after.heap.constancy? m.environment "a" = some true ∧
    HaltsFor (.failed ⟨.constantReassignment "a", some ⟨2, 1⟩⟩)
      ((Runner.within 20).importNames ["a"] "m" ⟨2, 1⟩ after) := by
  decide +kernel

end Lipi
