import Lipi.Machine
import Lipi.Proofs.Heap.Lawful

set_option autoImplicit false

/-! # Scopes and the names that are seen from them

From every scope a path leads outward to an outermost scope. **A name is read and assigned in the
first scope of the path that binds it, and a declaration hides it from exactly those scopes whose
path comes to the declaring scope before any other one that binds the name**
(`Heap.scopeLaws_grown`).

Both kinds of change put a binding into one scope, so that the view of all other scopes follows from
one lemma, `Nested.lookup?_setBinding`. It is proved by going outward, which ends because every
scope is made inside an older one (`Nested`).
-/

namespace Lipi

namespace Heap

/-! ## Paths -/

/-- The scope around a scope, if there is one. -/
def parentOf? (h : Heap) (s : ScopeRef) : Option ScopeRef :=
  (h.scope? s).bind (·.parent)

/-- The scopes from `s` outward, up to the outermost one. -/
inductive Path (h : Heap) : ScopeRef → List ScopeRef → Prop where
  | outermost {s : ScopeRef} : s.index < h.scopes.size → h.parentOf? s = none → Path h s [s]
  | inside {s p : ScopeRef} {path : List ScopeRef} : h.parentOf? s = some p → Path h p path →
    Path h s (s :: path)

/-- The path from `s` outward comes to `d`, and to no other scope before it that binds the name. -/
def Reaches (h : Heap) (s : ScopeRef) (name : String) (d : ScopeRef) : Prop :=
  ∃ inner outer, h.Path s (inner ++ d :: outer) ∧ ∀ x ∈ inner, h.bindingAt? x name = none

/-- The first scope on the path from `s` outward that binds the name is `d`, with this binding. -/
def Sees (h : Heap) (s : ScopeRef) (name : String) (d : ScopeRef) (b : Binding) : Prop :=
  h.Reaches s name d ∧ h.bindingAt? d name = some b

/-- Every scope is made inside an older one. -/
def Nested (h : Heap) : Prop := ∀ s p, h.parentOf? s = some p → p.index < s.index

section Paths

variable {h : Heap}

/-- Only a scope that has been made stands inside another one. -/
theorem valid_of_parentOf? {s p : ScopeRef} (hp : h.parentOf? s = some p) :
    s.index < h.scopes.size := by
  obtain ⟨scope, hscope, _⟩ := Option.bind_eq_some_iff.mp hp
  exact (Array.getElem?_eq_some_iff.mp hscope).1

theorem Path.valid {s : ScopeRef} {path : List ScopeRef} (hpath : h.Path s path) :
    s.index < h.scopes.size := by
  cases hpath with
  | outermost hs _ => exact hs
  | inside hp _ => exact valid_of_parentOf? hp

theorem Path.unique {s : ScopeRef} {path other : List ScopeRef} (hpath : h.Path s path)
    (hother : h.Path s other) : other = path := by
  induction hpath generalizing other with
  | outermost _ hroot =>
      cases hother with
      | outermost _ _ => rfl
      | inside hp _ => exact absurd (hroot.symm.trans hp) nofun
  | inside hp _ ih =>
      cases hother with
      | outermost _ hroot => exact absurd (hroot.symm.trans hp) nofun
      | inside hq hrest =>
          cases hp.symm.trans hq
          rw [ih hrest]

/-- A path starts at its scope and goes on, if at all, as a path of the scope around it. -/
theorem Path.eq_cons {s : ScopeRef} {path : List ScopeRef} (hpath : h.Path s path) :
    ∃ rest, path = s :: rest ∧ (rest = [] ∨ ∃ p, h.parentOf? s = some p ∧ h.Path p rest) := by
  cases hpath with
  | outermost _ _ => exact ⟨[], rfl, .inl rfl⟩
  | inside hp hrest => exact ⟨_, rfl, .inr ⟨_, hp, hrest⟩⟩

/-- From a scope, the scope itself is reached, and what is reached from the scope around it if the
scope itself does not bind the name. -/
theorem reaches_iff {s d : ScopeRef} {path : List ScopeRef} {name : String}
    (hpath : h.Path s path) :
    h.Reaches s name d ↔
      d = s ∨ (h.bindingAt? s name = none ∧ ∃ p, h.parentOf? s = some p ∧ h.Reaches p name d) := by
  constructor
  · rintro ⟨inner, outer, hroute, hfree⟩
    obtain ⟨rest, heq, hrest⟩ := hroute.eq_cons
    cases inner with
    | nil => exact .inl (List.cons.inj heq).1
    | cons x inner =>
        obtain ⟨rfl, rfl⟩ := List.cons.inj heq
        rcases hrest with hnil | ⟨p, hp, hrest⟩
        · simp at hnil
        · refine .inr ⟨hfree x List.mem_cons_self, p, hp, inner, outer, hrest, fun y hy => ?_⟩
          exact hfree y (List.mem_cons_of_mem _ hy)
  · rintro (rfl | ⟨hself, p, hp, inner, outer, hrest, hfree⟩)
    · obtain ⟨rest, rfl, _⟩ := hpath.eq_cons
      exact ⟨[], rest, hpath, nofun⟩
    · refine ⟨s :: inner, outer, .inside hp hrest, fun x hx => ?_⟩
      rcases List.mem_cons.mp hx with rfl | hx
      · exact hself
      · exact hfree x hx

/-- Only from a scope that has been made is anything reached. -/
theorem Reaches.valid {s d : ScopeRef} {name : String} (hreach : h.Reaches s name d) :
    s.index < h.scopes.size := by
  obtain ⟨_, _, hpath, _⟩ := hreach
  exact hpath.valid

theorem bindingAt?_of_invalid {s : ScopeRef} (hs : ¬ s.index < h.scopes.size) (name : String) :
    h.bindingAt? s name = none := by
  unfold bindingAt? scope?
  rw [Array.getElem?_eq_none (Nat.le_of_not_lt hs)]
  rfl

theorem parentOf?_of_invalid {s : ScopeRef} (hs : ¬ s.index < h.scopes.size) :
    h.parentOf? s = none :=
  Option.eq_none_iff_forall_ne_some.mpr fun _ hp => hs (valid_of_parentOf? hp)

namespace Nested

variable (hn : h.Nested)
include hn

/-- From every scope a path leads outward. -/
theorem exists_path (s : ScopeRef) (hs : s.index < h.scopes.size) : ∃ path, h.Path s path := by
  cases hparent : h.parentOf? s with
  | none => exact ⟨[s], .outermost hs hparent⟩
  | some p =>
      have hlt := hn s p hparent
      obtain ⟨path, hpath⟩ := exists_path p (Nat.lt_trans hlt hs)
      exact ⟨s :: path, .inside hparent hpath⟩
termination_by s.index

/-- The search for the nearest scope that binds a name, one step outward. -/
theorem binder?_eq (s : ScopeRef) (name : String) :
    h.binder? s name =
      if (h.bindingAt? s name).isSome then some s
      else (h.parentOf? s).bind fun p => h.binder? p name := by
  rw [binder?]
  unfold bindingAt? parentOf?
  cases hscope : h.scope? s with
  | none => rfl
  | some scope =>
      simp only [Option.bind_some]
      cases hbinding : scope.bindings.get? name with
      | some b =>
          have hcontains : scope.bindings.contains name = true := by
            rw [Dict.contains, hbinding]
            rfl
          exact if_pos hcontains
      | none =>
          have hcontains : scope.bindings.contains name = false := by
            rw [Dict.contains, hbinding]
            rfl
          rw [if_neg (Bool.eq_false_iff.mp hcontains)]
          cases hparent : scope.parent with
          | none => rfl
          | some p =>
              have hlt : p.index < s.index := hn s p (by rw [parentOf?, hscope]; exact hparent)
              exact if_pos hlt

/-- **The search finds the first scope on the path that binds the name.** -/
theorem binder?_iff (s d : ScopeRef) (name : String) :
    h.binder? s name = some d ↔ ∃ b, h.Sees s name d b := by
  rw [hn.binder?_eq s name]
  -- the search goes to the parent, which is an older scope, only if the scope does not bind the
  -- name
  by_cases hs : s.index < h.scopes.size
  · obtain ⟨path, hpath⟩ := hn.exists_path s hs
    unfold Sees
    simp only [reaches_iff hpath]
    cases hself : h.bindingAt? s name with
    | some b =>
        simp only [Option.isSome_some, if_true, Option.some.injEq, reduceCtorEq, false_and,
          or_false]
        constructor
        · rintro rfl
          exact ⟨b, rfl, hself⟩
        · rintro ⟨_, rfl, _⟩
          rfl
    | none =>
        simp only [Option.isSome_none, Bool.false_eq_true, if_false, true_and,
          Option.bind_eq_some_iff]
        constructor
        · rintro ⟨p, hp, hbinder⟩
          have hlt := hn s p hp
          obtain ⟨b, hreach, hb⟩ := (binder?_iff p d name).mp hbinder
          exact ⟨b, .inr ⟨p, hp, hreach⟩, hb⟩
        · rintro ⟨b, rfl | ⟨p, hp, hreach⟩, hb⟩
          · rw [hself] at hb
            cases hb
          · have hlt := hn s p hp
            exact ⟨p, hp, (binder?_iff p d name).mpr ⟨b, hreach, hb⟩⟩
  · rw [bindingAt?_of_invalid hs, parentOf?_of_invalid hs]
    constructor
    · intro hnone
      cases hnone
    · rintro ⟨b, hreach, _⟩
      exact absurd hreach.valid hs
termination_by s.index

/-- The value of a name, one step outward. -/
theorem lookup?_eq (s : ScopeRef) (name : String) :
    h.lookup? s name =
      match h.bindingAt? s name with
      | some b => some b.value
      | none => (h.parentOf? s).bind fun p => h.lookup? p name := by
  unfold lookup? binding?
  rw [hn.binder?_eq s name]
  cases hself : h.bindingAt? s name with
  | some b =>
      simp only [Option.isSome_some, if_true, Option.bind_some, hself]
      rfl
  | none =>
      simp only [Option.isSome_none, Bool.false_eq_true, if_false]
      cases h.parentOf? s <;> rfl

/-- The value of a name is that in the first scope on the path that binds it. -/
theorem lookup?_iff (s : ScopeRef) (name : String) (v : Value) :
    h.lookup? s name = some v ↔ ∃ d b, h.Sees s name d b ∧ b.value = v := by
  unfold lookup? binding?
  simp only [Option.map_eq_some_iff, Option.bind_eq_some_iff, hn.binder?_iff]
  constructor
  · rintro ⟨b, ⟨d, ⟨_, hreach, _⟩, hb⟩, hv⟩
    exact ⟨d, b, ⟨hreach, hb⟩, hv⟩
  · rintro ⟨d, b, hsees, hv⟩
    exact ⟨b, ⟨d, ⟨b, hsees⟩, hsees.2⟩, hv⟩

end Nested

end Paths

/-! ## Binding a name -/

/-- A name has got a value for the scopes that see it, and all else is seen as before. -/
structure Rebinds (h h' : Heap) (name : String) (v : Value) (sees : ScopeRef → Prop) : Prop where
  seen : ∀ t, sees t → h'.lookup? t name = some v
  unseen : ∀ t x, ¬ (x = name ∧ sees t) → h'.lookup? t x = h.lookup? t x

section Binding

variable {h : Heap}

theorem parentOf?_setBinding (d s : ScopeRef) (name : String) (b : Binding) :
    (h.setBinding d name b).parentOf? s = h.parentOf? s := by
  unfold parentOf? scope? setBinding
  dsimp only
  rw [Array.getElem?_modify]
  split
  · cases h.scopes[s.index]? <;> rfl
  · rfl

namespace Nested

variable (hn : h.Nested)
include hn

theorem setBinding (d : ScopeRef) (name : String) (b : Binding) :
    (h.setBinding d name b).Nested := by
  intro s p hp
  rw [parentOf?_setBinding] at hp
  exact hn s p hp

/-- A name that is bound in a scope is seen so from where the scope is reached. -/
theorem lookup?_setBinding {t d : ScopeRef} {name : String} (hreach : h.Reaches t name d)
    (b : Binding) : (h.setBinding d name b).lookup? t name = some b.value := by
  rw [(hn.setBinding d name b).lookup?_eq, bindingAt?_setBinding, parentOf?_setBinding]
  by_cases hself : t = d
  · subst hself
    rw [if_pos ⟨rfl, rfl⟩, scope?, Array.getElem?_eq_getElem hreach.valid]
    rfl
  · obtain ⟨path, hpath⟩ := hn.exists_path t hreach.valid
    rcases (reaches_iff hpath).mp hreach with heq | ⟨hfree, p, hp, houtside⟩
    · exact absurd heq.symm hself
    · have hlt := hn t p hp
      rw [if_neg fun hsame => hself hsame.1, hfree, hp]
      exact lookup?_setBinding houtside b
termination_by t.index

/-- All else is seen as before. -/
theorem lookup?_setBinding_other {t d : ScopeRef} {name x : String}
    (hother : ¬ (x = name ∧ h.Reaches t name d)) (b : Binding) :
    (h.setBinding d name b).lookup? t x = h.lookup? t x := by
  rw [(hn.setBinding d name b).lookup?_eq, hn.lookup?_eq, parentOf?_setBinding]
  by_cases ht : t.index < h.scopes.size
  · obtain ⟨path, hpath⟩ := hn.exists_path t ht
    have hsame : (h.setBinding d name b).bindingAt? t x = h.bindingAt? t x := by
      rw [bindingAt?_setBinding, if_neg]
      rintro ⟨rfl, rfl⟩
      exact hother ⟨rfl, (reaches_iff hpath).mpr (.inl rfl)⟩
    rw [hsame]
    cases hself : h.bindingAt? t x with
    | some _ => rfl
    | none =>
        cases hp : h.parentOf? t with
        | none => rfl
        | some p =>
            have hlt := hn t p hp
            refine lookup?_setBinding_other ?_ b
            rintro ⟨rfl, hreach⟩
            exact hother ⟨rfl, (reaches_iff hpath).mpr (.inr ⟨hself, p, hp, hreach⟩)⟩
  · have hinvalid : ¬ t.index < (h.setBinding d name b).scopes.size := by
      simpa [Heap.setBinding] using ht
    rw [bindingAt?_of_invalid ht, bindingAt?_of_invalid hinvalid, parentOf?_of_invalid ht]
    rfl
termination_by t.index

/-- **A binding in a scope is seen from exactly the scopes from which that scope is reached.** -/
theorem rebinds (d : ScopeRef) (name : String) (b : Binding) :
    h.Rebinds (h.setBinding d name b) name b.value fun t => h.Reaches t name d :=
  ⟨fun _ hreach => hn.lookup?_setBinding hreach b,
    fun _ _ hother => hn.lookup?_setBinding_other hother b⟩

end Nested

end Binding

end Heap

/-! ## The laws of scopes -/

/-- What a change of the heap comes to: the machine with the changed heap, or a failure at the
machine as it is. -/
def Eval.onHeap (p : Position) (m : Machine) :
    Except RuntimeError.Cause Heap → EStateM.Result Halt Machine Unit
  | .ok h => .ok () { m with heap := h }
  | .error cause => .error (.failed ⟨cause, some p⟩) m

theorem Eval.declare_define (name : String) (v : Value) (constant : Bool) (p : Position)
    (m : Machine) :
    declare name v constant p m = onHeap p m (m.heap.define m.environment name v constant) := by
  show update p (·.defineTarget m.environment name)
    (fun d h => h.setBinding d name ⟨v, constant⟩) m = _
  unfold update Heap.define
  dsimp only
  cases m.heap.defineTarget m.environment name <;> rfl

theorem Eval.assign_assign (name : String) (v : Value) (p : Position) (m : Machine) :
    assign name v p m = onHeap p m (m.heap.assign m.environment name v) := by
  show update p (·.assignTarget m.environment name)
    (fun d h => h.setBinding d name ⟨v, false⟩) m = _
  unfold update Heap.assign
  dsimp only
  cases m.heap.assignTarget m.environment name <;> rfl

namespace Heap

/-- What holds of the scopes of a heap, of the ways in which they are used, and of the machines that
use them. -/
structure ScopeLaws (h : Heap) : Prop where
  /-- From every scope one path leads outward. -/
  path : ∀ s, s.index < h.scopes.size →
    ∃ path, h.Path s path ∧ ∀ other, h.Path s other → other = path
  /-- A name is read in the first scope of the path that binds it. -/
  reads : ∀ s name v, h.lookup? s name = some v ↔ ∃ d b, h.Sees s name d b ∧ b.value = v
  /-- A name can be assigned if the first scope of the path that binds it binds it as a variable. -/
  assigns : ∀ s name v, (∃ h', h.assign s name v = .ok h') ↔
    ∃ d b, h.Sees s name d b ∧ b.constant = false
  /-- The assignment is seen from where the name is seen in the same scope. -/
  assigned : ∀ s name v h' d b, h.assign s name v = .ok h' → h.Sees s name d b →
    h.Rebinds h' name v fun t => ∃ b', h.Sees t name d b'
  /-- An assignment fails for want of a scope that binds the name, -/
  unbound : ∀ s name v, h.assign s name v = .error (.undefinedVariable name) ↔
    ∀ d b, ¬ h.Sees s name d b
  /-- or because the first one binds it as a constant. -/
  constant : ∀ s name v, h.assign s name v = .error (.constantReassignment name) ↔
    ∃ d b, h.Sees s name d b ∧ b.constant = true
  /-- A name can be declared in a scope that does not bind it as a constant. -/
  defines : ∀ s name v constant, (∃ h', h.define s name v constant = .ok h') ↔
    ∀ b, h.bindingAt? s name = some b → b.constant = false
  /-- The declaration is seen from where its scope is reached before any other one that binds the
  name. -/
  defined : ∀ s name v constant h', h.define s name v constant = .ok h' →
    h.Rebinds h' name v fun t => h.Reaches t name s
  /-- A declaration fails because the scope binds the name as a constant. -/
  redefined : ∀ s name v constant cause, h.define s name v constant = .error cause ↔
    cause = .constantReassignment name ∧ ∃ b, h.bindingAt? s name = some b ∧ b.constant = true
  /-- Declarations and assignments of a program are these, in the current scope; those that fail
  leave the machine as it is. -/
  declare : ∀ (m : Machine) name v constant p, m.heap = h →
    Eval.declare name v constant p m = Eval.onHeap p m (h.define m.environment name v constant)
  assign : ∀ (m : Machine) name v p, m.heap = h →
    Eval.assign name v p m = Eval.onHeap p m (h.assign m.environment name v)

section Laws

variable {h : Heap}

/-- A scope is reached with a name that it binds if the name is seen in it. -/
theorem reaches_iff_sees {t d : ScopeRef} {name : String} {b : Binding}
    (hb : h.bindingAt? d name = some b) : h.Reaches t name d ↔ ∃ b', h.Sees t name d b' :=
  ⟨fun hreach => ⟨b, hreach, hb⟩, fun ⟨_, hsees⟩ => hsees.1⟩

theorem isConstantAt_of_binding {s : ScopeRef} {name : String} {b : Binding}
    (hb : h.bindingAt? s name = some b) : h.isConstantAt s name = b.constant := by
  unfold isConstantAt
  rw [hb]
  rfl

/-- What an assignment comes to where the name is seen. -/
theorem Sees.assign {s d : ScopeRef} {name : String} {b : Binding} (hn : h.Nested)
    (hsees : h.Sees s name d b) (v : Value) :
    h.assign s name v =
      if b.constant then .error (.constantReassignment name)
      else .ok (h.setBinding d name ⟨v, false⟩) := by
  unfold Heap.assign assignTarget
  rw [(hn.binder?_iff s d name).mpr ⟨b, hsees⟩]
  dsimp only
  rw [isConstantAt_of_binding hsees.2]
  cases b.constant <;> rfl

/-- The three ways in which an assignment goes. -/
theorem Nested.assign_cases (hn : h.Nested) (s : ScopeRef) (name : String) (v : Value) :
    ((∀ d b, ¬ h.Sees s name d b) ∧ h.assign s name v = .error (.undefinedVariable name)) ∨
    ∃ d b, h.Sees s name d b ∧
      ((b.constant = true ∧ h.assign s name v = .error (.constantReassignment name)) ∨
        (b.constant = false ∧ h.assign s name v = .ok (h.setBinding d name ⟨v, false⟩))) := by
  cases hbinder : h.binder? s name with
  | none =>
      refine .inl ⟨fun d b hsees => ?_, ?_⟩
      · exact absurd (hbinder.symm.trans ((hn.binder?_iff s d name).mpr ⟨b, hsees⟩)) nofun
      · unfold Heap.assign assignTarget
        rw [hbinder]
        rfl
  | some d =>
      obtain ⟨b, hsees⟩ := (hn.binder?_iff s d name).mp hbinder
      have hassign := hsees.assign hn v
      refine .inr ⟨d, b, hsees, ?_⟩
      cases hb : b.constant with
      | true => exact .inl ⟨rfl, hassign.trans (if_pos hb)⟩
      | false => exact .inr ⟨rfl, hassign.trans (if_neg (by rw [hb]; nofun))⟩

/-- What a declaration comes to. -/
theorem define_eq (s : ScopeRef) (name : String) (v : Value) (constant : Bool) :
    h.define s name v constant =
      if h.isConstantAt s name then .error (.constantReassignment name)
      else .ok (h.setBinding s name ⟨v, constant⟩) := by
  unfold define defineTarget
  cases h.isConstantAt s name <;> rfl

theorem isConstantAt_iff {s : ScopeRef} {name : String} :
    h.isConstantAt s name = true ↔ ∃ b, h.bindingAt? s name = some b ∧ b.constant = true := by
  unfold isConstantAt
  rw [Option.any_eq_true]

/-- **The laws of scopes hold wherever scopes are nested.** -/
theorem Nested.scopeLaws (hn : h.Nested) : h.ScopeLaws where
  path s hs := by
    obtain ⟨path, hpath⟩ := hn.exists_path s hs
    exact ⟨path, hpath, fun _ hother => hpath.unique hother⟩
  reads := hn.lookup?_iff
  -- an assignment fails for a name that is unseen or constant, and in no other case
  assigns s name v := by
    constructor
    · rintro ⟨h', hassign⟩
      rcases hn.assign_cases s name v with
        ⟨_, herror⟩ | ⟨d, b, hsees, ⟨_, herror⟩ | ⟨hb, _⟩⟩
      · exact absurd (hassign.symm.trans herror) nofun
      · exact absurd (hassign.symm.trans herror) nofun
      · exact ⟨d, b, hsees, hb⟩
    · rintro ⟨d, b, hsees, hb⟩
      rw [hsees.assign hn v, hb]
      exact ⟨_, rfl⟩
  assigned s name v h' d b hassign hsees := by
    rw [hsees.assign hn v] at hassign
    split at hassign
    · cases hassign
    · cases hassign
      have hrebinds := hn.rebinds d name ⟨v, false⟩
      simp only [reaches_iff_sees hsees.2] at hrebinds
      exact hrebinds
  unbound s name v := by
    constructor
    · intro hassign
      rcases hn.assign_cases s name v with
        ⟨hunseen, _⟩ | ⟨d, b, hsees, ⟨_, herror⟩ | ⟨_, hok⟩⟩
      · exact hunseen
      · exact absurd (hassign.symm.trans herror) nofun
      · exact absurd (hassign.symm.trans hok) nofun
    · intro hunseen
      rcases hn.assign_cases s name v with ⟨_, herror⟩ | ⟨d, b, hsees, _⟩
      · exact herror
      · exact absurd hsees (hunseen d b)
  constant s name v := by
    constructor
    · intro hassign
      rcases hn.assign_cases s name v with
        ⟨_, herror⟩ | ⟨d, b, hsees, ⟨hb, _⟩ | ⟨_, hok⟩⟩
      · exact absurd (hassign.symm.trans herror) nofun
      · exact ⟨d, b, hsees, hb⟩
      · exact absurd (hassign.symm.trans hok) nofun
    · rintro ⟨d, b, hsees, hb⟩
      rw [hsees.assign hn v, if_pos hb]
  -- a definition looks at the scope itself only, not at the scopes around it
  defines s name v constant := by
    rw [define_eq]
    constructor
    · rintro ⟨h', hdefine⟩ b hb
      rw [isConstantAt_of_binding hb] at hdefine
      cases hconstant : b.constant with
      | false => rfl
      | true =>
          rw [hconstant] at hdefine
          cases hdefine
    · intro hfree
      rw [if_neg]
      · exact ⟨_, rfl⟩
      · intro hconstant
        obtain ⟨b, hb, htrue⟩ := isConstantAt_iff.mp hconstant
        rw [hfree b hb] at htrue
        cases htrue
  defined s name v constant h' hdefine := by
    rw [define_eq] at hdefine
    split at hdefine
    · cases hdefine
    · cases hdefine
      exact hn.rebinds s name ⟨v, constant⟩
  redefined s name v constant cause := by
    rw [define_eq, ← isConstantAt_iff]
    cases h.isConstantAt s name with
    | false => simp
    | true => simp [eq_comm]
  declare m name v constant p hm := by
    rw [Eval.declare_define, hm]
  assign m name v p hm := by
    rw [Eval.assign_assign, hm]

end Laws

end Heap

/-! ## Histories -/

/-- What can be done with the scopes of a heap. -/
inductive ScopeStep where
  /-- Makes an outermost scope. -/
  | global
  /-- Makes a scope inside another one. -/
  | child (parent : ScopeRef)
  | define (scope : ScopeRef) (name : String) (value : Value) (constant : Bool)
  | assign (scope : ScopeRef) (name : String) (value : Value)

namespace Heap

/-- The heap after a step. What cannot be done changes nothing. -/
def afterStep (h : Heap) : ScopeStep → Heap
  | .global => h.newGlobal.2
  | .child parent => if parent.index < h.scopes.size then (h.newChild parent).2 else h
  | .define s name v constant => (h.define s name v constant).toOption.getD h
  | .assign s name v => (h.assign s name v).toOption.getD h

/-- The heap that steps lead to from the empty one. -/
def grown (steps : List ScopeStep) : Heap :=
  steps.foldl afterStep .empty

theorem nested_newScope {h : Heap} (hn : h.Nested) (scope : Scope)
    (hparent : ∀ p, scope.parent = some p → p.index < h.scopes.size) :
    (h.newScope scope).2.Nested := by
  intro s p hp
  unfold parentOf? scope? newScope at hp
  dsimp only at hp
  rw [Array.getElem?_push] at hp
  split at hp
  · rename_i hlast
    rw [hlast]
    exact hparent p hp
  · exact hn s p hp

theorem nested_afterStep {h : Heap} (hn : h.Nested) (step : ScopeStep) :
    (h.afterStep step).Nested := by
  cases step with
  | global => exact nested_newScope hn _ nofun
  | child parent =>
      simp only [afterStep]
      by_cases hvalid : parent.index < h.scopes.size
      · rw [if_pos hvalid]
        refine nested_newScope hn _ fun p hp => ?_
        cases hp
        exact hvalid
      · rw [if_neg hvalid]
        exact hn
  -- definitions and assignments move no scope
  | define s name v constant =>
      simp only [afterStep, define_eq]
      split
      · exact hn
      · exact hn.setBinding s name _
  | assign s name v =>
      simp only [afterStep]
      rcases hn.assign_cases s name v with
        ⟨_, herror⟩ | ⟨d, b, _, ⟨_, herror⟩ | ⟨_, hok⟩⟩
      · rw [herror]
        exact hn
      · rw [herror]
        exact hn
      · rw [hok]
        exact hn.setBinding d name _

theorem nested_grown (steps : List ScopeStep) : (grown steps).Nested := by
  have hfrom : ∀ h : Heap, h.Nested → (steps.foldl afterStep h).Nested := by
    induction steps with
    | nil => exact fun _ hn => hn
    | cons step steps ih => exact fun h hn => ih _ (nested_afterStep hn step)
  refine hfrom .empty fun s p hp => ?_
  simp [parentOf?, scope?, empty] at hp

/-- **The laws of scopes hold after every history** of making scopes, of declarations and of
assignments. -/
theorem scopeLaws_grown (steps : List ScopeStep) : (grown steps).ScopeLaws :=
  (nested_grown steps).scopeLaws

end Heap

end Lipi
