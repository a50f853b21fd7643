import Lipi.Proofs.Dict
import Lipi.Proofs.Machine.Halting
import Lipi.Proofs.Machine.Restoration
import Mathlib.Tactic.Ring

set_option autoImplicit false

/-! # How deep a run nests

A run is bounded by a number that limits its nesting, and a bound that is too low shows as
`exhausted`. Two facts make the bound harmless. **A run that is not exhausted is the same under every
larger bound** (`Nesting.within_mono`), and **the bound that `Machine.nesting` computes is always
large enough** (`Nesting.interpret_eq`).

For the second fact, cut a run into *levels*: a level is the body of one call, or one module, without
the calls and imports inside it. A level nests no deeper than the tree that it runs, and no tree is
deeper than some `D`. Below a call there is one call less to go before the limit; below an import
there is one module less that is not being loaded, while the calls start from none again. Hence
`Machine.levels`, which counts both, goes down from each level to the next.
-/

namespace Lipi

namespace Nesting

/-! ## Larger bounds -/

/-- A result that says that the bound on the nesting was too low. -/
abbrev Exhausted {α : Type} (r : EStateM.Result Halt Machine α) : Prop :=
  HaltsFor .exhausted r

theorem not_exhausted_failed {α : Type} (e : RuntimeError) (m : Machine) :
    ¬ Exhausted (.error (.failed e) m : EStateM.Result Halt Machine α) := by
  intro h
  cases haltsFor_error.mp h

theorem not_exhausted_of_settles {α : Type} {x : Eval α} (hx : x.Settles) (m : Machine) :
    ¬ Exhausted (x m) := by
  intro h
  obtain ⟨e, he⟩ := hx m .exhausted h
  cases he

/-- Runs under two bounds part where the lower one is exhausted. -/
def lowering : Parting where
  left := .exhausted
  right := none
  left_ne_failed := Halt.exhausted_ne_failed
  right_ne_failed _ := Option.not_mem_none _

/-- An exhausted run keeps together with every run. -/
theorem lowering_of_exhausted {α : Type} {x y : Eval α} (hx : ∀ m, Exhausted (x m)) :
    lowering.Follows x y :=
  fun m => Or.inr ⟨hx m, fun _ h => by cases h⟩

theorem lowering_setMember (target : Value) (key : Key) (value : Value) (pos : Position) :
    lowering.Follows (Eval.setMember target key value pos) (Eval.setMember target key value pos) := by
  intro m
  refine Or.inl ⟨rfl, fun h => ?_⟩
  cases hconflict : Machine.conflicts m.heap target key with
  | true =>
      rw [Eval.setMember_conflict hconflict] at h
      cases haltsFor_error.mp h
  | false =>
      obtain ⟨e, he⟩ := Eval.setMember_settles hconflict value pos h
      cases he

/-- A run that is not exhausted is the same under every larger bound. -/
theorem within_mono {n k : Nat} (hnk : n ≤ k) :
    (∀ e, lowering.Follows (evaluate n e) (evaluate k e)) ∧
    (∀ s, lowering.Follows (execute n s) (execute k s)) := by
  induction n generalizing k with
  | zero =>
      exact ⟨fun _ => lowering_of_exhausted fun m => ⟨m, rfl⟩,
        fun _ => lowering_of_exhausted fun m => ⟨m, rfl⟩⟩
  | succ n ih =>
      obtain ⟨k, rfl⟩ : ∃ j, k = j + 1 := ⟨k - 1, by omega⟩
      obtain ⟨he, hs⟩ := ih (Nat.le_of_succ_le_succ hnk)
      have hrun := Parting.respects ⟨evaluate n, execute n⟩ ⟨evaluate k, execute k⟩ he hs
      exact ⟨fun e => ExprRelation.expression_of_setMember (hrun e.depth).toRespectsParts
          fun o key v pos => lowering_setMember o (.computed key) v pos,
        fun s => EvalRelation.statement trivial (hrun s.depth)⟩

end Nesting

/-! ## Levels -/

namespace Machine

/-- How many modules could still be loaded inside the ones that are being loaded. -/
def pending (m : Machine) : Nat :=
  (m.modules.loader.catalog.entries.filter fun entry => !m.modules.isLoading entry.1).length

/-- How many more calls and modules can be entered one inside the other. -/
def levels (m : Machine) : Nat :=
  m.pending * (m.limits.maxCallDepth + 1) + (m.limits.maxCallDepth - m.callDepth)

/-- No routine on the heap and no program of a module is deeper than `D`. -/
structure Bounded (D : Nat) (m : Machine) : Prop where
  functions : ∀ f ∈ m.heap.functions, Statement.depthAll f.routine.body ≤ D
  methods : ∀ f ∈ m.heap.methods, Statement.depthAll f.routine.body ≤ D
  programs : ∀ id text program, m.modules.loader.read id = .ok text →
    Program.ofText text = .ok program → program.depth ≤ D

theorem Restored.levels_eq {m m' : Machine} (h : m.Restored m') : m'.levels = m.levels := by
  unfold levels pending callDepth Modules.isLoading
  rw [h.frames, h.limits, h.loading, h.loader]

theorem levels_enterCall {m : Machine} (frame : Option Frame)
    (hdeep : m.callDepth < m.limits.maxCallDepth) :
    levels { m with frames := frame :: m.frames } + 1 = m.levels := by
  show m.pending * (m.limits.maxCallDepth + 1)
      + (m.limits.maxCallDepth - (m.frames.length + 1)) + 1 = m.levels
  unfold levels
  have hframes : m.callDepth = m.frames.length := rfl
  omega

end Machine

/-- A module that can be read stands in the catalog. -/
theorem Loader.mem_of_read {loader : Loader} {id : ModuleId} {text : String}
    (h : loader.read id = .ok text) : (id, .ok text) ∈ loader.catalog.entries := by
  unfold Loader.read Dict.get? at h
  cases hfind : Dict.find? id loader.catalog.entries with
  | none =>
      rw [hfind] at h
      cases h
  | some entry =>
      rw [hfind] at h
      have hentry : entry = .ok text := h
      exact hentry ▸ Dict.mem_of_find? hfind

namespace Machine

theorem pending_startModule {m : Machine} {id : ModuleId} {text : String}
    (hid : m.modules.isLoading id = false) (hread : m.modules.loader.read id = .ok text) :
    (m.startModule id).pending < m.pending := by
  let fresh (entry : String × Except LoadError String) : Bool := !m.modules.isLoading entry.1
  have hsplit : ∀ entry : String × Except LoadError String,
      (!(m.modules.enter id).isLoading entry.1) = (fresh entry && entry.1 != id) := by
    intro entry
    show (!(m.modules.loading ++ [id]).contains entry.1) = (fresh entry && entry.1 != id)
    rw [List.contains_append]
    simp only [fresh, Modules.isLoading, List.contains_cons, List.contains_nil, Bool.or_false,
      Bool.not_or]
    rfl
  have hcount : (m.startModule id).pending
      = ((m.modules.loader.catalog.entries.filter fresh).filter (·.1 != id)).length := by
    show (m.modules.loader.catalog.entries.filter
      fun entry => !(m.modules.enter id).isLoading entry.1).length = _
    rw [List.filter_filter]
    congr 1
    refine List.filter_congr fun entry _ => ?_
    rw [hsplit, Bool.and_comm]
  rw [hcount]
  -- the entry of the module itself is counted before and not after
  refine List.length_filter_lt_length_iff_exists.mpr ⟨(id, .ok text), ?_, by simp⟩
  refine List.mem_filter.mpr ⟨Loader.mem_of_read hread, ?_⟩
  show (!m.modules.isLoading id) = true
  rw [hid]
  rfl

theorem levels_startModule {m : Machine} {id : ModuleId} {text : String}
    (hid : m.modules.isLoading id = false) (hread : m.modules.loader.read id = .ok text) :
    (m.startModule id).levels + 1 ≤ m.levels := by
  have hpending := pending_startModule hid hread
  have hfull : (m.startModule id).levels
      = (m.startModule id).pending * (m.limits.maxCallDepth + 1) + m.limits.maxCallDepth := rfl
  calc (m.startModule id).levels + 1
      = ((m.startModule id).pending + 1) * (m.limits.maxCallDepth + 1) := by rw [hfull]; ring
    _ ≤ m.pending * (m.limits.maxCallDepth + 1) := Nat.mul_le_mul_right _ hpending
    _ ≤ m.levels := Nat.le_add_right _ _

end Machine

/-! ## Runs that end -/

/-- Declaring methods adds their bodies, and no others, to the heap. -/
theorem Heap.newMethods_routines {D : Nat} (ms : List Method)
    (hms : Statement.depthMethods ms ≤ D) (table staticTable : Dict MethodRef) (h : Heap)
    (hh : ∀ f ∈ h.methods, Statement.depthAll f.routine.body ≤ D) :
    (Heap.newMethods ms table staticTable h).2.2.functions = h.functions ∧
    ∀ f ∈ (Heap.newMethods ms table staticTable h).2.2.methods,
      Statement.depthAll f.routine.body ≤ D := by
  induction ms generalizing table staticTable h with
  | nil => exact ⟨rfl, hh⟩
  | cons m ms ih =>
      have hbody : Statement.depthAll m.body ≤ D :=
        Nat.le_trans (Statement.depthAll_le_depthMethods List.mem_cons_self) hms
      have hrest : Statement.depthMethods ms ≤ D := by
        obtain ⟨_, _, _, _, _, body, _⟩ := m
        simp only [Statement.depthMethods] at hms
        omega
      have hpush : ∀ f ∈ h.methods.push ⟨⟨m.name, m.parameters, m.body⟩, m.access, m.isConstructor⟩,
          Statement.depthAll f.routine.body ≤ D := by
        intro f hf
        rcases Array.mem_push.mp hf with hf | rfl
        · exact hh f hf
        · exact hbody
      unfold Heap.newMethods
      dsimp only [Heap.newMethod]
      split
      · exact ih hrest _ _ _ hpush
      · exact ih hrest _ _ _ hpush

namespace Nesting

open Restoration

/-- From a machine with at most `k` levels to go, a computation is not exhausted and declares no
routine deeper than `D`. -/
def Ends {α : Type} (D k : Nat) (x : Eval α) : Prop :=
  Restores x ∧ ∀ m : Machine, m.Bounded D → m.levels ≤ k →
    ¬ Exhausted (x m) ∧ (x.final m).Bounded D

/-- A step that makes no routine ends. -/
theorem ends_of_quiet {α : Type} {D k : Nat} {x : Eval α} (hrestores : Restores x)
    (hx : x.Settles) (hfunctions : ∀ m, (x.final m).heap.functions = m.heap.functions)
    (hmethods : ∀ m, (x.final m).heap.methods = m.heap.methods) : Ends D k x := by
  refine ⟨hrestores, fun m hm _ => ⟨not_exhausted_of_settles hx m, ?_, ?_, ?_⟩⟩
  · rw [hfunctions]
    exact hm.functions
  · rw [hmethods]
    exact hm.methods
  · rw [(hrestores m).loader]
    exact hm.programs

theorem ends_bind {α β : Type} {D k : Nat} {x : Eval α} {f : α → Eval β} (hx : Ends D k x)
    (hf : ∀ a, Ends D k (f a)) : Ends D k (x >>= f) := by
  refine ⟨restores_bind hx.1 fun a => (hf a).1, fun m hm hk => ?_⟩
  obtain ⟨hend, hbounded⟩ := hx.2 m hm hk
  have hlevels := (hx.1 m).levels_eq
  unfold Eval.final at hbounded hlevels ⊢
  cases hxm : x m with
  | ok a m' =>
      rw [hxm] at hbounded hlevels
      rw [Eval.bind_ok f hxm]
      have hk' : m'.levels ≤ k := hlevels.trans_le hk
      exact (hf a).2 m' hbounded hk'
  | error halt m' =>
      rw [hxm] at hbounded hend
      rw [Eval.bind_error f hxm]
      exact ⟨fun h => hend (haltsFor_error.mpr (haltsFor_error.mp h)), hbounded⟩

theorem ends_of_elementary {α : Type} {D k : Nat} {x : Eval α} (hx : x.Elementary)
    (hfunctions : ∀ m, (x.final m).heap.functions = m.heap.functions)
    (hmethods : ∀ m, (x.final m).heap.methods = m.heap.methods) : Ends D k x :=
  ends_of_quiet (.of_elementary hx) hx.settles hfunctions hmethods

theorem ends_fail {α : Type} {D k : Nat} (cause : RuntimeError.Cause) (pos : Position) :
    Ends D k (Eval.fail cause pos : Eval α) :=
  ends_of_elementary (Eval.elementary_fail cause pos) (fun _ => rfl) fun _ => rfl

theorem ends_search {α β : Type} {D k : Nat} {pos : Option Position}
    {find : Machine → Except RuntimeError.Cause β} {make : β → Heap → α × Heap}
    (hfunctions : ∀ b h, (make b h).2.functions = h.functions)
    (hmethods : ∀ b h, (make b h).2.methods = h.methods) :
    Ends D k (Eval.search pos find make) :=
  ends_of_elementary (Eval.elementary_search pos find make)
    (fun m => Eval.heap_search (R := fun h h' => h'.functions = h.functions) rfl
      fun b _ => hfunctions b m.heap)
    fun m => Eval.heap_search (R := fun h h' => h'.methods = h.methods) rfl
      fun b _ => hmethods b m.heap

theorem ends_setMember {D k : Nat} (target : Value) (key : Key) (value : Value) (pos : Position) :
    Ends D k (Eval.setMember target key value pos) := by
  have hupdate : Ends D k (Eval.update pos (Machine.memberPlace · target key)
      (MemberPlace.write value)) := by
    rw [Eval.update_eq_search]
    refine ends_search (fun place h => ?_) fun place h => ?_
    · cases place <;> rfl
    · cases place <;> rfl
  refine ⟨restores_setMember target key value pos, fun m hm hk => ?_⟩
  have hm' := hupdate.2 m hm hk
  unfold Eval.final at hm' ⊢
  cases hconflict : Machine.conflicts m.heap target key with
  | true =>
      rw [Eval.setMember_conflict hconflict]
      refine ⟨?_, hm⟩
      rintro ⟨m', h⟩
      cases h
  | false =>
      rw [Eval.setMember_free hconflict]
      exact hm'

theorem ends_collectExports {D k : Nat} : Ends D k Eval.collectExports := by
  rw [Eval.collectExports_eq_search]
  exact ends_search (fun _ _ => rfl) fun _ _ => rfl

theorem ends_inScope {α : Type} {D k : Nat} (scope : ScopeRef) {x : Eval α} (hx : Ends D k x) :
    Ends D k (Eval.inScope scope x) := by
  refine ⟨restores_inScope scope hx.1, fun m hm hk => ?_⟩
  obtain ⟨hend, hbounded⟩ := hx.2 { m with environment := scope }
    ⟨hm.functions, hm.methods, hm.programs⟩ hk
  rw [Eval.final_inScope, Eval.inScope_apply, Exhausted, haltsFor_onMachine]
  exact ⟨hend, hbounded.functions, hbounded.methods, hbounded.programs⟩

theorem ends_newFunction {D k : Nat} (routine : Routine) (closure : ScopeRef)
    (hfit : Statement.depthAll routine.body ≤ D) :
    Ends D k (Eval.alloc (·.newFunction ⟨routine, closure⟩)) := by
  refine ⟨restores_alloc _, fun m hm _ => ⟨not_haltsFor_ok _ _ _, ?_, hm.methods, hm.programs⟩⟩
  intro f hf
  rcases Array.mem_push.mp hf with hf | rfl
  · exact hm.functions f hf
  · exact hfit

theorem ends_declareClass {D k : Nat} (name : String) (superclass : Option ClassRef)
    (methods : List Method) (closure : ScopeRef) (hfit : Statement.depthMethods methods ≤ D) :
    Ends D k (Eval.alloc (·.declareClass name superclass methods closure)) := by
  refine ⟨restores_alloc _, fun m hm _ => ⟨not_haltsFor_ok _ _ _, ?_, ?_, hm.programs⟩⟩
  · have hsame := (Heap.newMethods_routines methods hfit .empty .empty m.heap hm.methods).1
    show ∀ f ∈ (Heap.newMethods methods .empty .empty m.heap).2.2.functions, _
    rw [hsame]
    exact hm.functions
  · exact (Heap.newMethods_routines methods hfit .empty .empty m.heap hm.methods).2

/-- Ending as a relation, which looks at the left computation only. -/
def ending (D k : Nat) : EvalRelation where
  rel x _ := Ends D k x
  fits d := d ≤ D
  fits_mono hab hb := Nat.le_trans hab hb
  pure a := ends_of_elementary (Eval.elementary_pure a) (fun _ => rfl) fun _ => rfl
  bind hx hf := ends_bind hx hf
  ask hf := ⟨fun m => (hf m.heap m.environment m.frame? m.callDepth).1 m,
    fun m hm hk => (hf m.heap m.environment m.frame? m.callDepth).2 m hm hk⟩
  fail cause pos _ := ends_fail cause pos
  getMember target key pos := by
    rw [Eval.getMember_eq_search]
    exact ends_search (fun _ _ => rfl) fun _ _ => rfl
  newArray _ := ends_of_elementary (Eval.elementary_alloc _) (fun _ => rfl) fun _ => rfl
  newInstance _ := ends_of_elementary (Eval.elementary_alloc _) (fun _ => rfl) fun _ => rfl
  newFunction routine closure hfit := ends_newFunction routine closure hfit
  declareClass name superclass methods closure hfit :=
    ends_declareClass name superclass methods closure hfit
  declare name value constant pos := by
    rw [Eval.declare_eq_search]
    exact ends_search (fun _ _ => rfl) fun _ _ => rfl
  assign name value pos := by
    rw [Eval.assign_eq_search]
    exact ends_search (fun _ _ => rfl) fun _ _ => rfl
  setField target name value pos := ends_setMember target (.name name) value pos
  noteExports names := ends_of_quiet (relation.noteExports names)
    (Eval.settles_of_ok fun _ => ⟨_, _, rfl⟩) (fun _ => rfl) fun _ => rfl
  inNewScope bindings parent _ _ hx := ends_bind
    (ends_of_elementary (Eval.elementary_alloc _) (fun _ => rfl) fun _ => rfl)
    fun scope => ends_inScope scope hx

theorem ends_print {D k : Nat} (line : String) : Ends D k (Eval.print line) :=
  ends_of_quiet (fun _ => ⟨rfl, rfl, rfl, rfl, rfl, rfl, rfl⟩)
    (Eval.settles_of_ok fun _ => ⟨_, _, rfl⟩) (fun _ => rfl) fun _ => rfl

theorem ends_loop {D k n : Nat} {condition : Expr} {body : Statement} (pos : Position)
    (hc : Ends D k (evaluate n condition)) (hb : Ends D k (execute n body)) :
    Ends D k (fun m => (Runner.within n).loop condition body pos m.limits.maxIterations m) := by
  have hloop : ∀ i, Ends D k ((Runner.within n).loop condition body pos i) := fun i =>
    EvalRelation.loop (R := ending D k) (Runner.within n) (Runner.within n) i
      ⟨fun m => .refl m, fun m => (ends_fail _ pos).2 m⟩ hc hb
  exact ⟨fun m => (hloop m.limits.maxIterations).1 m, fun m => (hloop m.limits.maxIterations).2 m⟩

/-! ## From level to level

In this section the bodies of routines and the statements of modules end with fewer levels to go
than `k`; then calls and imports end with `k`. -/

section Levels

variable {D k n : Nat}
variable (hs : ∀ j < k, ∀ s : Statement, s.depth ≤ D → Ends D j (execute n s))

include hs

/-- The body of a routine that is entered below the limit on calls. -/
theorem activate_ends {routine : Routine} (hbody : Statement.depthAll routine.body ≤ D)
    (closure : ScopeRef) (arguments : List Value) (frame : Option Frame) {m : Machine}
    (hm : m.Bounded D) (hk : m.levels ≤ k) (hdeep : m.callDepth < m.limits.maxCallDepth) :
    ¬ Exhausted ((Runner.within n).activate routine closure arguments frame m) ∧
      (((Runner.within n).activate routine closure arguments frame).final m).Bounded D := by
  have hlevel := m.levels_enterCall frame hdeep
  -- the machine inside the call, with the scope of the parameters already made
  let inside : Machine :=
    { m with
      heap := (m.heap.newScope ⟨Heap.parameterBindings routine.parameters arguments .empty,
        some closure⟩).2
      frames := frame :: m.frames }
  have hinside : inside.Bounded D := ⟨hm.functions, hm.methods, hm.programs⟩
  have hlower : inside.levels ≤ k - 1 := by
    have heq : inside.levels = Machine.levels { m with frames := frame :: m.frames } := rfl
    omega
  have hall : Ends D (k - 1) ((Runner.within n).executeBlock routine.body ⟨m.heap.scopes.size⟩) := by
    refine ends_inScope _ (EvalRelation.executeAll (R := ending D (k - 1)) (Runner.within n)
      (Runner.within n) _ fun s hmem => ?_)
    refine hs (k - 1) (by omega) s ?_
    exact Nat.le_trans (Statement.depth_le_depthAll hmem) hbody
  obtain ⟨hend, hbounded⟩ := hall.2 inside hinside hlower
  have hrun : (Runner.within n).activate routine closure arguments frame m =
      (Eval.inCall frame ((Runner.within n).executeBlock routine.body ⟨m.heap.scopes.size⟩) >>=
        Eval.callResult) { inside with frames := m.frames } := rfl
  unfold Eval.final at hbounded ⊢
  rw [hrun]
  show ¬ Exhausted (EStateM.bind _ _ _) ∧ (Eval.machineOf (EStateM.bind _ _ _)).Bounded D
  unfold EStateM.bind Eval.inCall
  have hback : { { inside with frames := m.frames } with frames := frame :: m.frames } = inside := rfl
  rw [hback]
  cases hbodyRun : (Runner.within n).executeBlock routine.body ⟨m.heap.scopes.size⟩ inside with
  | ok completion m' =>
      rw [hbodyRun] at hbounded
      cases completion <;>
        exact ⟨not_haltsFor_ok _ _ _, hbounded.functions, hbounded.methods, hbounded.programs⟩
  | error halt m' =>
      rw [hbodyRun] at hbounded hend
      refine ⟨?_, hbounded.functions, hbounded.methods, hbounded.programs⟩
      rintro ⟨m'', h⟩
      cases h
      exact hend ⟨_, rfl⟩

theorem ends_callRoutine {routine : Routine} (hbody : Statement.depthAll routine.body ≤ D)
    (closure : ScopeRef) (arguments : List Value) (frame : Option Frame) (pos : Position) :
    Ends D k ((Runner.within n).callRoutine routine closure arguments frame pos) := by
  refine ⟨restores_callRoutine (restores_within n).2 routine closure arguments frame pos,
    fun m hm hk => ?_⟩
  by_cases hdeep : m.limits.maxCallDepth ≤ m.callDepth
  · unfold Eval.final
    rw [Runner.callRoutine_eq, if_pos hdeep]
    exact ⟨not_exhausted_failed _ _, hm⟩
  · have hbodyEnds := activate_ends hs hbody closure arguments frame hm hk (by omega)
    unfold Eval.final at hbodyEnds ⊢
    rw [Runner.callRoutine_eq, if_neg hdeep]
    exact hbodyEnds

theorem ends_callMethod (receiver : Option InstanceRef) (method : MethodRef) (home : ClassRef)
    (arguments : List Value) (pos : Position) :
    Ends D k ((Runner.within n).callMethod receiver method home arguments pos) := by
  refine ⟨restores_callMethod (restores_within n).2 receiver method home arguments pos,
    fun m hm hk => ?_⟩
  have hbody : Statement.depthAll (m.heap.method method).routine.body ≤ D := by
    unfold Heap.method
    cases hget : m.heap.methods[method.index]? with
    | none => exact Nat.zero_le D
    | some f => exact hm.methods f (Array.mem_of_getElem? hget)
  exact (ends_callRoutine hs hbody _ arguments _ pos).2 m hm hk

theorem ends_callValue (callee : Value) (arguments : List Value) (pos : Position) :
    Ends D k ((Runner.within n).callValue callee arguments pos) := by
  refine ⟨restores_callValue (restores_within n).2 callee arguments pos, fun m hm hk => ?_⟩
  cases callee with
  | function f =>
      have hbody : Statement.depthAll (m.heap.function f).routine.body ≤ D := by
        unfold Heap.function
        cases hget : m.heap.functions[f.index]? with
        | none => exact Nat.zero_le D
        | some g => exact hm.functions g (Array.mem_of_getElem? hget)
      exact (ends_callRoutine hs hbody _ arguments none pos).2 m hm hk
  | bound receiver method home =>
      exact (ends_callMethod hs receiver method home arguments pos).2 m hm hk
  | _ => exact ⟨not_exhausted_failed _ _, hm⟩

/-- A module that can be read and is not being loaded. -/
theorem importProgram_ends (specifier : String) {id : ModuleId} {text : String} {program : Program}
    (pos : Position) {m : Machine} (hm : m.Bounded D) (hk : m.levels ≤ k)
    (hid : m.modules.isLoading id = false) (hread : m.modules.loader.read id = .ok text)
    (hprogram : Program.ofText text = .ok program) :
    ¬ Exhausted ((Runner.within n).importProgram specifier id program pos m) ∧
      (((Runner.within n).importProgram specifier id program pos).final m).Bounded D := by
  have hlevel := Machine.levels_startModule hid hread
  have hdepth : Statement.depthAll program.body ≤ D := hm.programs id text program hread hprogram
  -- the module runs one level further down, as it is now being loaded
  have hrun : Ends D (k - 1) ((Runner.within n).runModule program) := by
    rw [Runner.runModule_eq]
    refine ends_bind (EvalRelation.executeProgram (R := ending D (k - 1)) (Runner.within n)
      (Runner.within n) _ fun s hmem => ?_) fun _ => ends_collectExports
    refine hs (k - 1) (by omega) s ?_
    exact Nat.le_trans (Statement.depth_le_depthAll hmem) hdepth
  obtain ⟨hend, hbounded⟩ := hrun.2 (m.startModule id) ⟨hm.functions, hm.methods, hm.programs⟩
    (by omega)
  have hrestored := hrun.1 (m.startModule id)
  unfold Eval.final at hbounded hrestored ⊢
  unfold Runner.importProgram
  cases hended : (Runner.within n).runModule program (m.startModule id) with
  | ok exports ended =>
      rw [hended] at hbounded
      exact ⟨not_haltsFor_ok _ _ _, hbounded.functions, hbounded.methods, hbounded.programs⟩
  | error halt ended =>
      rw [hended] at hbounded hend
      cases halt with
      | exhausted => exact absurd ⟨_, rfl⟩ hend
      -- the importer fails in its turn, which is no exhaustion
      | failed e =>
          exact ⟨not_exhausted_failed _ _, hbounded.functions, hbounded.methods,
            hbounded.programs⟩
      | conflict =>
          refine ⟨?_, hbounded.functions, hbounded.methods, hbounded.programs⟩
          rintro ⟨m'', h⟩
          cases h

theorem ends_loadModule (specifier : String) (pos : Position) :
    Ends D k ((Runner.within n).loadModule specifier pos) := by
  refine ⟨restores_loadModule (restores_within n).2 specifier pos, fun m hm hk => ?_⟩
  unfold Eval.final
  rcases Runner.loadModule_cases specifier pos m.modules m.moduleId with
    ⟨cause, hfail⟩ | ⟨exports, hdone⟩ | ⟨id, text, program, hid, hread, hprogram, hrun⟩
  · rw [hfail _ m rfl rfl]
    exact (ends_fail cause pos : Ends D k (Eval.fail cause pos : Eval Exports)).2 m hm hk
  · rw [hdone _ m rfl rfl]
    exact ⟨not_haltsFor_ok _ _ _, hm⟩
  · rw [hrun _ m rfl rfl]
    exact importProgram_ends hs specifier pos hm hk hid hread hprogram

end Levels

/-- **A run with enough nesting for its levels and its tree ends.** -/
theorem ends_within (D n : Nat) :
    (∀ k e, e.depth ≤ D → k * (D + 1) + e.depth ≤ n → Ends D k (evaluate n e)) ∧
    (∀ k s, s.depth ≤ D → k * (D + 1) + s.depth ≤ n → Ends D k (execute n s)) := by
  induction n with
  | zero =>
      refine ⟨fun k e _ hn => ?_, fun k s _ hn => ?_⟩
      · have := e.depth_pos
        omega
      · have := s.depth_pos
        omega
  | succ n ih =>
      obtain ⟨ihe, ihs⟩ := ih
      have hrun : ∀ k d, 0 < d → d ≤ D → k * (D + 1) + d ≤ n + 1 →
          (ending D k).Respects d (Runner.within n) (Runner.within n) := by
        intro k d hpos hd hn
        have he : ∀ e, e.depth < d → Ends D k (evaluate n e) := fun e hlt =>
          ihe k e (by omega) (by omega)
        have hs : ∀ s, s.depth < d → Ends D k (execute n s) := fun s hlt =>
          ihs k s (by omega) (by omega)
        -- one level less leaves room for a whole tree
        have hlower : ∀ j < k, ∀ s : Statement, s.depth ≤ D → Ends D j (execute n s) := by
          intro j hj s hsD
          have hroom : (j + 1) * (D + 1) ≤ k * (D + 1) := Nat.mul_le_mul_right _ hj
          have hexpand : (j + 1) * (D + 1) = j * (D + 1) + (D + 1) := by ring
          exact ihs j s hsD (by omega)
        exact {
          evaluate := he
          execute := hs
          callValue := ends_callValue hlower
          callMethod := ends_callMethod hlower
          loop := fun condition body pos hc hb => ends_loop pos (he condition hc) (hs body hb)
          print := ends_print
          loadModule := ends_loadModule hlower }
      refine ⟨fun k e hD hn => ?_, fun k s hD hn => ?_⟩
      · exact ExprRelation.expression_of_setMember
          (hrun k e.depth e.depth_pos hD hn).toRespectsParts
          fun o key v pos => ends_setMember o (.computed key) v pos
      · exact EvalRelation.statement (R := ending D k) hD (hrun k s.depth s.depth_pos hD hn)

/-! ## The bound that a machine computes -/

theorem le_foldl_max {a b : Nat} {l : List Nat} (h : a ≤ b ∨ a ∈ l) : a ≤ l.foldl max b := by
  induction l generalizing b with
  | nil => simpa using h
  | cons c l ih =>
      rw [List.foldl_cons]
      refine ih ?_
      rcases h with h | h
      · exact Or.inl (Nat.le_trans h (Nat.le_max_left b c))
      · rcases List.mem_cons.mp h with rfl | h
        · exact Or.inl (Nat.le_max_right b a)
        · exact Or.inr h

/-- No tree that a run can come across is deeper than `Machine.treeDepth`. -/
theorem bounded_treeDepth (m : Machine) {D : Nat} (hD : m.treeDepth ≤ D) : m.Bounded D where
  functions f hf := by
    refine Nat.le_trans (le_foldl_max (Or.inr ?_)) hD
    refine List.mem_append_left _ (List.mem_append_right _ ?_)
    exact List.mem_map.mpr ⟨f, Array.mem_toList_iff.mpr hf, rfl⟩
  methods f hf := by
    refine Nat.le_trans (le_foldl_max (Or.inr ?_)) hD
    refine List.mem_append_right _ ?_
    exact List.mem_map.mpr ⟨f, Array.mem_toList_iff.mpr hf, rfl⟩
  programs id text program hread hprogram := by
    refine Nat.le_trans (le_foldl_max (Or.inr ?_)) hD
    refine List.mem_append_left _ (List.mem_append_left _ ?_)
    refine List.mem_map.mpr ⟨text, ?_, by rw [hprogram]⟩
    exact List.mem_filterMap.mpr ⟨(id, .ok text), Loader.mem_of_read hread, rfl⟩

theorem levels_lt (m : Machine) :
    m.levels < (m.modules.loader.catalog.entries.length + 1) * (m.limits.maxCallDepth + 1) := by
  have hpending : m.pending ≤ m.modules.loader.catalog.entries.length := List.length_filter_le _ _
  have hmul := Nat.mul_le_mul_right (m.limits.maxCallDepth + 1) hpending
  have hexpand : (m.modules.loader.catalog.entries.length + 1) * (m.limits.maxCallDepth + 1)
      = m.modules.loader.catalog.entries.length * (m.limits.maxCallDepth + 1)
        + (m.limits.maxCallDepth + 1) := by ring
  unfold Machine.levels
  omega

/-- The bound that a machine computes has room for all its levels and one whole tree. -/
theorem levels_le_nesting (m : Machine) (depth : Nat) :
    m.levels * (max depth m.treeDepth + 1) + max depth m.treeDepth ≤ m.nesting depth := by
  have hroom := Nat.mul_le_mul_right (max depth m.treeDepth + 1) (levels_lt m)
  have hexpand : (m.levels + 1) * (max depth m.treeDepth + 1)
      = m.levels * (max depth m.treeDepth + 1) + (max depth m.treeDepth + 1) := by ring
  unfold Machine.nesting
  rw [Nat.succ_eq_add_one] at hroom
  omega

/-- **A program that a machine runs ends, and every larger bound gives the same run.** -/
theorem interpret_eq (program : Program) (m : Machine) {n : Nat}
    (hn : m.nesting program.depth ≤ n) :
    (Runner.within n).executeProgram program.body m = Machine.interpret program m ∧
      ¬ Exhausted (Machine.interpret program m) := by
  let D := max program.depth m.treeDepth
  have hroom : m.levels * (D + 1) + D ≤ m.nesting program.depth := levels_le_nesting m program.depth
  have hends : Ends D m.levels
      ((Runner.within (m.nesting program.depth)).executeProgram program.body) := by
    refine EvalRelation.executeProgram (R := ending D m.levels)
      (Runner.within (m.nesting program.depth)) (Runner.within (m.nesting program.depth)) _
      fun s hs => ?_
    have hdepth : s.depth ≤ D :=
      Nat.le_trans (Statement.depth_le_depthAll hs) (Nat.le_max_left program.depth m.treeDepth)
    exact (ends_within D _).2 m.levels s hdepth (by omega)
  have hnot := (hends.2 m (bounded_treeDepth m (Nat.le_max_right _ _)) (Nat.le_refl _)).1
  refine ⟨?_, hnot⟩
  have hmono : lowering.Follows
      ((Runner.within (m.nesting program.depth)).executeProgram program.body)
      ((Runner.within n).executeProgram program.body) :=
    EvalRelation.executeProgram (R := lowering.relation) _ _ _ fun s _ => (within_mono hn).2 s
  rcases hmono m with ⟨heq, _⟩ | ⟨hexhausted, _⟩
  · exact heq.symm
  · exact absurd hexhausted hnot

/-- Hence no change to its machines makes a run one that is stopped. -/
theorem onMachine_interpret_ne (program : Program) (m stopped : Machine)
    (change : Machine → Machine) :
    Eval.onMachine change (Machine.interpret program m) ≠ .error .exhausted stopped := by
  intro heq
  have hends := (interpret_eq program m (Nat.le_refl _)).2
  rw [Exhausted, ← haltsFor_onMachine change, heq] at hends
  exact hends ⟨stopped, rfl⟩

/-- A call that a machine makes ends. -/
theorem call_ends (callee : Value) (arguments : List Value) (pos : Position) (m : Machine) :
    ¬ Exhausted (Machine.call callee arguments pos m) := by
  let D := max 0 m.treeDepth
  have hroom : m.levels * (D + 1) + D ≤ m.nesting 0 := levels_le_nesting m 0
  have hlower : ∀ j < m.levels, ∀ s : Statement, s.depth ≤ D →
      Ends D j (execute (m.nesting 0) s) := by
    intro j hj s hs
    refine (ends_within D _).2 j s hs ?_
    have hlevels := Nat.mul_le_mul_right (D + 1) (Nat.le_of_lt hj)
    omega
  have hends := ends_callValue hlower callee arguments pos
  exact (hends.2 m (bounded_treeDepth m (Nat.le_max_right _ _)) (Nat.le_refl _)).1

end Nesting

end Lipi
