import Lipi.Proofs.Machine.Cascade
import Lipi.Proofs.Machine.Superclass

set_option autoImplicit false

/-! # Bodies that call up

Calls cascade in every chain of overrides, of whatever length, if each body **consists of one
statement `upar.name();` among statements that do nothing to the machine**, and the last body of such
statements only (`Machine.callCascades_of_bodies`). Bodies that print literals and call up can be told
from their trees (`cascadingBodies_of_printsUpward`).
-/

namespace Lipi

section Bodies

variable (tag : Option InstanceRef → MethodRef → ClassRef → Option String)

/-- The runner of a run in which calls are noted. -/
noncomputable abbrev Runner.noting (n : Nat) : Runner :=
  Runner.hooked (Inspection.calls tag).hooks n

theorem execute_noting (n : Nat) (s : Statement) :
    (Runner.noting tag (n + 1)).execute s =
      (Inspection.calls tag).hooks.statement (Runner.noting tag n) s :=
  Inspection.around_calls tag _

theorem evaluate_noting (n : Nat) (e : Expr) :
    (Runner.noting tag (n + 1)).evaluate e =
      (Inspection.calls tag).hooks.expression (Runner.noting tag n) e :=
  Inspection.evaluated_calls tag _

/-- A statement comes to its end without doing anything to the machine, or halts. -/
def Statement.Still (s : Statement) : Prop :=
  ∀ (n : Nat) (m : Machine), (Runner.noting tag n).execute s m = .ok .normal m ∨
    ∃ halt, (Runner.noting tag n).execute s m = .error halt m

/-- Printing a literal is such a statement: what is printed is not noted. -/
theorem still_print (v : Literal) (p q : Position) :
    Statement.Still tag (.print (.literal v p) q) := by
  intro n m
  cases n with
  | zero => exact .inr ⟨_, rfl⟩
  | succ n =>
      rw [execute_noting]
      have hvalue : (Runner.noting tag n).evaluate (.literal v p) m = .ok (.ofLiteral v) m ∨
          (Runner.noting tag n).evaluate (.literal v p) m = .error .exhausted m := by
        cases n with
        | zero => exact .inr rfl
        | succ n =>
            rw [evaluate_noting]
            exact .inl rfl
      rcases hvalue with hok | herror
      · exact .inl (Eval.bind_ok _ hok)
      · exact .inr ⟨_, Eval.bind_error _ herror⟩

/-- A body calls `upar.name()` in one statement, among statements that do nothing. -/
def CallsUpOnce (name : String) (body : List Statement) : Prop :=
  ∃ (before : List Statement) (superPos memberPos callPos pos : Position) (after : List Statement),
    body = before ++
      .expression (.call (.member (.super superPos) name memberPos) [] callPos) pos :: after ∧
    (∀ s ∈ before, s.Still tag) ∧ ∀ s ∈ after, s.Still tag

theorem Eval.calm_of_same {α : Type} {x : Eval α} {m : Machine} (hx : x.final m = m) : x.Calm m := by
  refine ⟨by rw [hx], by rw [hx], ?_⟩
  rw [hx]
  exact Heap.keepsClasses_refl _

variable {tag} {name : String} {m : Machine}

theorem Statement.Still.calm {s : Statement} (hs : s.Still tag) (n : Nat) (m : Machine) :
    ((Runner.noting tag n).execute s).Calm m := by
  refine Eval.calm_of_same ?_
  unfold Eval.final
  rcases hs n m with hok | ⟨halt, herror⟩
  · rw [hok]
    rfl
  · rw [herror]
    rfl

/-- Statements that do nothing are calm together. -/
theorem calm_of_still {body : List Statement} (hbody : ∀ s ∈ body, s.Still tag) (n : Nat)
    (m : Machine) : ((Runner.noting tag n).executeAll body).Calm m := by
  refine Eval.calm_of_same ?_
  induction body with
  | nil => rfl
  | cons s body ih =>
      unfold Eval.final
      unfold Runner.executeAll
      rcases hbody s List.mem_cons_self n m with hok | ⟨halt, herror⟩
      · rw [Eval.bind_ok _ hok]
        exact ih fun s hs => hbody s (List.mem_cons_of_mem _ hs)
      · rw [Eval.bind_error _ herror]
        rfl

/-- What comes before the call leaves the machine as it is. -/
theorem callsUp_append {n : Nat} {before rest : List Statement}
    (hstill : ∀ s ∈ before, s.Still tag)
    (hrest : CallsUp (Inspection.calls tag).hooks name ((Runner.noting tag n).executeAll rest) m) :
    CallsUp (Inspection.calls tag).hooks name
      ((Runner.noting tag n).executeAll (before ++ rest)) m := by
  induction before with
  | nil => exact hrest
  | cons s before ih =>
      have hs := hstill s List.mem_cons_self
      refine CallsUp.before (hs.calm n m) fun c m' hc => ?_
      rcases hs n m with hok | ⟨halt, herror⟩
      · rw [hok] at hc
        cases hc
        exact ih fun s hs => hstill s (List.mem_cons_of_mem _ hs)
      · rw [herror] at hc
        cases hc

/-- The statement `upar.name();` calls up if the call does. -/
theorem callsUp_statement {superPos memberPos callPos pos : Position} {found : Value}
    (hfound : Eval.superMember name memberPos m = .ok found m)
    (hcall : ∀ n, CallsUp (Inspection.calls tag).hooks name
      ((Inspection.calls tag).hooks.callValue (Runner.noting tag n) found [] callPos) m) (n : Nat) :
    CallsUp (Inspection.calls tag).hooks name ((Runner.noting tag n).execute
      (.expression (.call (.member (.super superPos) name memberPos) [] callPos) pos)) m := by
  have hmember : (Eval.superMember name memberPos).Calm m := by
    refine Eval.calm_of_same ?_
    unfold Eval.final
    rw [hfound]
    rfl
  have hexhausted : ∀ {α : Type}, CallsUp (Inspection.calls tag).hooks name
      (throw .exhausted : Eval α) m := fun {_} => .halted (Eval.calm_of_same rfl) rfl
  cases n with
  | zero => exact hexhausted
  | succ n =>
      rw [execute_noting]
      refine CallsUp.after ?_ fun _ _ _ => Eval.calm_of_same rfl
      cases n with
      | zero => exact hexhausted
      | succ n =>
          rw [evaluate_noting]
          refine CallsUp.before hmember fun f m' hf => ?_
          rw [hfound] at hf
          cases hf
          refine CallsUp.before (Eval.calm_of_same rfl) fun vs m' hvs => ?_
          cases hvs
          exact hcall n

theorem Eval.Calm.inScope {α : Type} {x : Eval α} {scope : ScopeRef}
    (hx : x.Calm { m with environment := scope }) : (Eval.inScope scope x).Calm m := by
  have hfinal := final_inScope scope x m
  exact ⟨by rw [hfinal]; exact hx.output, by rw [hfinal]; exact hx.frames,
    by rw [hfinal]; exact hx.classes⟩

/-- A body calls up if its call does. -/
theorem callsUp_body {body : List Statement} (hbody : CallsUpOnce tag name body) {found : Value}
    (hfound : ∀ p, Eval.superMember name p m = .ok found m)
    (hcall : ∀ n q, CallsUp (Inspection.calls tag).hooks name
      ((Inspection.calls tag).hooks.callValue (Runner.noting tag n) found [] q) m) (n : Nat) :
    CallsUp (Inspection.calls tag).hooks name ((Runner.noting tag n).executeAll body) m := by
  obtain ⟨before, superPos, memberPos, callPos, pos, after, rfl, hstill, hafter⟩ := hbody
  refine callsUp_append hstill ?_
  refine CallsUp.after (callsUp_statement (hfound memberPos) (fun n => hcall n callPos) n)
    fun c m' _ => ?_
  cases c with
  | normal => exact calm_of_still hafter n m'
  | returned v => exact Eval.calm_of_same rfl

/-- The bodies of a chain of overrides cascade: each calls up once, and the last one does nothing. -/
def CascadingBodies (tag : Option InstanceRef → MethodRef → ClassRef → Option String) (h : Heap)
    (name : String) : List (ClassRef × MethodRef) → Prop
  | [] => True
  | [(_, f)] => ∀ s ∈ (h.method f).routine.body, s.Still tag
  | (_, f) :: next :: rest =>
    CallsUpOnce tag name (h.method f).routine.body ∧ CascadingBodies tag h name (next :: rest)

variable {h : Heap} {o : InstanceRef}

/-- `upar.name` gives the first override above the running one. -/
theorem superMember_of_first (ha : h.Ancestral) {caller home : ClassRef} {f : MethodRef}
    {rest : List (ClassRef × MethodRef)}
    (habove : h.Overrides (h.Ancestor caller) name ((home, f) :: rest))
    (hclasses : m.heap.classes = h.classes) (hframe : m.frame? = some ⟨some o, caller⟩)
    (p : Position) : Eval.superMember name p m = .ok (.bound (some o) f home) m := by
  have hnearest := (habove.nearestAbove_iff ha).mpr ⟨rest, rfl⟩
  obtain ⟨parent, hparent, _⟩ := Relation.TransGen.head'_iff.mp hnearest.ancestor
  have hfound := (ha.findMethod?_iff _ _ _ _ _).mpr ((Heap.nearestAbove_iff hparent).mp hnearest)
  have hparent' : m.heap.Parent caller parent := by
    unfold Heap.Parent Heap.classObject at hparent ⊢
    rwa [hclasses]
  rw [Eval.superMember_eq, Machine.superTarget_of_parent hframe hparent']
  dsimp only
  rw [show Eval.superTable ⟨some o, caller⟩ = .ofInstances from rfl,
    Heap.findMethod?_congr hclasses, hfound]

/-- The induction is on the overrides above the running one: each is called by the one before it. -/
theorem callsUp_of_bodies (ha : h.Ancestral) {above : List (ClassRef × MethodRef)}
    {caller : ClassRef} {f : MethodRef} (habove : h.Overrides (h.Ancestor caller) name above)
    (hne : above ≠ []) (hbodies : CascadingBodies tag h name ((caller, f) :: above)) (n : Nat)
    (vs : List Value) (hclasses : m.heap.classes = h.classes)
    (hmethods : m.heap.methods = h.methods) :
    CallsUp (Inspection.calls tag).hooks name ((Runner.noting tag n).bodyAt m f)
      (m.enter f ⟨some o, caller⟩ vs) := by
  induction above generalizing caller f m n vs with
  | nil => exact absurd rfl hne
  | cons next rest ih =>
      obtain ⟨home, g⟩ := next
      obtain ⟨hbody, hbodies⟩ := hbodies
      have hmethod : ∀ g, m.heap.method g = h.method g := by
        intro g
        unfold Heap.method
        rw [hmethods]
      -- the machine on which the statements of the body run
      let inside : Machine :=
        { m.enter f ⟨some o, caller⟩ vs with environment := ⟨m.heap.scopes.size⟩ }
      have hinside : inside.heap.classes = h.classes := hclasses
      have hfound : ∀ p, Eval.superMember name p inside = .ok (.bound (some o) g home) inside :=
        superMember_of_first ha habove hinside rfl
      have hrest := habove.tail_of_ancestor ha
      unfold Runner.bodyAt Runner.executeBlock
      rw [hmethod]
      refine CallsUp.inScope (callsUp_body (m := inside) hbody hfound (fun n q => ?_) n)
      cases rest with
      | nil =>
          refine CallsUp.last (hfound q) (Inspection.called_calls tag _ _ _ _) (fun d g' hd hg => ?_)
            (Eval.Calm.inScope ?_)
          · have hback : Heap.KeepsClasses inside.heap h := fun _ _ hc => hinside ▸ hc
            exact nomatch (hrest.complete d g').mpr ⟨hback.ancestor hd, hback.declares hg⟩
          · show ((Runner.noting tag n).executeAll (m.heap.method g).routine.body).Calm _
            rw [hmethod]
            exact calm_of_still hbodies n _
      | cons next rest =>
          refine CallsUp.next (hfound q) (Inspection.called_calls tag _ _ _ _) ?_
          exact ih hrest (List.cons_ne_nil _ _) hbodies n [] hinside hmethods

end Bodies

/-- **Every chain of such overrides cascades**, of whatever length. -/
theorem Machine.callCascades_of_bodies {m : Machine} (l : m.Lawful) {o : InstanceRef}
    {name : String} {home : ClassRef} {f : MethodRef} {rest : List (ClassRef × MethodRef)}
    (hchain : m.heap.Overrides (m.heap.Lineage (m.heap.classOf o)) name ((home, f) :: rest))
    (tag : Option InstanceRef → MethodRef → ClassRef → Option String)
    (hbodies : CascadingBodies tag m.heap name ((home, f) :: rest)) (n : Nat) (vs : List Value) :
    m.CallCascades (Inspection.calls tag).hooks name n o f home vs := by
  have ha := l.heap.ancestral
  have habove := hchain.tail_of_lineage ha
  refine ⟨_, Inspection.called_calls tag _ _ _ _, fun ⟨d, g, hd, hg⟩ => ?_, fun hnone => ?_⟩
  · refine callsUp_of_bodies ha habove ?_ hbodies n vs rfl rfl
    exact List.ne_nil_of_mem ((habove.complete d g).mpr ⟨hd, hg⟩)
  · cases rest with
    | nil => exact Eval.Calm.inScope (calm_of_still hbodies n _)
    | cons head rest =>
        obtain ⟨hd, hg⟩ := (habove.complete head.1 head.2).mp List.mem_cons_self
        exact absurd hg (hnone _ _ hd)

/-! ## Telling such bodies

Which statements do nothing cannot be told in general. That those that print a literal do not is
enough to tell cascades of bodies that print and call up. -/

/-- Whether a statement prints a literal. -/
def Statement.printsLiteral : Statement → Bool
  | .print (.literal _ _) _ => true
  | _ => false

/-- Whether a statement is `upar.name();`. -/
def Statement.isSuperCall (name : String) : Statement → Bool
  | .expression (.call (.member (.super _) method _) [] _) _ => method == name
  | _ => false

/-- Whether a body prints literals and calls `upar.name()` once. -/
def printsAndCallsUp (name : String) : List Statement → Bool
  | [] => false
  | s :: body =>
    if s.isSuperCall name then body.all Statement.printsLiteral
    else s.printsLiteral && printsAndCallsUp name body

/-- Whether the bodies of a chain of overrides print literals and call up, but for the last one,
which only prints. -/
def Heap.printsUpward (h : Heap) (name : String) : List (ClassRef × MethodRef) → Bool
  | [] => true
  | [(_, f)] => (h.method f).routine.body.all Statement.printsLiteral
  | (_, f) :: next :: rest =>
    printsAndCallsUp name (h.method f).routine.body && h.printsUpward name (next :: rest)

section Telling

variable (tag : Option InstanceRef → MethodRef → ClassRef → Option String) {name : String}

theorem still_of_printsLiteral {body : List Statement}
    (hbody : body.all Statement.printsLiteral = true) : ∀ s ∈ body, s.Still tag := by
  intro s hs
  have hprints := List.all_eq_true.mp hbody s hs
  unfold Statement.printsLiteral at hprints
  split at hprints
  · exact still_print tag _ _ _
  · cases hprints

theorem callsUpOnce_of_printsAndCallsUp {body : List Statement}
    (hbody : printsAndCallsUp name body = true) : CallsUpOnce tag name body := by
  induction body with
  | nil => cases hbody
  | cons s body ih =>
      unfold printsAndCallsUp at hbody
      split at hbody
      next hsuper =>
        unfold Statement.isSuperCall at hsuper
        split at hsuper
        · cases eq_of_beq hsuper
          exact ⟨[], _, _, _, _, body, rfl, List.forall_mem_nil _, still_of_printsLiteral tag hbody⟩
        · cases hsuper
      next =>
        obtain ⟨hs, hbody⟩ := Bool.and_eq_true_iff.mp hbody
        obtain ⟨before, superPos, memberPos, callPos, pos, after, rfl, hbefore, hafter⟩ := ih hbody
        refine ⟨s :: before, superPos, memberPos, callPos, pos, after, rfl, ?_, hafter⟩
        have hprints : [s].all Statement.printsLiteral = true := by simpa using hs
        have hstill := still_of_printsLiteral tag hprints s List.mem_cons_self
        exact List.forall_mem_cons.mpr ⟨hstill, hbefore⟩

theorem cascadingBodies_of_printsUpward {h : Heap} {chain : List (ClassRef × MethodRef)}
    (hchain : h.printsUpward name chain = true) : CascadingBodies tag h name chain := by
  induction chain with
  | nil => trivial
  | cons a rest ih =>
      cases rest with
      | nil => exact still_of_printsLiteral tag hchain
      | cons next rest =>
          obtain ⟨hbody, hrest⟩ := Bool.and_eq_true_iff.mp hchain
          exact ⟨callsUpOnce_of_printsAndCallsUp tag hbody, ih hrest⟩

end Telling

end Lipi
