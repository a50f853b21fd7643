import Lipi.Proofs.Heap.Alike

set_option autoImplicit false

/-! # Runs of two programs that agree

Two machines are alike if they differ at most in the positions and zeros that their heaps hold.
**Every step of a run keeps two machines alike** (`Alike.accord`), so two programs that agree make
the same of machines that are alike. Where they fail, they fail for the same cause; only the message
of a failed module, which is quoted in the message of its importer, may name another position.
-/

namespace Lipi

/-! ## Errors -/

/-- Two errors have the same cause, and both have a position or none has. The cause that a module
has failed quotes errors that are related in the same way. -/
inductive RuntimeError.Alike : RuntimeError → RuntimeError → Prop where
  | same (cause : RuntimeError.Cause) {p q : Option Position} : p.isSome = q.isSome →
    RuntimeError.Alike ⟨cause, p⟩ ⟨cause, q⟩
  | quoted (path : String) {e e' : RuntimeError} {p q : Option Position} :
    RuntimeError.Alike e e' → p.isSome = q.isSome →
    RuntimeError.Alike ⟨.moduleLoad path e.message, p⟩ ⟨.moduleLoad path e'.message, q⟩

/-- Two computations halt for the same reason. -/
inductive Halt.Alike : Halt → Halt → Prop where
  | failed {e e' : RuntimeError} : e.Alike e' → Halt.Alike (.failed e) (.failed e')
  | conflict : Halt.Alike .conflict .conflict
  | exhausted : Halt.Alike .exhausted .exhausted

theorem Halt.alike_failed (cause : RuntimeError.Cause) (p q : Position) :
    Halt.Alike (.failed ⟨cause, some p⟩) (.failed ⟨cause, some q⟩) :=
  .failed (.same cause rfl)

/-- An error of a module is quoted, unless it is that of a circular import. -/
theorem Halt.Alike.importer {e e' : Halt} (h : e.Alike e') (specifier : String) (p q : Position) :
    Halt.Alike (Eval.importerHalt specifier p e) (Eval.importerHalt specifier q e') := by
  cases h with
  | conflict => exact .conflict
  | exhausted => exact .exhausted
  | failed he =>
      refine .failed ?_
      cases he with
      | quoted path hinner hpos => exact .quoted specifier (.quoted path hinner hpos) rfl
      | same cause hpos =>
          cases cause with
          | circularImport path => exact .same _ hpos
          | _ => exact .quoted specifier (.same _ hpos) rfl

/-! ## Machines -/

/-- Two machines are in the same state, on heaps that are alike. -/
structure Machine.Alike (m m' : Machine) : Prop where
  heap : m.heap.Alike m'.heap
  globals : m'.globals = m.globals
  environment : m'.environment = m.environment
  frames : m'.frames = m.frames
  limits : m'.limits = m.limits
  output : m'.output = m.output
  exports : m'.exports = m.exports
  moduleId : m'.moduleId = m.moduleId
  loader : m'.modules.loader = m.modules.loader
  cache : Dict.Like (Dict.Like Value.Alike) m.modules.cache m'.modules.cache
  loading : m'.modules.loading = m.modules.loading

theorem Machine.alike_refl (m : Machine) : m.Alike m where
  heap := m.heap.alike_refl
  globals := rfl
  environment := rfl
  frames := rfl
  limits := rfl
  output := rfl
  exports := rfl
  moduleId := rfl
  loader := rfl
  cache := Dict.like_refl (Dict.like_refl .same) _
  loading := rfl

namespace Alike

/-- What is akin if positions do not matter. -/
def kinship : Kinship where
  hooks := .plain
  likeness := .agreement
  later _ _ := True
  state := Machine.Alike
  value _ := Value.Alike
  halt := Halt.Alike
  scope _ _ := True
  frame _ _ := True
  callable _ _ _ _ := True

section Steps

variable {m m' : Machine} {p q : Position}

/-- A result at machines that are alike. -/
theorem meets_ok {α β : Type} {rel : Heap → α → β → Prop} {a : α} {b : β} (h : Heap)
    (hs : m.Alike m') (hab : rel m.heap a b) :
    kinship.Meets h rel (.ok a m) (.ok b m') :=
  .ok trivial hs hab

theorem meets_fail {α β : Type} {rel : Heap → α → β → Prop} (h : Heap) (hs : m.Alike m')
    (cause : RuntimeError.Cause) :
    kinship.Meets (α := α) (β := β) h rel (.error (.failed ⟨cause, some p⟩) m)
      (.error (.failed ⟨cause, some q⟩) m') :=
  .error trivial hs (Halt.alike_failed cause p q)

/-- Two results of pure computations. -/
inductive Pure {α β : Type} (rel : α → β → Prop) :
    Except RuntimeError.Cause α → Except RuntimeError.Cause β → Prop where
  | ok {a : α} {b : β} : rel a b → Pure rel (.ok a) (.ok b)
  | error (cause : RuntimeError.Cause) : Pure rel (.error cause) (.error cause)

/-- Giving the result of a pure computation, or failing, leaves the machine as it is. -/
theorem meets_lift {r r' : Except RuntimeError.Cause Value} (hs : m.Alike m')
    (hr : Pure Value.Alike r r') :
    kinship.Meets m.heap kinship.value (Eval.lift p r m) (Eval.lift q r' m') := by
  cases hr with
  | ok hv => exact meets_ok m.heap hs hv
  | error cause => exact meets_fail m.heap hs cause

/-- A change of the heap at a place that is found in the same way on both sides. -/
theorem meets_update {α : Type} {find find' : Heap → Except RuntimeError.Cause α}
    {change change' : α → Heap → Heap} (hs : m.Alike m') (hfind : find' m'.heap = find m.heap)
    (hchange : ∀ place, (change place m.heap).Alike (change' place m'.heap)) :
    kinship.Meets m.heap Kinship.anything (Eval.update p find change m)
      (Eval.update q find' change' m') := by
  unfold Eval.update
  rw [hfind]
  cases find m.heap with
  | ok place => exact .ok trivial { hs with heap := hchange place } trivial
  | error cause => exact meets_fail m.heap hs cause

/-! ## Operators -/

theorem unary (op : UnaryOp) {v v' : Value} (hv : v.Alike v') :
    Pure Value.Alike (op.apply v) (op.apply v') := by
  cases op with
  | not =>
      show Pure _ (.ok (Value.bool !v.isTruthy)) (.ok (Value.bool !v'.isTruthy))
      rw [hv.isTruthy]
      exact .ok (.same _)
  | negate =>
      cases hv with
      | zeros hx hy => exact .ok (Value.alike_number (Number.Same.neg (.inr ⟨hx, hy⟩)))
      | same v =>
          cases v with
          | number x => exact .ok (.same _)
          | _ => exact .error _

theorem arithmetic (op : BinaryOp) {x x' y y' : Float} (hx : Number.Same x x')
    (hy : Number.Same y y') : Pure Value.Alike (op.arithmetic x y) (op.arithmetic x' y') := by
  have hdivisor : (y' == 0.0) = (y == 0.0) := hy.beq (.refl 0.0)
  cases op with
  | add => exact .ok (Value.alike_number (hx.add hy))
  | sub => exact .ok (Value.alike_number (hx.sub hy))
  | mul => exact .ok (Value.alike_number (hx.mul hy))
  | div =>
      show Pure _ (if y == 0.0 then _ else _) (if y' == 0.0 then _ else _)
      rw [hdivisor]
      cases hzero : y == 0.0 with
      | true => exact .error _
      | false => exact .ok (Value.alike_number (hx.div hy hzero))
  | mod =>
      show Pure _ (if y == 0.0 then _ else _) (if y' == 0.0 then _ else _)
      rw [hdivisor]
      cases hzero : y == 0.0 with
      | true => exact .error _
      | false => exact .ok (Value.alike_number (hx.remainder hy hzero))
  | _ => exact .error _

theorem pure_refl (r : Except RuntimeError.Cause Value) : Pure Value.Alike r r := by
  cases r with
  | ok v => exact .ok (.same v)
  | error cause => exact .error cause

/-- Two alike values are numbers that are the same up to the sign of a zero, or one value that is no
number. -/
theorem number_or_same {v v' : Value} (hv : v.Alike v') :
    (∃ x y, v = .number x ∧ v' = .number y ∧ Number.Same x y) ∨
    (v' = v ∧ ∀ x, v ≠ .number x) := by
  cases hv with
  | zeros hx hy => exact .inl ⟨_, _, rfl, rfl, .inr ⟨hx, hy⟩⟩
  | same v =>
      cases v with
      | number x => exact .inl ⟨x, x, rfl, rfl, .refl x⟩
      | _ => exact .inr ⟨rfl, fun _ h => nomatch h⟩

theorem applyArithmetic {h h' : Heap} (a : h.Alike h') (op : BinaryOp) {l l' r r' : Value}
    (hl : l.Alike l') (hr : r.Alike r') :
    Pure Value.Alike (op.applyArithmetic h l r) (op.applyArithmetic h' l' r') := by
  have hltext := a.text hl
  have hrtext := a.text hr
  rcases number_or_same hl with ⟨x, x', rfl, rfl, hx⟩ | ⟨rfl, hnl⟩ <;>
    rcases number_or_same hr with ⟨y, y', rfl, rfl, hy⟩ | ⟨rfl, hnr⟩
  · have hnumbers := arithmetic op hx hy
    cases op <;> exact hnumbers
  · -- a number on the left of a value that is none
    cases r' with
    | number y => exact absurd rfl (hnr y)
    | string t =>
        cases op with
        | add =>
            show Pure _ (.ok (Value.string _)) (.ok (Value.string _))
            rw [hltext]
            exact .ok (.same _)
        | _ => exact .error _
    | _ => cases op <;> exact .error _
  · cases l' with
    | number x => exact absurd rfl (hnl x)
    | string t =>
        cases op with
        | add =>
            show Pure _ (.ok (Value.string _)) (.ok (Value.string _))
            rw [hrtext]
            exact .ok (.same _)
        | _ => exact .error _
    | _ => cases op <;> exact .error _
  · have hsame : op.applyArithmetic h' l' r' = op.applyArithmetic h l' r' := by
      have htext : ∀ v, h'.text v = h.text v := fun v => a.text (.same v)
      unfold BinaryOp.applyArithmetic
      simp only [htext]
    rw [hsame]
    exact pure_refl _

theorem compareNumbers {x x' y y' : Float} (hx : Number.Same x x') (hy : Number.Same y y') :
    BinaryOp.compareNumbers x' y' = BinaryOp.compareNumbers x y := by
  unfold BinaryOp.compareNumbers
  simp only [hx.lt hy, hy.lt hx, hx.beq hy]

theorem applyComparison (op : BinaryOp) {l l' r r' : Value} (hl : l.Alike l') (hr : r.Alike r') :
    Pure Value.Alike (op.applyComparison l r) (op.applyComparison l' r') := by
  have hequals := hl.equals hr
  have hequal : Pure Value.Alike (.ok (Value.bool (l.equals r))) (.ok (Value.bool (l'.equals r'))) := by
    rw [hequals]
    exact .ok (.same _)
  have hnotEqual : Pure Value.Alike (.ok (Value.bool !(l.equals r)))
      (.ok (Value.bool !(l'.equals r'))) := by
    rw [hequals]
    exact .ok (.same _)
  -- values that are no numbers are the same on both sides, and only numbers have an order
  rcases number_or_same hl with ⟨x, x', rfl, rfl, hx⟩ | ⟨rfl, hnl⟩ <;>
    rcases number_or_same hr with ⟨y, y', rfl, rfl, hy⟩ | ⟨rfl, hnr⟩
  · have horder : ∀ op : BinaryOp,
        Pure Value.Alike (.ok (Value.bool ((BinaryOp.compareNumbers x y).any op.holds)))
          (.ok (Value.bool ((BinaryOp.compareNumbers x' y').any op.holds))) := by
      intro op
      rw [compareNumbers hx hy]
      exact .ok (.same _)
    cases op with
    | equal => exact hequal
    | notEqual => exact hnotEqual
    | _ => exact horder _
  · cases op with
    | equal => exact hequal
    | notEqual => exact hnotEqual
    | _ =>
        cases r' with
        | number y => exact absurd rfl (hnr y)
        | _ => exact .error _
  · cases op with
    | equal => exact hequal
    | notEqual => exact hnotEqual
    | _ =>
        cases l' with
        | number x => exact absurd rfl (hnl x)
        | _ => exact .error _
  · exact pure_refl _

/-- **Operators do the same to alike values.** -/
theorem binary {h h' : Heap} (a : h.Alike h') (op : BinaryOp) {l l' r r' : Value}
    (hl : l.Alike l') (hr : r.Alike r') :
    Pure Value.Alike (op.apply h l r) (op.apply h' l' r') := by
  cases op with
  | and =>
      show Pure _ (.ok (Value.bool (l.isTruthy && r.isTruthy)))
        (.ok (Value.bool (l'.isTruthy && r'.isTruthy)))
      rw [hl.isTruthy, hr.isTruthy]
      exact .ok (.same _)
  | or =>
      show Pure _ (.ok (Value.bool (l.isTruthy || r.isTruthy)))
        (.ok (Value.bool (l'.isTruthy || r'.isTruthy)))
      rw [hl.isTruthy, hr.isTruthy]
      exact .ok (.same _)
  | add | sub | mul | div | mod => exact applyArithmetic a _ hl hr
  | less => exact applyComparison .less hl hr
  | greater => exact applyComparison .greater hl hr
  | lessEqual => exact applyComparison .lessEqual hl hr
  | greaterEqual => exact applyComparison .greaterEqual hl hr
  | equal => exact applyComparison .equal hl hr
  | notEqual => exact applyComparison .notEqual hl hr

/-! ## Members -/

theorem actingClass? (hs : m.Alike m') : m'.actingClass? = m.actingClass? := by
  have hframe : m'.frame? = m.frame? := by
    unfold Machine.frame?
    rw [hs.frames]
  unfold Machine.actingClass?
  rw [hframe]
  cases m.frame? with
  | none => rfl
  | some frame =>
      cases hreceiver : frame.receiver with
      | none => simp only [Option.map_some, hreceiver]
      | some o => simp only [Option.map_some, hreceiver, hs.heap.classOf]

theorem mayUse (hs : m.Alike m') (access : Access) (home : ClassRef) :
    m'.mayUse access home = m.mayUse access home := by
  cases access with
  | sabka => rfl
  | _ =>
      show m'.actingClass?.any _ = m.actingClass?.any _
      rw [actingClass? hs]
      simp only [hs.heap.isSubclass]

theorem missingMember (hs : m.Alike m') {v v' : Value} (hv : v.Alike v') (name : String) :
    Machine.missingMember m'.heap v' name = Machine.missingMember m.heap v name := by
  have htext := hs.heap.text hv
  cases hv with
  | zeros hx hy => rfl
  | same v =>
      cases v with
      | object o => exact congrArg _ htext
      | ofClass c => exact congrArg _ htext
      | _ => rfl

theorem methodMember (hs : m.Alike m') {v v' : Value} (hv : v.Alike v')
    (receiver : Option InstanceRef) (c : ClassRef) (table : MethodTable) (name : String) :
    Pure Value.Alike (m.methodMember v receiver c table name)
      (m'.methodMember v' receiver c table name) := by
  unfold Machine.methodMember
  rw [hs.heap.findMethod?, missingMember hs hv]
  cases m.heap.findMethod? c table name with
  | none => exact .error _
  | some found =>
      obtain ⟨home, f⟩ := found
      dsimp only
      rw [(hs.heap.method f).access, mayUse hs, hs.heap.classObject]
      exact pure_refl _

theorem getMember (hs : m.Alike m') {v v' : Value} {key key' : Key} (hv : v.Alike v')
    (hkey : Key.Like Value.Alike key key') :
    Pure Value.Alike (m.getMember v key) (m'.getMember v' key') := by
  have hname := hs.heap.keyText hkey
  have hmissing : Pure Value.Alike (.error (Machine.missingMember m.heap v (key.text m.heap)))
      (.error (Machine.missingMember m'.heap v' (key'.text m'.heap))) := by
    rw [hname, missingMember hs hv]
    exact .error _
  cases hv with
  -- numbers have no members, so that the sign of a zero is not seen
  | zeros hx hy => cases hkey <;> exact hmissing
  | same v =>
      cases v with
      | null =>
          show Pure _ (.error (.nullAccess .read (key.text m.heap) .null))
            (.error (.nullAccess .read (key'.text m'.heap) .null))
          rw [hname]
          exact .error _
      | undefined =>
          show Pure _ (.error (.nullAccess .read (key.text m.heap) .undefined))
            (.error (.nullAccess .read (key'.text m'.heap) .undefined))
          rw [hname]
          exact .error _
      -- a field hides a method
      | object o =>
          have hfield := (hs.heap.instanceObject o).fields.get? (key.text m.heap)
          rw [Machine.getMember_object, Machine.getMember_object, hname, hs.heap.classOf]
          generalize (m.heap.instanceObject o).fields.get? (key.text m.heap) = field at hfield
          generalize (m'.heap.instanceObject o).fields.get? (key.text m.heap) = field' at hfield
          cases hfield with
          | some hvalue => exact .ok hvalue
          | none => exact methodMember hs (.same _) _ _ _ _
      | ofClass c =>
          show Pure _ (m.methodMember (.ofClass c) none c .ofClass (key.text m.heap))
            (m'.methodMember (.ofClass c) none c .ofClass (key'.text m'.heap))
          rw [hname]
          exact methodMember hs (.same _) _ _ _ _
      -- which element it is depends on the number that the key is, where zeros do not differ
      | array e =>
          have hall := hs.heap.elements e
          cases hkey with
          | name name =>
              by_cases hlength : name = "length"
              · subst hlength
                show Pure _ (.ok (Value.number (Number.ofNat (m.heap.elements e).size)))
                  (.ok (Value.number (Number.ofNat (m'.heap.elements e).size)))
                rw [hall.size]
                exact .ok (.same _)
              · simpa [Machine.getMember, hlength] using hmissing
          | @computed w w' hw =>
              show Pure _
                (.ok ((w.index?.bind fun i => (m.heap.elements e)[i]?).getD .undefined))
                (.ok ((w'.index?.bind fun i => (m'.heap.elements e)[i]?).getD .undefined))
              rw [hw.index?]
              cases w.index? with
              | none => exact .ok (.same _)
              | some i => exact .ok (hall.getD i (.same _))
      | string s =>
          cases hkey with
          | name name =>
              by_cases hlength : name = "length"
              · subst hlength
                exact .ok (.same _)
              · simpa [Machine.getMember, hlength] using hmissing
          | @computed w w' hw =>
              rw [Machine.getMember_character, Machine.getMember_character, hw.index?]
              exact .ok (.same _)
      | _ => cases hkey <;> exact hmissing

theorem memberPlace {h h' : Heap} (a : h.Alike h') {v v' : Value} {key key' : Key}
    (hv : v.Alike v') (hkey : Key.Like Value.Alike key key') :
    Machine.memberPlace h' v' key' = Machine.memberPlace h v key := by
  have hname := a.keyText hkey
  cases hv with
  | zeros hx hy => cases hkey <;> rfl
  | same v =>
      cases v with
      | null => exact congrArg (fun name => Except.error (RuntimeError.Cause.nullAccess .set name .null)) hname
      | undefined => exact congrArg (fun name => Except.error (RuntimeError.Cause.nullAccess .set name .undefined)) hname
      | object o => exact congrArg (fun name => Except.ok (MemberPlace.field o name)) hname
      | array e =>
          cases hkey with
          | name name => rfl
          | @computed w w' hw =>
              rw [Machine.memberPlace_element, Machine.memberPlace_element, hw.index?, a.text hw]
      | _ => cases hkey <;> rfl

theorem conflicts {h h' : Heap} (a : h.Alike h') {v v' : Value} {key key' : Key}
    (hv : v.Alike v') (hkey : Key.Like Value.Alike key key') :
    Machine.conflicts h' v' key' = Machine.conflicts h v key := by
  cases hv with
  | zeros hx hy => cases hkey <;> rfl
  | same v =>
      cases v with
      | object o =>
          cases hkey with
          | name name => rfl
          | computed hw => exact a.mentions o hw
      | _ => cases hkey <;> rfl

theorem write {h h' : Heap} (a : h.Alike h') (place : MemberPlace) {v v' : Value}
    (hv : v.Alike v') : (place.write v h).Alike (place.write v' h') := by
  cases place with
  | field o name => exact a.setField o name hv
  | element e i => exact a.setElement e i hv

theorem setMember (hs : m.Alike m') {o o' v v' : Value} {key key' : Key} (ho : o.Alike o')
    (hkey : Key.Like Value.Alike key key') (hv : v.Alike v') :
    kinship.Meets m.heap Kinship.anything (Eval.setMember o key v p m)
      (Eval.setMember o' key' v' q m') := by
  unfold Eval.setMember
  rw [conflicts hs.heap ho hkey]
  split
  · exact .error trivial hs .conflict
  · exact meets_update hs (memberPlace hs.heap ho hkey) fun place => write hs.heap place hv

/-! ## The running method -/

theorem frame? (hs : m.Alike m') : m'.frame? = m.frame? := by
  unfold Machine.frame?
  rw [hs.frames]

theorem lookup (hs : m.Alike m') (name : String) :
    kinship.Meets m.heap kinship.value (Eval.lookup name p m) (Eval.lookup name q m') := by
  have hvalue := hs.heap.lookup? m.environment name
  unfold Eval.lookup
  rw [hs.environment]
  generalize m.heap.lookup? m.environment name = o at hvalue
  generalize m'.heap.lookup? m.environment name = o' at hvalue
  cases hvalue with
  | none => exact meets_fail m.heap hs _
  | some hv => exact meets_ok m.heap hs hv

theorem receiver (hs : m.Alike m') :
    kinship.Meets m.heap kinship.value (Eval.receiver p m) (Eval.receiver q m') := by
  rw [Eval.receiver_eq, Eval.receiver_eq, frame? hs]
  cases m.frame?.bind (·.receiver) with
  | none => exact meets_fail m.heap hs _
  | some o => exact meets_ok m.heap hs (.same _)

theorem superTarget (hs : m.Alike m') :
    kinship.Meets m.heap (fun _ t t' => t' = t) (Eval.superTarget p m) (Eval.superTarget q m') := by
  rw [Eval.superTarget_eq, Eval.superTarget_eq, frame? hs]
  cases m.frame? with
  | none => exact meets_fail m.heap hs _
  | some frame =>
      dsimp only
      rw [hs.heap.classObject]
      cases (m.heap.classObject frame.home).superclass with
      | none => exact meets_fail m.heap hs _
      | some parent => exact meets_ok m.heap hs rfl

theorem superMember (hs : m.Alike m') (name : String) :
    kinship.Meets m.heap kinship.value (Eval.superMember name p m) (Eval.superMember name q m') := by
  have htarget := superTarget (p := p) (q := q) hs
  rw [Eval.superMember_eq, Eval.superMember_eq]
  generalize Eval.superTarget p m = r at htarget
  generalize Eval.superTarget q m' = r' at htarget
  cases htarget with
  | error _ hs₁ he => exact .error trivial hs₁ he
  | ok _ hs₁ ht =>
      subst ht
      dsimp only
      rw [hs₁.heap.findMethod?, hs₁.heap.classObject]
      split
      · exact meets_ok m.heap hs₁ (.same _)
      · exact meets_fail m.heap hs₁ _

/-- A value that is neither a function nor a method is not called. -/
theorem refuseCall (hs : m.Alike m') (run run' : Runner) {v v' : Value} (hv : v.Alike v')
    (hfunction : ∀ f, v ≠ .function f) (hbound : ∀ receiver f home, v ≠ .bound receiver f home)
    (vs vs' : List Value) :
    kinship.Meets m.heap kinship.value (run.callValue v vs p m) (run'.callValue v' vs' q m') := by
  have htext := hs.heap.text hv
  have hrefused : kinship.Meets (α := Value) (β := Value) m.heap kinship.value
      (.error (.failed ⟨.notCallable (m.heap.text v), some p⟩) m)
      (.error (.failed ⟨.notCallable (m'.heap.text v'), some q⟩) m') := by
    rw [htext]
    exact meets_fail m.heap hs _
  cases hv with
  | zeros hx hy => exact hrefused
  | same v =>
      cases v with
      | function f => exact absurd rfl (hfunction f)
      | bound receiver f home => exact absurd rfl (hbound receiver f home)
      | string s => exact meets_fail m.heap hs _
      | ofClass c =>
          show kinship.Meets (α := Value) (β := Value) m.heap kinship.value
            (.error (.failed ⟨.classCalledWithoutNew (m.heap.classObject c).name, some p⟩) m)
            (.error (.failed ⟨.classCalledWithoutNew (m'.heap.classObject c).name, some q⟩) m')
          rw [hs.heap.classObject]
          exact meets_fail m.heap hs _
      | _ => exact hrefused

/-! ## Modules -/

theorem collect (hs : m.Alike m') (names : List String) {e e' : Exports}
    (he : Dict.Like Value.Alike e e') :
    Pure (Dict.Like Value.Alike) (m.collect names e) (m'.collect names e') := by
  induction names generalizing e e' with
  | nil => exact .ok he
  | cons name names ih =>
      have hvalue : Option.Rel Value.Alike (m.global? name) (m'.global? name) := by
        unfold Machine.global?
        rw [hs.globals]
        exact hs.heap.lookup? m.globals name
      unfold Machine.collect
      generalize m.global? name = o at hvalue
      generalize m'.global? name = o' at hvalue
      cases hvalue with
      | none => exact .error _
      | some hv => exact ih (he.insert name hv)

theorem collectExports (hs : m.Alike m') :
    kinship.Meets m.heap kinship.exports (Eval.collectExports m) (Eval.collectExports m') := by
  have hall : Pure (Dict.Like Value.Alike) m.collectExports m'.collectExports := by
    unfold Machine.collectExports
    rw [hs.exports]
    exact collect hs _ Dict.like_empty
  unfold Eval.collectExports
  generalize m.collectExports = r at hall
  generalize m'.collectExports = r' at hall
  cases hall with
  | ok he => exact meets_ok m.heap hs he
  | error cause => exact .error trivial hs (.failed (.same cause rfl))

theorem startModule (hs : m.Alike m') (id : ModuleId) :
    (m.startModule id).Alike (m'.startModule id) := by
  have hscope : (⟨m'.heap.scopes.size⟩ : ScopeRef) = ⟨m.heap.scopes.size⟩ := by
    rw [hs.heap.scopes.size]
  exact {
    heap := hs.heap.newScope Dict.like_empty none
    globals := hscope
    environment := hscope
    frames := rfl
    limits := hs.limits
    output := rfl
    exports := rfl
    moduleId := rfl
    loader := hs.loader
    cache := hs.cache
    loading := congrArg (· ++ [id]) hs.loading }

theorem resume {ended ended' : Machine} (hs : m.Alike m') (hended : ended.Alike ended')
    (id : ModuleId) : (m.resume ended id).Alike (m'.resume ended' id) := by
  exact {
    heap := hended.heap
    globals := hs.globals
    environment := hs.environment
    frames := hs.frames
    limits := hs.limits
    output := by
      show m'.output ++ ended'.output = m.output ++ ended.output
      rw [hs.output, hended.output]
    exports := hs.exports
    moduleId := hs.moduleId
    loader := hended.loader
    cache := hended.cache
    loading := congrArg (List.filter (· != id)) hended.loading }

end Steps

/-- **Machines stay alike when programs run on them that agree.** -/
def accord : Accord where
  toKinship := kinship
  later_refl _ := trivial
  later_trans _ _ := trivial
  value_later _ hv := hv
  value_shape := Value.Alike.shape
  value_truthy := Value.Alike.isTruthy
  value_literal := Value.Alike.ofLiteral
  value_bool _ _ := .same _
  value_null _ := .same _
  failed _ := Halt.alike_failed _ _ _
  exhausted := .exhausted
  importer specifier _ _ he _ := he.importer specifier _ _
  environment := Machine.Alike.environment
  frames := Machine.Alike.frames
  limits := Machine.Alike.limits
  moduleId := Machine.Alike.moduleId
  loader := Machine.Alike.loader
  isLoading hs id := congrArg (List.contains · id) hs.loading
  cached hs id := hs.cache.get? id
  function hs f := ⟨(hs.heap.function f).routine, (hs.heap.function f).closure⟩
  method hs f := (hs.heap.method f).routine
  closure hs c := congrArg ClassObject.closure (hs.heap.classObject c)
  constructor? hs c := hs.heap.findConstructor? c
  scope_later _ _ := trivial
  scope_environment _ := trivial
  scope_function _ _ := trivial
  scope_home _ _ := trivial
  frame_later _ _ := trivial
  frame_none _ := trivial
  frame_callable _ := trivial
  callable_bound _ _ := trivial
  callable_new _ _ _ _ := trivial
  callable_super _ _ _ _ := trivial
  called hs _ := ⟨_, rfl, hs⟩
  lookup name hs _ := lookup hs name
  receiver hs _ := receiver hs
  superMember name hs _ := superMember hs name
  superTarget hs _ := superTarget hs
  getMember {m m' o o' key key' p q} hs ho hkey _ := by
    rw [Eval.getMember_eq, Eval.getMember_eq]
    exact meets_lift hs (getMember hs ho hkey)
  unary op hs hv _ := meets_lift hs (unary op hv)
  binary op hs hl hr _ := meets_lift hs (binary hs.heap op hl hr)
  refuseCall run run' hs hv hfunction hbound _ vs vs' :=
    refuseCall hs run run' hv hfunction hbound vs vs'
  newArray := by
    intro m m' vs vs' hs hvs
    refine .ok trivial { hs with heap := hs.heap.newArray (each_toArray hvs) } ?_
    show Value.Alike (.array ⟨m.heap.arrays.size⟩) (.array ⟨m'.heap.arrays.size⟩)
    rw [hs.heap.arrays.size]
    exact .same _
  newInstance := by
    intro m m' c hs _
    refine .ok trivial { hs with heap := hs.heap.newInstance c } ⟨?_, .same _, ?_⟩
    · show (⟨m'.heap.instances.size⟩ : InstanceRef) = ⟨m.heap.instances.size⟩
      rw [hs.heap.instances.size]
    · exact m.heap.classOf_newInstance c
  newScope := by
    intro m m' bs bs' parent hs _ hbs
    refine .ok trivial { hs with heap := hs.heap.newScope hbs (some parent) } ⟨?_, trivial⟩
    show (⟨m'.heap.scopes.size⟩ : ScopeRef) = ⟨m.heap.scopes.size⟩
    rw [hs.heap.scopes.size]
  newFunction := by
    intro m m' f f' closure hs _ hf
    refine .ok trivial { hs with heap := hs.heap.newFunction ⟨hf, rfl⟩ } ?_
    show Value.Alike (.function ⟨m.heap.functions.size⟩) (.function ⟨m'.heap.functions.size⟩)
    rw [hs.heap.functions.size]
    exact .same _
  newClass := by
    intro m m' ms ms' name superclass closure hs _ _ hms
    obtain ⟨href, hheap⟩ := hs.heap.declareClass hms name superclass closure
    refine .ok trivial { hs with heap := hheap } ?_
    show Value.Alike (.ofClass (m.heap.declareClass name superclass ms closure).1)
      (.ofClass (m'.heap.declareClass name superclass ms' closure).1)
    rw [href]
    exact .same _
  declare := by
    intro m m' v v' p q name constant hs hv _
    rw [Eval.declare_eq, Eval.declare_eq, hs.environment]
    exact meets_update hs (hs.heap.defineTarget m.environment name)
      fun d => hs.heap.setBinding d name ⟨hv, rfl⟩
  assign := by
    intro m m' v v' p q name hs hv _
    rw [Eval.assign_eq, Eval.assign_eq, hs.environment]
    exact meets_update hs (hs.heap.assignTarget m.environment name)
      fun d => hs.heap.setBinding d name ⟨hv, rfl⟩
  setMember hs ho hkey hv _ := setMember hs ho hkey hv
  print := by
    intro m m' v v' hs hv
    refine .ok trivial { hs with output := ?_ } trivial
    rw [hs.output, hs.heap.text hv]
  noteExports names hs :=
    .ok trivial { hs with exports := congrArg (· ++ names.toArray) hs.exports } trivial
  collectExports := collectExports
  setEnvironment s hs _ := { hs with environment := rfl }
  enterCall {_ _ f} hs _ _ := { hs with frames := congrArg (f :: ·) hs.frames }
  leaveCall hs := { hs with frames := congrArg List.tail hs.frames }
  later_start _ _ := trivial
  enterModule id hs := startModule hs id
  leaveModule id hs _ hended := resume hs hended id
  store id hs he := { hs with cache := hs.cache.insert id he }
  evaluated h := h
  executed h := h
  ran h := h

end Alike

end Lipi
