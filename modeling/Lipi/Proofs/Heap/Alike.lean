import Lipi.Heap.Text
import Lipi.Proofs.Heap.Classes
import Lipi.Proofs.Machine.Accord
import Lipi.Proofs.Number.SignedZero

set_option autoImplicit false

/-! # Heaps of two programs that agree

Two values are alike if they are equal, or both are zeros. Two heaps are alike if they hold alike
values in the same places, and routines whose bodies differ at most in positions and in the signs of
zeros. **What can be seen of a value is the same in heaps that are alike**: its text, its type, its
truth, whether it equals another, and what its names stand for.
-/

namespace Lipi

/-! ## Arrays of objects -/

theorem option_rel_none {β : Type} {r : β → β → Prop} {o : Option β} (h : Option.Rel r none o) :
    o = none := by
  cases h
  rfl

theorem option_rel_some {β : Type} {r : β → β → Prop} {b : β} {o : Option β}
    (h : Option.Rel r (some b) o) : ∃ b', o = some b' ∧ r b b' := by
  cases h with
  | some hb => exact ⟨_, rfl, hb⟩

/-- Two arrays have the same length and related elements. -/
def Each {β : Type} (r : β → β → Prop) (a a' : Array β) : Prop :=
  ∀ i : Nat, Option.Rel r a[i]? a'[i]?

section Arrays

variable {β : Type} {r : β → β → Prop} {a a' : Array β}

theorem each_empty : Each r #[] #[] := by
  intro i
  simp only [Array.getElem?_empty]
  exact .none

theorem Each.refl (hr : ∀ b, r b b) (a : Array β) : Each r a a := by
  intro i
  cases a[i]? with
  | none => exact .none
  | some b => exact .some (hr b)

theorem Each.size (h : Each r a a') : a'.size = a.size := by
  have hlast := h a.size
  have hlast' := h a'.size
  rw [Array.getElem?_eq_none (Nat.le_refl _)] at hlast hlast'
  by_contra hne
  rcases Nat.lt_or_gt_of_ne hne with hlt | hlt
  · rw [Array.getElem?_eq_getElem hlt] at hlast'
    cases hlast'
  · rw [Array.getElem?_eq_getElem hlt] at hlast
    cases hlast

theorem Each.push (h : Each r a a') {b b' : β} (hb : r b b') : Each r (a.push b) (a'.push b') := by
  intro i
  rw [Array.getElem?_push, Array.getElem?_push, h.size]
  split
  · exact .some hb
  · exact h i

theorem Each.modify (h : Each r a a') (i : Nat) {f f' : β → β}
    (hf : ∀ b b', r b b' → r (f b) (f' b')) : Each r (a.modify i f) (a'.modify i f') := by
  intro j
  rw [Array.getElem?_modify, Array.getElem?_modify]
  split
  · have hj := h j
    generalize a[j]? = o at hj
    generalize a'[j]? = o' at hj
    cases hj with
    | none => exact .none
    | some hb => exact .some (hf _ _ hb)
  · exact h j

theorem Each.setIfInBounds (h : Each r a a') (i : Nat) {b b' : β} (hb : r b b') :
    Each r (a.setIfInBounds i b) (a'.setIfInBounds i b') := by
  intro j
  rw [Array.getElem?_setIfInBounds, Array.getElem?_setIfInBounds, h.size]
  split
  · split
    · exact .some hb
    · exact .none
  · exact h j

theorem Each.append_replicate (h : Each r a a') (n : Nat) {b : β} (hb : r b b) :
    Each r (a ++ Array.replicate n b) (a' ++ Array.replicate n b) := by
  intro j
  rw [Array.getElem?_append, Array.getElem?_append, h.size]
  split
  · exact h j
  · rw [Array.getElem?_replicate]
    split
    · exact .some hb
    · exact .none

theorem Each.getD (h : Each r a a') (i : Nat) {d d' : β} (hd : r d d') :
    r (a[i]?.getD d) (a'[i]?.getD d') := by
  have hi := h i
  generalize a[i]? = o at hi
  generalize a'[i]? = o' at hi
  cases hi with
  | none => exact hd
  | some hb => exact hb

theorem Each.toList (h : Each r a a') : List.Forall₂ r a.toList a'.toList := by
  refine List.forall₂_iff_get.mpr ⟨h.size.symm, fun i hi hi' => ?_⟩
  have hget := h i
  rw [Array.getElem?_eq_getElem (by simpa using hi), Array.getElem?_eq_getElem (by simpa using hi')]
    at hget
  cases hget with
  | some hb => exact hb

theorem each_toArray {l l' : List β} (h : List.Forall₂ r l l') : Each r l.toArray l'.toArray := by
  intro i
  rw [List.getElem?_toArray, List.getElem?_toArray]
  induction h generalizing i with
  | nil => exact .none
  | cons hb _ ih =>
      cases i with
      | zero => exact .some hb
      | succ i => exact ih i

end Arrays

/-! ## Values -/

/-- Two values are equal, or both are zeros. -/
inductive Value.Alike : Value → Value → Prop where
  | same (v : Value) : Value.Alike v v
  | zeros {x y : Float} : Number.IsZero x → Number.IsZero y → Value.Alike (.number x) (.number y)

namespace Value

theorem alike_number {x y : Float} (h : Number.Same x y) : Alike (.number x) (.number y) := by
  rcases h with rfl | ⟨hx, hy⟩
  · exact .same _
  · exact .zeros hx hy

namespace Alike

variable {v v' w w' : Value}

/-- A value that is no number is alike to itself only. -/
theorem shape (h : Alike v v') : v' = v ∨ ∃ x y, v = .number x ∧ v' = .number y := by
  cases h with
  | same v => exact .inl rfl
  | zeros _ _ => exact .inr ⟨_, _, rfl, rfl⟩

theorem isTruthy (h : Alike v v') : v'.isTruthy = v.isTruthy := by
  cases h with
  | same v => rfl
  | zeros hx hy => rcases hx with rfl | rfl <;> rcases hy with rfl | rfl <;> rfl

theorem index? (h : Alike v v') : v'.index? = v.index? := by
  cases h with
  | same v => rfl
  | zeros hx hy => exact Number.Same.toIndex? (.inr ⟨hx, hy⟩)

theorem equals (hv : Alike v v') (hw : Alike w w') : v'.equals w' = v.equals w := by
  cases hv with
  | same v =>
      cases hw with
      | same w => rfl
      | zeros hx hy =>
          cases v with
          | number x => exact Number.Same.beq (.refl x) (.inr ⟨hx, hy⟩)
          | _ => rfl
  | zeros hx hy =>
      cases hw with
      | same w =>
          cases w with
          | number y => exact Number.Same.beq (.inr ⟨hx, hy⟩) (.refl y)
          | _ => rfl
      | zeros hx' hy' => exact Number.Same.beq (.inr ⟨hx, hy⟩) (.inr ⟨hx', hy'⟩)

theorem ofLiteral {l l' : Literal} (h : Likeness.agreement.literal l l') :
    Alike (.ofLiteral l) (.ofLiteral l') := by
  rcases h with rfl | h
  · exact .same _
  · cases l <;> cases l' <;> first | exact absurd h Bool.false_ne_true | skip
    · exact alike_number (Number.same_of_beq h)
    · rw [eq_of_beq (α := String) h]
      exact .same _
    · rw [eq_of_beq (α := Bool) h]
      exact .same _
    · exact .same _

end Alike

end Value

/-! ## Objects -/

/-- Two scopes bind the same names, in the same scope. -/
structure Scope.Alike (s s' : Scope) : Prop where
  bindings : Dict.Like (Binding.Like Value.Alike) s.bindings s'.bindings
  parent : s'.parent = s.parent

/-- Two functions agree, and were declared in the same scope. -/
structure Function.Alike (f f' : Function) : Prop where
  routine : f.routine.Like .agreement f'.routine
  closure : f'.closure = f.closure

/-- Two methods agree, and are of the same sort. -/
structure MethodObject.Alike (f f' : MethodObject) : Prop where
  routine : f.routine.Like .agreement f'.routine
  access : f'.access = f.access
  isConstructor : f'.isConstructor = f.isConstructor

/-- Two instances of one class have the same fields. -/
structure InstanceObject.Alike (o o' : InstanceObject) : Prop where
  ofClass : o'.ofClass = o.ofClass
  fields : Dict.Like Value.Alike o.fields o'.fields

/-- Two heaps hold objects that are alike, in the same places. -/
structure Heap.Alike (h h' : Heap) : Prop where
  scopes : Each Scope.Alike h.scopes h'.scopes
  arrays : Each (Each Value.Alike) h.arrays h'.arrays
  functions : Each Function.Alike h.functions h'.functions
  methods : Each MethodObject.Alike h.methods h'.methods
  classes : h'.classes = h.classes
  instances : Each InstanceObject.Alike h.instances h'.instances

theorem Routine.like_refl (k : Likeness) (f : Routine) : f.Like k f :=
  ⟨rfl, rfl, Statement.likeAll_refl k f.body⟩

theorem MethodObject.alike_of_like {m m' : Method} (h : Method.Like .agreement m m') :
    m.object.Alike m'.object := by
  obtain ⟨hbody⟩ := h
  exact ⟨⟨rfl, rfl, hbody⟩, rfl, rfl⟩

namespace Heap

/-- Every heap is alike to itself. -/
theorem alike_refl (h : Heap) : Alike h h where
  scopes := Each.refl (fun _ => ⟨Dict.like_refl (fun _ => ⟨.same _, rfl⟩) _, rfl⟩) _
  arrays := Each.refl (Each.refl .same) _
  functions := Each.refl (fun _ => ⟨Routine.like_refl _ _, rfl⟩) _
  methods := Each.refl (fun _ => ⟨Routine.like_refl _ _, rfl, rfl⟩) _
  classes := rfl
  instances := Each.refl (fun _ => ⟨rfl, Dict.like_refl .same _⟩) _

namespace Alike

variable {h h' : Heap} (a : h.Alike h')
include a

/-! ## Reading -/

theorem function (f : FunctionRef) : Function.Alike (h.function f) (h'.function f) :=
  a.functions.getD f.index ⟨Routine.like_refl _ _, rfl⟩

theorem method (f : MethodRef) : MethodObject.Alike (h.method f) (h'.method f) :=
  a.methods.getD f.index ⟨Routine.like_refl _ _, rfl, rfl⟩

theorem instanceObject (o : InstanceRef) :
    InstanceObject.Alike (h.instanceObject o) (h'.instanceObject o) :=
  a.instances.getD o.index ⟨rfl, Dict.like_empty⟩

theorem elements (e : ArrayRef) : Each Value.Alike (h.elements e) (h'.elements e) :=
  a.arrays.getD e.index each_empty

theorem classObject (c : ClassRef) : h'.classObject c = h.classObject c := by
  unfold Heap.classObject
  rw [a.classes]

theorem classOf (o : InstanceRef) : h'.classOf o = h.classOf o :=
  (a.instanceObject o).ofClass

theorem findMethod? (c : ClassRef) (table : MethodTable) (name : String) :
    h'.findMethod? c table name = h.findMethod? c table name :=
  findMethod?_congr a.classes c table name

theorem isSubclass (c ancestor : ClassRef) : h'.isSubclass c ancestor = h.isSubclass c ancestor :=
  isSubclass_congr a.classes c ancestor

theorem findConstructor? (c : ClassRef) : h'.findConstructor? c = h.findConstructor? c := by
  unfold Heap.findConstructor?
  rw [a.findMethod?]
  congr 1
  funext found
  exact (a.method found.2).isConstructor

/-! ### Scopes -/

theorem scope? (s : ScopeRef) : Option.Rel Scope.Alike (h.scope? s) (h'.scope? s) :=
  a.scopes s.index

theorem bindingAt? (s : ScopeRef) (name : String) :
    Option.Rel (Binding.Like Value.Alike) (h.bindingAt? s name) (h'.bindingAt? s name) := by
  have hscope := a.scope? s
  unfold Heap.bindingAt?
  generalize h.scope? s = o at hscope
  generalize h'.scope? s = o' at hscope
  cases hscope with
  | none => exact .none
  | some hs => exact hs.bindings.get? name

theorem binder? (s : ScopeRef) (name : String) : h'.binder? s name = h.binder? s name := by
  fun_induction h.binder? s name with
  | case1 s hnone =>
      have hscope := a.scope? s
      rw [hnone] at hscope
      rw [Heap.binder?, option_rel_none hscope]
  | case2 s scope hsome hcontains =>
      have hscope := a.scope? s
      rw [hsome] at hscope
      obtain ⟨scope', hscope', hs⟩ := option_rel_some hscope
      rw [Heap.binder?, hscope']
      simp only [hs.bindings.contains, hcontains, if_true]
  | case3 s scope hsome hcontains hparent =>
      have hscope := a.scope? s
      rw [hsome] at hscope
      obtain ⟨scope', hscope', hs⟩ := option_rel_some hscope
      rw [Heap.binder?, hscope']
      simp only [hs.bindings.contains, hs.parent, hcontains, hparent]
      rfl
  | case4 s scope hsome hcontains parent hparent hlt ih =>
      have hscope := a.scope? s
      rw [hsome] at hscope
      obtain ⟨scope', hscope', hs⟩ := option_rel_some hscope
      rw [Heap.binder?, hscope']
      simp only [hs.bindings.contains, hs.parent, hcontains, hparent, if_pos hlt, ih]
      rfl
  | case5 s scope hsome hcontains parent hparent hlt =>
      have hscope := a.scope? s
      rw [hsome] at hscope
      obtain ⟨scope', hscope', hs⟩ := option_rel_some hscope
      rw [Heap.binder?, hscope']
      simp only [hs.bindings.contains, hs.parent, hcontains, hparent, if_neg hlt]
      rfl

theorem isConstantAt (s : ScopeRef) (name : String) :
    h'.isConstantAt s name = h.isConstantAt s name := by
  have hbinding := a.bindingAt? s name
  unfold Heap.isConstantAt
  generalize h.bindingAt? s name = o at hbinding
  generalize h'.bindingAt? s name = o' at hbinding
  cases hbinding with
  | none => rfl
  | some hb => exact hb.constant

theorem defineTarget (s : ScopeRef) (name : String) :
    h'.defineTarget s name = h.defineTarget s name := by
  unfold Heap.defineTarget
  rw [a.isConstantAt]

theorem assignTarget (s : ScopeRef) (name : String) :
    h'.assignTarget s name = h.assignTarget s name := by
  unfold Heap.assignTarget
  rw [a.binder?]
  cases h.binder? s name with
  | none => rfl
  | some d =>
      dsimp only
      rw [a.isConstantAt]

theorem lookup? (s : ScopeRef) (name : String) :
    Option.Rel Value.Alike (h.lookup? s name) (h'.lookup? s name) := by
  unfold Heap.lookup? Heap.binding?
  rw [a.binder?]
  cases h.binder? s name with
  | none => exact .none
  | some d =>
      have hbinding := a.bindingAt? d name
      show Option.Rel _ ((h.bindingAt? d name).map (·.value)) ((h'.bindingAt? d name).map (·.value))
      generalize h.bindingAt? d name = o at hbinding
      generalize h'.bindingAt? d name = o' at hbinding
      cases hbinding with
      | none => exact .none
      | some hb => exact .some hb.value

/-! ### Texts -/

theorem simpleText {v v' : Value} (hv : v.Alike v') : h'.simpleText v' = h.simpleText v := by
  cases hv with
  | zeros hx hy => exact Number.Same.text (.inr ⟨hx, hy⟩)
  | same v =>
      cases v with
      | function f =>
          show "<function " ++ (h'.function f).routine.name ++ ">" = _
          rw [(a.function f).routine.name]
          rfl
      | bound receiver f home =>
          show "<function " ++ (h'.method f).routine.name ++ ">" = _
          rw [(a.method f).routine.name]
          rfl
      | ofClass c =>
          show "<class " ++ (h'.classObject c).name ++ ">" = _
          rw [a.classObject]
          rfl
      | object o =>
          show "<" ++ (h'.classObject (h'.classOf o)).name ++ " instance>" = _
          rw [a.classOf, a.classObject]
          rfl
      | bool b => cases b <;> rfl
      | _ => rfl

theorem elementText (n : Nat) (opened : List ArrayRef) {v v' : Value} (hv : v.Alike v') :
    h'.elementText n opened v' = h.elementText n opened v := by
  induction n generalizing opened v v' with
  | zero =>
      cases hv with
      | zeros hx hy => exact a.simpleText (.zeros hx hy)
      | same v =>
          cases v with
          | string s => rfl
          | _ => exact a.simpleText (.same _)
  | succ n ih =>
      cases hv with
      | zeros hx hy => exact a.simpleText (.zeros hx hy)
      | same v =>
          cases v with
          | string s => rfl
          | array e =>
              have htexts : (h'.elements e).toList.map (h'.elementText n (e :: opened)) =
                  (h.elements e).toList.map (h.elementText n (e :: opened)) := by
                have hall := (a.elements e).toList
                generalize (h.elements e).toList = vs at hall
                generalize (h'.elements e).toList = vs' at hall
                induction hall with
                | nil => rfl
                | cons hhead _ htail => rw [List.map_cons, List.map_cons, ih _ hhead, htail]
              show (if e ∈ opened then "[...]" else _) = (if e ∈ opened then "[...]" else _)
              rw [htexts]
          | _ => exact a.simpleText (.same _)

/-- **Alike values have the same text.** -/
theorem text {v v' : Value} (hv : v.Alike v') : h'.text v' = h.text v := by
  have helement :
      h'.elementText (h'.arrays.size + 1) [] v' = h.elementText (h.arrays.size + 1) [] v := by
    rw [a.arrays.size]
    exact a.elementText (h.arrays.size + 1) [] hv
  cases hv with
  | zeros hx hy => exact helement
  | same v =>
      cases v with
      | string s => rfl
      | _ => exact helement

theorem elementMentions (o : InstanceRef) (n : Nat) (opened : List ArrayRef) {v v' : Value}
    (hv : v.Alike v') : h'.elementMentions o n opened v' = h.elementMentions o n opened v := by
  induction n generalizing opened v v' with
  | zero =>
      cases hv with
      | zeros hx hy => rfl
      | same v => cases v <;> rfl
  | succ n ih =>
      cases hv with
      | zeros hx hy => rfl
      | same v =>
          cases v with
          | array e =>
              have hany : (h'.elements e).toList.any (h'.elementMentions o n (e :: opened)) =
                  (h.elements e).toList.any (h.elementMentions o n (e :: opened)) := by
                have hall := (a.elements e).toList
                generalize (h.elements e).toList = vs at hall
                generalize (h'.elements e).toList = vs' at hall
                induction hall with
                | nil => rfl
                | cons hhead _ htail => rw [List.any_cons, List.any_cons, ih _ hhead, htail]
              show (if e ∈ opened then false else _) = (if e ∈ opened then false else _)
              rw [hany]
          | _ => rfl

theorem mentions (o : InstanceRef) {v v' : Value} (hv : v.Alike v') :
    h'.mentions o v' = h.mentions o v := by
  unfold Heap.mentions
  rw [a.arrays.size]
  exact a.elementMentions o _ [] hv

theorem keyText {key key' : Key} (hkey : Key.Like Value.Alike key key') :
    key'.text h' = key.text h := by
  cases hkey with
  | name name => rfl
  | computed hv => exact a.text hv

/-! ## Making and changing objects -/

theorem newScope {bs bs' : Dict Binding} (hbs : Dict.Like (Binding.Like Value.Alike) bs bs')
    (parent : Option ScopeRef) :
    (h.newScope ⟨bs, parent⟩).2.Alike (h'.newScope ⟨bs', parent⟩).2 :=
  { a with scopes := a.scopes.push ⟨hbs, rfl⟩ }

theorem newArray {vs vs' : Array Value} (hvs : Each Value.Alike vs vs') :
    (h.newArray vs).2.Alike (h'.newArray vs').2 :=
  { a with arrays := a.arrays.push hvs }

theorem newFunction {f f' : Function} (hf : f.Alike f') :
    (h.newFunction f).2.Alike (h'.newFunction f').2 :=
  { a with functions := a.functions.push hf }

theorem newMethod {f f' : MethodObject} (hf : f.Alike f') :
    (h.newMethod f).2.Alike (h'.newMethod f').2 :=
  { a with methods := a.methods.push hf }

theorem newInstance (c : ClassRef) : (h.newInstance c).2.Alike (h'.newInstance c).2 :=
  { a with instances := a.instances.push ⟨rfl, Dict.like_empty⟩ }

theorem newClass (c : ClassObject) : (h.newClass c).2.Alike (h'.newClass c).2 :=
  { a with classes := congrArg (·.push c) a.classes }

theorem setBinding (s : ScopeRef) (name : String) {b b' : Binding}
    (hb : Binding.Like Value.Alike b b') :
    (h.setBinding s name b).Alike (h'.setBinding s name b') :=
  { a with
    scopes := a.scopes.modify s.index fun _ _ hs => ⟨hs.bindings.insert name hb, hs.parent⟩ }

theorem setElement (e : ArrayRef) (i : Nat) {v v' : Value} (hv : v.Alike v') :
    (h.setElement e i v).Alike (h'.setElement e i v') := by
  refine { a with arrays := a.arrays.modify e.index fun vs vs' hvs => ?_ }
  rw [hvs.size]
  split
  · exact hvs.setIfInBounds i hv
  · exact (hvs.append_replicate _ (.same _)).push hv

theorem setField (o : InstanceRef) (name : String) {v v' : Value} (hv : v.Alike v') :
    (h.setField o name v).Alike (h'.setField o name v') :=
  { a with
    instances := a.instances.modify o.index fun _ _ ho => ⟨ho.ofClass, ho.fields.insert name hv⟩ }

omit a in
/-- The methods of two declarations that agree get the same references. -/
theorem newMethods {ms ms' : List Method} (hms : List.Forall₂ (Method.Like .agreement) ms ms')
    (a : h.Alike h') (table staticTable : Dict MethodRef) :
    (Heap.newMethods ms' table staticTable h').1 = (Heap.newMethods ms table staticTable h).1 ∧
    (Heap.newMethods ms' table staticTable h').2.1 = (Heap.newMethods ms table staticTable h).2.1 ∧
    Alike (Heap.newMethods ms table staticTable h).2.2
      (Heap.newMethods ms' table staticTable h').2.2 := by
  induction hms generalizing h h' table staticTable with
  | nil => exact ⟨rfl, rfl, a⟩
  | cons hm _ ih =>
      -- the reference of a new method is the number of methods before it
      have hnew := a.newMethod (MethodObject.alike_of_like hm)
      rw [newMethods_cons, newMethods_cons, a.methods.size, hm.isStatic, hm.name]
      split
      · exact ih hnew table _
      · exact ih hnew _ staticTable

theorem declareClass {ms ms' : List Method} (hms : List.Forall₂ (Method.Like .agreement) ms ms')
    (name : String) (superclass : Option ClassRef) (closure : ScopeRef) :
    (h'.declareClass name superclass ms' closure).1 = (h.declareClass name superclass ms closure).1 ∧
    Alike (h.declareClass name superclass ms closure).2
      (h'.declareClass name superclass ms' closure).2 := by
  obtain ⟨htable, hstatic, hheap⟩ := newMethods hms a .empty .empty
  unfold Heap.declareClass
  dsimp only
  rw [htable, hstatic]
  refine ⟨?_, hheap.newClass _⟩
  show (⟨_⟩ : ClassRef) = ⟨_⟩
  rw [hheap.classes]

end Alike

end Heap

end Lipi
