import Lipi.Proofs.Number.Index
import Lipi.Proofs.Session.Allowance
import Lipi.Proofs.Session.Inspecting

set_option autoImplicit false

/-! # Reading and writing arrays

The index of an element is a number whose value is a natural number; every other index reads
`undefined` and cannot be written. **A write is read back at its index, through every value that
is the same array, and everywhere else an array reads what it read before** (`Heap.Written.reads`).
An array that is written behind its end grows up to there, and no array ever becomes shorter
(`Session.arrays_read_over_write`).
-/

namespace Lipi

/-! ## Indices -/

/-- A value is a number, whose value is the natural number `i`. -/
def Value.Counts (x : Value) (i : Nat) : Prop :=
  ∃ y, x = .number y ∧ Number.value? y = some (i : ℚ)

namespace Value

variable {x w : Value} {a : ArrayRef} {i j : Nat}

theorem index?_iff : x.index? = some i ↔ x.Counts i ∧ i ≤ Number.maxIndex := by
  constructor
  · intro h
    cases x with
    | number y =>
        obtain ⟨hvalue, hi⟩ := Number.toIndex?_iff.mp h
        exact ⟨⟨y, rfl, hvalue⟩, hi⟩
    | _ => cases h
  · rintro ⟨⟨y, rfl, hvalue⟩, hi⟩
    exact Number.toIndex?_iff.mpr ⟨hvalue, hi⟩

theorem Counts.unique (hi : x.Counts i) (hj : x.Counts j) : i = j := by
  obtain ⟨y, rfl, hy⟩ := hi
  obtain ⟨y', hsame, hy'⟩ := hj
  cases hsame
  rw [hy, Option.some_inj] at hy'
  exact_mod_cast hy'

/-- The indices at which an array can be written. -/
theorem filter_index?_iff :
    x.index?.filter (· < maxArrayLength) = some i ↔ x.Counts i ∧ i < 2 ^ 24 := by
  rw [Option.filter_eq_some_iff, index?_iff, decide_eq_true_iff]
  have hlimit : maxArrayLength = 2 ^ 24 := rfl
  have hlarge : 2 ^ 24 ≤ Number.maxIndex := by decide
  rw [hlimit]
  constructor
  · rintro ⟨⟨hcount, _⟩, hlt⟩
    exact ⟨hcount, hlt⟩
  · rintro ⟨hcount, hlt⟩
    exact ⟨⟨hcount, by omega⟩, hlt⟩

/-- A value equals an array if it is this array. -/
theorem eq_of_equals_array (h : w.equals (.array a) = true) : w = .array a := by
  cases w with
  | array b => exact congrArg Value.array (eq_of_beq h)
  | _ => cases h

end Value

/-! ## What is read of an array -/

namespace Heap

/-- What an array reads under an index: an element, or `undefined` where it has none. -/
inductive Reads (h : Heap) (a : ArrayRef) (x : Value) : Value → Prop where
  | element {j : Nat} {v : Value} : x.Counts j → j ≤ Number.maxIndex →
      (h.elements a)[j]? = some v → Reads h a x v
  | missing : (∀ j, x.Counts j → j ≤ Number.maxIndex → (h.elements a).size ≤ j) →
      Reads h a x .undefined

/-- The value `v` has been written into an array at an index. -/
structure Written (h : Heap) (a : ArrayRef) (i : Nat) (v : Value) (h' : Heap) : Prop where
  /-- The array is as long as it was, or just long enough. -/
  size : (h'.elements a).size = max (h.elements a).size (i + 1)
  /-- It has the value at the index, the elements that it had, and `undefined` between them. -/
  here : (h'.elements a)[i]? = some v
  old : ∀ j, j < (h.elements a).size → j ≠ i → (h'.elements a)[j]? = (h.elements a)[j]?
  gap : ∀ j, (h.elements a).size ≤ j → j < i → (h'.elements a)[j]? = some .undefined
  /-- The value is read under this index, and under every other one what was read before. -/
  reads : ∀ x w, h'.Reads a x w ↔ (x.Counts i ∧ w = v) ∨ (¬ x.Counts i ∧ h.Reads a x w)
  /-- No other object has changed. -/
  others : ∀ r, r ≠ .array a → h.SameAt h' r

section Reading

variable {h : Heap} {a : ArrayRef} {x v w : Value} {i : Nat}

/-- An array is read as a step of the machine does. -/
theorem reads_iff :
    h.Reads a x w ↔ w = (x.index?.bind fun j => (h.elements a)[j]?).getD .undefined := by
  constructor
  · intro hreads
    cases hreads with
    | element hcount hj hget =>
        rw [Value.index?_iff.mpr ⟨hcount, hj⟩, Option.bind_some, hget]
        rfl
    | missing hout =>
        cases hindex : x.index? with
        | none => rfl
        | some j =>
            obtain ⟨hcount, hj⟩ := Value.index?_iff.mp hindex
            rw [Option.bind_some, Array.getElem?_eq_none (hout j hcount hj)]
            rfl
  · rintro rfl
    cases hindex : x.index? with
    | none =>
        refine .missing fun j hcount hj => ?_
        rw [Value.index?_iff.mpr ⟨hcount, hj⟩] at hindex
        cases hindex
    | some j =>
        obtain ⟨hcount, hj⟩ := Value.index?_iff.mp hindex
        rw [Option.bind_some]
        cases hget : (h.elements a)[j]? with
        | none =>
            refine .missing fun j' hcount' _ => ?_
            -- a number counts only one index
            rw [hcount'.unique hcount]
            exact Array.getElem?_eq_none_iff.mp hget
        | some u => exact .element hcount hj hget

/-- At an index that is not written, an array reads what it read before. -/
theorem reads_setElement_other (ha : a.index < h.arrays.size) (hx : ¬ x.Counts i) :
    (h.setElement a i v).Reads a x w ↔ h.Reads a x w := by
  rw [reads_iff, reads_iff]
  cases hindex : x.index? with
  | none => rfl
  | some j =>
      have hj : j ≠ i := by
        rintro rfl
        exact hx (Value.index?_iff.mp hindex).1
      rw [Option.bind_some, Option.bind_some, getElem?_setElement ha, if_neg hj]
      by_cases hold : j < (h.elements a).size
      · rw [if_pos hold]
      · -- whether it lies in the gap or beyond the new end, `undefined` is read
        rw [if_neg hold, Array.getElem?_eq_none (Nat.not_lt.mp hold)]
        by_cases hgap : j < i
        · rw [if_pos hgap]
          rfl
        · rw [if_neg hgap]

/-- **What a write does.** -/
theorem written_setElement (ha : a.index < h.arrays.size) (hi : i ≤ Number.maxIndex) :
    h.Written a i v (h.setElement a i v) where
  size := size_setElement ha
  here := by rw [getElem?_setElement ha, if_pos rfl]
  old j hj hne := by rw [getElem?_setElement ha, if_neg hne, if_pos hj]
  gap j hj hlt := by
    rw [getElem?_setElement ha, if_neg (Nat.ne_of_lt hlt), if_neg (Nat.not_lt.mpr hj), if_pos hlt]
  reads x w := by
    by_cases hx : x.Counts i
    · have hvalue : (h.setElement a i v).Reads a x w ↔ w = v := by
        rw [reads_iff, Value.index?_iff.mpr ⟨hx, hi⟩, Option.bind_some, getElem?_setElement ha,
          if_pos rfl]
        rfl
      rw [hvalue]
      exact ⟨fun hw => .inl ⟨hx, hw⟩, fun hor => hor.elim And.right fun hout => absurd hx hout.1⟩
    · rw [reads_setElement_other ha hx]
      exact ⟨fun hw => .inr ⟨hx, hw⟩, fun hor => hor.elim (fun hin => absurd hin.1 hx) And.right⟩
  others _ hr := sameAt_setElement h a i v hr

end Reading

end Heap

/-! ## The laws of arrays -/

namespace Machine

/-- What reading an array gives at a machine, whatever expressions give array and index. -/
structure ReadsArrays (m : Machine) : Prop where
  element : ∀ (run : Runner) (object key : Expr) (p : Position) (before between : Machine)
    (w x : Value) (a : ArrayRef), run.evaluate object before = .ok w between →
    run.evaluate key between = .ok x m → w.equals (.array a) = true →
    ∃ v, run.expression (.index object key p) before = .ok v m ∧ m.heap.Reads a x v
  /-- The length is the number of elements, as far as numbers go. -/
  length : ∀ (run : Runner) (object : Expr) (p : Position) (before : Machine) (w : Value)
    (a : ArrayRef), (∀ q, object ≠ .super q) → run.evaluate object before = .ok w m →
    w.equals (.array a) = true →
    ∃ y, run.expression (.member object "length" p) before = .ok (.number y) m ∧
      y = Number.ofNat (m.heap.elements a).size ∧
      ((m.heap.elements a).size ≤ Number.maxIndex →
        Number.value? y = some ((m.heap.elements a).size : ℚ))

/-- What writing into an array does at a machine, whatever expressions give array, index and
value. -/
structure WritesArrays (m : Machine) : Prop where
  /-- Under a natural number below the limit the value is written. -/
  written : ∀ (run : Runner) (object key value : Expr) (q p : Position)
    (before between between' : Machine) (w x v : Value) (a : ArrayRef) (i : Nat),
    run.evaluate object before = .ok w between → run.evaluate key between = .ok x between' →
    run.evaluate value between' = .ok v m → w.equals (.array a) = true →
    a.index < m.heap.arrays.size → x.Counts i → i < 2 ^ 24 →
    ∃ heap, m.heap.Written a i v heap ∧
      run.expression (.assign (.index object key q) value p) before = .ok v { m with heap }
  /-- Every other index is refused, and nothing is changed. -/
  refused : ∀ (run : Runner) (object key value : Expr) (q p : Position)
    (before between between' : Machine) (w x v : Value) (a : ArrayRef),
    run.evaluate object before = .ok w between → run.evaluate key between = .ok x between' →
    run.evaluate value between' = .ok v m → w.equals (.array a) = true →
    (∀ i, x.Counts i → 2 ^ 24 ≤ i) →
    run.expression (.assign (.index object key q) value p) before =
      .error (.failed ⟨.invalidIndex (m.heap.text x), some p⟩) m

/-- **Arrays are read as the law says.** -/
theorem readsArrays (m : Machine) : m.ReadsArrays where
  element run object key p before between w x a hobject hkey hw := by
    obtain rfl := Value.eq_of_equals_array hw
    refine ⟨_, ?_, Heap.reads_iff.mpr rfl⟩
    calc run.expression (.index object key p) before
        = (run.evaluate key >>= fun x => Eval.getMember (.array a) (.computed x) p) between :=
          Eval.bind_ok _ hobject
      _ = Eval.getMember (.array a) (.computed x) p m := Eval.bind_ok _ hkey
      _ = .ok ((x.index?.bind fun j => (m.heap.elements a)[j]?).getD .undefined) m := rfl
  length run object p before w a hobject heval hw := by
    obtain rfl := Value.eq_of_equals_array hw
    refine ⟨_, ?_, rfl, Number.value?_ofNat⟩
    calc run.expression (.member object "length" p) before
        = (run.evaluate object >>= fun o => Eval.getMember o (.name "length") p) before := by
          cases object with
          | super q => exact absurd rfl (hobject q)
          | _ => rfl
      _ = Eval.getMember (.array a) (.name "length") p m := Eval.bind_ok _ heval
      _ = .ok (.number (Number.ofNat (m.heap.elements a).size)) m := rfl

/-- An assignment to an element, once its operands have been evaluated. -/
theorem assign_element {run : Runner} {object key value : Expr} {q p : Position}
    {m before between between' : Machine} {x v : Value} {a : ArrayRef}
    (hobject : run.evaluate object before = .ok (.array a) between)
    (hkey : run.evaluate key between = .ok x between')
    (hvalue : run.evaluate value between' = .ok v m) :
    run.expression (.assign (.index object key q) value p) before =
      (Eval.update p (memberPlace · (.array a) (.computed x)) (MemberPlace.write v) >>= fun _ =>
        pure v) m :=
  calc run.expression (.assign (.index object key q) value p) before
      = _ := Eval.bind_ok _ hobject
    _ = _ := Eval.bind_ok _ hkey
    _ = _ := Eval.bind_ok _ hvalue

/-- **Arrays are written as the law says.** -/
theorem writesArrays (m : Machine) : m.WritesArrays where
  written run object key value q p before between between' w x v a i hobject hkey hvalue hw ha hx
      hi := by
    obtain rfl := Value.eq_of_equals_array hw
    -- numbers that index an array are far below those where doubles leave gaps
    have hlarge : 2 ^ 24 ≤ Number.maxIndex := by decide
    have hplace : memberPlace m.heap (.array a) (.computed x) = .ok (.element a i) := by
      rw [memberPlace_element, Value.filter_index?_iff.mpr ⟨hx, hi⟩]
    have hupdate : Eval.update p (memberPlace · (.array a) (.computed x)) (MemberPlace.write v) m =
        .ok () { m with heap := m.heap.setElement a i v } := by
      unfold Eval.update
      dsimp only
      rw [hplace]
      rfl
    refine ⟨_, Heap.written_setElement ha (by omega), ?_⟩
    rw [assign_element hobject hkey hvalue]
    exact Eval.bind_ok _ hupdate
  refused run object key value q p before between between' w x v a hobject hkey hvalue hw hx := by
    obtain rfl := Value.eq_of_equals_array hw
    have hnone : x.index?.filter (· < maxArrayLength) = none := by
      rw [Option.eq_none_iff_forall_ne_some]
      intro i hsome
      obtain ⟨hcount, hlt⟩ := Value.filter_index?_iff.mp hsome
      exact absurd (hx i hcount) (Nat.not_le.mpr hlt)
    have hplace : memberPlace m.heap (.array a) (.computed x) =
        .error (.invalidIndex (m.heap.text x)) := by
      rw [memberPlace_element, hnone]
    have hupdate : Eval.update p (memberPlace · (.array a) (.computed x)) (MemberPlace.write v) m =
        .error (.failed ⟨.invalidIndex (m.heap.text x), some p⟩) m := by
      unfold Eval.update
      dsimp only
      rw [hplace]
    rw [assign_element hobject hkey hvalue]
    exact Eval.bind_error _ hupdate

end Machine

/-! ## No array becomes shorter -/

open scoped Classical in
/-- Inspects that an array that once has had at least `n` elements has so still. -/
noncomputable def Inspection.arrayLength (a : ArrayRef) (n : Nat) : Inspection where
  note m _ :=
    if a.index < m.heap.arrays.size ∧ n ≤ (m.heap.elements a).size then some "long" else none
  asks journal m _ := "long" ∈ journal →
    a.index < m.heap.arrays.size ∧ n ≤ (m.heap.elements a).size

theorem Inspection.sound_arrayLength {limits : Limits} (a : ArrayRef) (n : Nat) :
    (arrayLength a n).Sound limits := by
  intro past m sight _ _ _ _ hpast hnoted
  obtain ⟨⟨earlier, seen⟩, hmem, hnote⟩ := List.mem_filterMap.mp hnoted
  by_cases hlong : a.index < earlier.heap.arrays.size ∧ n ≤ (earlier.heap.elements a).size
  · obtain ⟨hvalid, hsize⟩ := (hpast _ hmem).grows.arrays a hlong.1
    exact ⟨hvalid, Nat.le_trans hlong.2 hsize⟩
  · rw [show (arrayLength a n).note earlier seen = none from if_neg hlong] at hnote
    cases hnote

namespace Session

/-- **Arrays obey the read-over-write law, and never become shorter**: at every machine a write
under a natural number below `2 ^ 24` is read back there, through every value that is this array,
and every other write is refused; throughout all runs, an array that has had `n` elements has at
least as many. -/
theorem arrays_read_over_write (session : Session) (programs : List Program) :
    (∀ m : Machine, m.ReadsArrays ∧ m.WritesArrays) ∧
    ∀ a n, session.Throughout programs (.arrayLength a n) :=
  ⟨fun m => ⟨m.readsArrays, m.writesArrays⟩,
    fun a n => session.throughout_of_sound programs (Inspection.sound_arrayLength a n)⟩

/-- An array with one element is written at the index 3. -/
theorem arrays_read_over_write_gap :
    let session : Session := ⟨.standard, MemoryModules.empty.loader, none⟩
    let m := { session.machine with heap := (session.machine.heap.newArray #[.null]).2 }
    ∃ heap, m.heap.Written ⟨0⟩ 3 .null heap ∧ (Runner.within 2).expression
      (.assign (.index (.array [.literal .null .start] .start)
        (.literal (.number 3.0) .start) .start) (.literal .null .start) .start) session.machine =
          .ok .null { m with heap } := by
  intro session m
  have hthree : (Value.number 3.0).Counts 3 := ⟨3.0, rfl, (Number.toIndex?_iff.mp (by decide)).1⟩
  exact ((arrays_read_over_write session []).1 m).2.written (Runner.within 2)
    (.array [.literal .null .start] .start) (.literal (.number 3.0) .start) (.literal .null .start)
    .start .start session.machine m m (.array ⟨0⟩) (.number 3.0) .null ⟨0⟩ 3 rfl rfl rfl rfl
    (by decide) hthree (by decide)

/-- An array that is written behind its end, seen under another name. -/
example : ((⟨.standard, MemoryModules.empty.loader, none⟩ : Session).run
    "rakho a = [1]\nrakho b = a\na[3] = a.length\nchaap b\nchaap b.length").lines =
      ["[1, undefined, undefined, 1]", "4"] := by
  decide +kernel

end Session

end Lipi
