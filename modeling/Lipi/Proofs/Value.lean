import Lipi.Proofs.Number.SignedZero
import Mathlib.Order.Defs.Unbundled

set_option autoImplicit false

/-! # Equality of values

Two values are equal in one of three ways (`Value.Equal`): they are numbers that compare as equal,
they are the same method with the same receiver, or they are one value that is no number. **Equality
is a partial equivalence, and the only values that are not equal to themselves are numbers that are
undefined** (`Value.equals_self_iff`). What the third way leaves out is the home of a method, which
equality does not look at.
-/

namespace Lipi

/-! ## Numbers -/

namespace Number

variable {x y z : Float}

theorem Same.symm (h : Same x y) : Same y x := by
  rcases h with rfl | ⟨hx, hy⟩
  · exact .refl _
  · exact .inr ⟨hy, hx⟩

theorem beq_symm (h : (x == y) = true) : (y == x) = true :=
  ((same_of_beq h).beq (same_of_beq h).symm).trans h

theorem beq_trans (hxy : (x == y) = true) (hyz : (y == z) = true) : (x == z) = true :=
  ((same_of_beq hxy).symm.beq (.refl z)).trans hyz

/-- A double that is a number is equal to itself. -/
theorem beq_self_iff : (x == x) = true ↔ x.isNaN = false := by
  have hbeq : (x == x) = (x.toModel.unpack.compare x.toModel.unpack == some .eq) := rfl
  have hnan : x.isNaN = x.toModel.unpack.isNaN := rfl
  rw [hbeq, hnan]
  cases x.toModel.unpack with
  | notANumber => exact iff_of_false Bool.false_ne_true nofun
  | infinity s =>
      refine iff_of_true ?_ rfl
      cases s <;> rfl
  | zero s => exact iff_of_true rfl rfl
  | finite s m e hm =>
      refine iff_of_true ?_ rfl
      have hsame : (compare e e).then (compare m m) = .eq := by
        rw [Ordering.then_eq_eq, compare_eq_iff_eq, compare_eq_iff_eq]
        exact ⟨rfl, rfl⟩
      cases s with
      | positive =>
          show (some ((compare e e).then (compare m m)) == some .eq) = true
          rw [hsame]
          rfl
      | negative =>
          show (some ((compare e e).then (compare m m)).swap == some .eq) = true
          rw [hsame]
          rfl

end Number

/-! ## Values -/

namespace Value

/-- A value is a number that is undefined. -/
def IsNaN (v : Value) : Prop := ∃ x, v = .number x ∧ x.isNaN = true

/-- How two values can be equal. -/
inductive Equal : Value → Value → Prop where
  | number {x y : Float} : (x == y) = true → Equal (.number x) (.number y)
  | bound (receiver : Option InstanceRef) (f : MethodRef) (home home' : ClassRef) :
    Equal (.bound receiver f home) (.bound receiver f home')
  | same {v : Value} : (∀ x, v ≠ .number x) → Equal v v

theorem equals_self {v : Value} (hv : ∀ x, v ≠ .number x) : v.equals v = true := by
  cases v with
  | number x => exact absurd rfl (hv x)
  | bound receiver f home =>
      show (f == f && receiver == receiver) = true
      rw [beq_self_eq_true, beq_self_eq_true]
      rfl
  | _ => first | rfl | exact beq_self_eq_true _

theorem equals_iff {v w : Value} : v.equals w = true ↔ v.Equal w := by
  constructor
  · intro h
    have hsame {u : Value} (hu : ∀ x, u ≠ .number x) (huv : u = w) : u.Equal w := huv ▸ .same hu
    cases v with
    | number x =>
        cases w with
        | number y => exact .number h
        | _ => cases h
    | bound receiver f home =>
        cases w with
        | bound receiver' f' home' =>
            -- the classes in which the methods were found are not compared
            obtain ⟨hf, hreceiver⟩ := Bool.and_eq_true_iff.mp h
            rw [eq_of_beq hf, eq_of_beq hreceiver]
            exact .bound receiver' f' home home'
        | _ => cases h
    | null =>
        cases w with
        | null => exact .same fun _ => Value.noConfusion
        | _ => cases h
    | undefined =>
        cases w with
        | undefined => exact .same fun _ => Value.noConfusion
        | _ => cases h
    | string s =>
        cases w with
        | string t => exact hsame (fun _ => Value.noConfusion) (congrArg string (eq_of_beq h))
        | _ => cases h
    | bool b =>
        cases w with
        | bool c => exact hsame (fun _ => Value.noConfusion) (congrArg bool (eq_of_beq h))
        | _ => cases h
    | array a =>
        cases w with
        | array b => exact hsame (fun _ => Value.noConfusion) (congrArg array (eq_of_beq h))
        | _ => cases h
    | function f =>
        cases w with
        | function g => exact hsame (fun _ => Value.noConfusion) (congrArg function (eq_of_beq h))
        | _ => cases h
    | ofClass c =>
        cases w with
        | ofClass d => exact hsame (fun _ => Value.noConfusion) (congrArg ofClass (eq_of_beq h))
        | _ => cases h
    | object o =>
        cases w with
        | object p => exact hsame (fun _ => Value.noConfusion) (congrArg object (eq_of_beq h))
        | _ => cases h
  · intro h
    cases h with
    | number hxy => exact hxy
    | bound receiver f home home' =>
        exact equals_self (v := .bound receiver f home) fun _ => Value.noConfusion
    | same hv => exact equals_self hv

theorem equals_symm : Std.Symm fun v w : Value => v.equals w = true := by
  refine ⟨fun v w h => ?_⟩
  rw [equals_iff] at h ⊢
  cases h with
  | number hxy => exact .number (Number.beq_symm hxy)
  | bound receiver f home home' => exact .bound receiver f home' home
  | same hv => exact .same hv

theorem equals_trans : IsTrans Value fun v w => v.equals w = true := by
  refine ⟨fun u v w huv hvw => ?_⟩
  rw [equals_iff] at huv hvw ⊢
  cases huv with
  | number hxy =>
      cases hvw with
      | number hyz => exact .number (Number.beq_trans hxy hyz)
      | same hv => exact absurd rfl (hv _)
  | bound receiver f home home' =>
      cases hvw with
      | bound _ _ _ home'' => exact .bound receiver f home home''
      | same _ => exact .bound receiver f home home'
  | same _ => exact hvw

/-- **Every value but an undefined number is equal to itself.** -/
theorem equals_self_iff (v : Value) : v.equals v = true ↔ ¬ v.IsNaN := by
  cases v with
  | number x =>
      have hnumber : (Value.number x).equals (.number x) = true ↔ x.isNaN = false :=
        Number.beq_self_iff
      rw [hnumber]
      constructor
      · rintro hx ⟨y, hy, hnan⟩
        cases hy
        exact Bool.false_ne_true (hx.symm.trans hnan)
      · intro hv
        exact Bool.eq_false_iff.mpr fun hnan => hv ⟨x, rfl, hnan⟩
  | _ =>
      refine iff_of_true (equals_self fun _ => Value.noConfusion) ?_
      rintro ⟨x, hx, -⟩
      cases hx

end Value

end Lipi
