import Lipi.Proofs.Number.Bits
import Lipi.Operator.Apply

set_option autoImplicit false

/-! # The two zeros

There are two zeros, which differ in their sign and nothing else. **No operation of the language
tells them apart**: they compare as equal, have the same text and are the same index, nothing is
divided by them, and every other operation makes the same of them, up to the sign of a zero
(`Number.Same`). Doubles that compare as equal are the same in this sense (`Number.same_of_beq`).
-/

namespace Lipi.Number

open Float.Model

/-- One of the two zeros. -/
def IsZero (x : Float) : Prop := x = 0.0 ∨ x = -0.0

/-- The same double, up to the sign of a zero. -/
def Same (x y : Float) : Prop := y = x ∨ (IsZero x ∧ IsZero y)

theorem Same.refl (x : Float) : Same x x :=
  .inl rfl

/-! ## What a zero looks like -/

theorem text_of_isZero {x : Float} (h : IsZero x) : text x = "0" := by
  rcases h with rfl | rfl <;> rfl

theorem toIndex?_of_isZero {x : Float} (h : IsZero x) : toIndex? x = some 0 := by
  rcases h with rfl | rfl <;> decide

theorem ofFloat_of_isZero {x : Float} (h : IsZero x) :
    ∃ s, Parts.ofFloat x = .finite s 0 leastExponent := by
  rcases h with rfl | rfl
  · exact ⟨false, rfl⟩
  · exact ⟨true, rfl⟩

theorem unpack_of_isZero {x : Float} (h : IsZero x) : ∃ s, x.toModel.unpack = .zero s := by
  rcases h with rfl | rfl
  · exact ⟨.positive, rfl⟩
  · exact ⟨.negative, rfl⟩

/-- The bits of every double are kept: they either do not stand for an infinite double or no number,
or they are the ones that are made for it. -/
theorem pack_unpack_valid {v : Word} (hvalid : Format.binary64.Valid v) :
    UnpackedFloat.pack Format.binary64 (UnpackedFloat.unpack Format.binary64 v) = v := by
  by_cases hexponent : UnpackedFloat.unpackExponent v = -1#_
  · unfold UnpackedFloat.unpack
    dsimp only
    rw [if_pos hexponent]
    by_cases hmantissa : UnpackedFloat.unpackMantissa v = 0#_
    · have hwhole := fields_of_word v
      rw [hexponent, hmantissa] at hwhole
      rw [if_pos hmantissa]
      exact hwhole
    · rw [if_neg hmantissa]
      exact (hvalid.eq_packedNaN hexponent hmantissa).symm
  · exact pack_unpack v hexponent

theorem pack_unpack_model (f : Float.Model) : pack f.unpack = f := by
  obtain ⟨bits, hvalid⟩ := f
  refine (Float.Model.mk.injEq ..).mpr ?_
  exact congrArg UInt64.ofBitVec (pack_unpack_valid hvalid)

theorem eq_of_unpack {x y : Float} (h : x.toModel.unpack = y.toModel.unpack) : x = y := by
  obtain ⟨f⟩ := x
  obtain ⟨g⟩ := y
  rw [← pack_unpack_model f, ← pack_unpack_model g]
  exact congrArg (fun u => Float.ofModel (pack u)) h

theorem isZero_of_unpack {x : Float} {s : UnpackedFloat.Sign} (h : x.toModel.unpack = .zero s) :
    IsZero x := by
  cases s with
  | positive => exact .inl (eq_of_unpack h)
  | negative => exact .inr (eq_of_unpack h)

/-! ## Operations on zeros -/

/-- The same parts, up to the sign of a zero. -/
def Twins (u w : UnpackedFloat) : Prop := w = u ∨ ∃ s t, u = .zero s ∧ w = .zero t

theorem Same.twins {x y : Float} (h : Same x y) : Twins x.toModel.unpack y.toModel.unpack := by
  rcases h with rfl | ⟨hx, hy⟩
  · exact .inl rfl
  · obtain ⟨s, hs⟩ := unpack_of_isZero hx
    obtain ⟨t, ht⟩ := unpack_of_isZero hy
    exact .inr ⟨s, t, hs, ht⟩

theorem Twins.same {u w : UnpackedFloat} (h : Twins u w) :
    Same (.ofModel (pack u)) (.ofModel (pack w)) := by
  have hzero : ∀ s, IsZero (.ofModel (pack (.zero s))) := by
    intro s
    cases s with
    | positive => exact .inl rfl
    | negative => exact .inr rfl
  rcases h with rfl | ⟨s, t, rfl, rfl⟩
  · exact .refl _
  · exact .inr ⟨hzero s, hzero t⟩

theorem twins_zero (s t : UnpackedFloat.Sign) : Twins (.zero s) (.zero t) :=
  .inr ⟨s, t, rfl, rfl⟩

theorem Twins.neg {u w : UnpackedFloat} (h : Twins u w) : Twins u.neg w.neg := by
  rcases h with rfl | ⟨s, t, rfl, rfl⟩
  · exact .inl rfl
  · exact twins_zero _ _

/-- An operation that gives a zero for two zeros, and otherwise does not tell zeros apart. -/
theorem twins_congr {op : UnpackedFloat → UnpackedFloat → UnpackedFloat}
    (hzeros : ∀ s t, ∃ r, op (.zero s) (.zero t) = .zero r)
    (hleft : ∀ s t w, (∀ r, w ≠ .zero r) → Twins (op (.zero s) w) (op (.zero t) w))
    (hright : ∀ u s t, (∀ r, u ≠ .zero r) → Twins (op u (.zero s)) (op u (.zero t)))
    {u u' w w' : UnpackedFloat} (hu : Twins u u') (hw : Twins w w') :
    Twins (op u w) (op u' w') := by
  have hboth : ∀ s t s' t', Twins (op (.zero s) (.zero s')) (op (.zero t) (.zero t')) := by
    intro s t s' t'
    obtain ⟨r₁, h₁⟩ := hzeros s s'
    obtain ⟨r₂, h₂⟩ := hzeros t t'
    rw [h₁, h₂]
    exact twins_zero r₁ r₂
  rcases hu with rfl | ⟨s, t, rfl, rfl⟩ <;> rcases hw with rfl | ⟨s', t', rfl, rfl⟩
  · exact .inl rfl
  · cases u' with
    | zero r => exact hboth r r s' t'
    | _ => exact hright _ s' t' fun _ h => nomatch h
  · cases w' with
    | zero r => exact hboth s t r r
    | _ => exact hleft s t _ fun _ h => nomatch h
  · exact hboth s t s' t'

theorem twins_add {u u' w w' : UnpackedFloat} (hu : Twins u u') (hw : Twins w w') :
    Twins (UnpackedFloat.add Format.binary64 u w) (UnpackedFloat.add Format.binary64 u' w') := by
  refine twins_congr (fun s t => ?_) (fun s t w hw => ?_) (fun u s t hu => ?_) hu hw
  · cases s <;> cases t <;> exact ⟨_, rfl⟩
  · cases w with
    | zero r => exact absurd rfl (hw r)
    | _ => exact .inl rfl
  · cases u with
    | zero r => exact absurd rfl (hu r)
    | _ => exact .inl rfl

theorem sign_apply_neg (s : UnpackedFloat.Sign) (k : Int) : (-s).apply k = -s.apply k := by
  cases s with
  | positive => rfl
  | negative => exact (Int.neg_neg k).symm

/-- Subtracting is adding the negation. -/
theorem sub_eq_add_neg (u w : UnpackedFloat) :
    UnpackedFloat.sub Format.binary64 u w = UnpackedFloat.add Format.binary64 u w.neg := by
  cases u with
  | finite s₁ m₁ e₁ _ =>
      cases w with
      | finite s₂ m₂ e₂ _ =>
          unfold UnpackedFloat.neg UnpackedFloat.add
          dsimp only
          rw [sign_apply_neg, ← Int.sub_eq_add_neg]
          rfl
      | _ => rfl
  | _ => cases w <;> rfl

theorem twins_sub {u u' w w' : UnpackedFloat} (hu : Twins u u') (hw : Twins w w') :
    Twins (UnpackedFloat.sub Format.binary64 u w) (UnpackedFloat.sub Format.binary64 u' w') := by
  rw [sub_eq_add_neg, sub_eq_add_neg]
  exact twins_add hu hw.neg

theorem twins_mul {u u' w w' : UnpackedFloat} (hu : Twins u u') (hw : Twins w w') :
    Twins (UnpackedFloat.mul Format.binary64 u w) (UnpackedFloat.mul Format.binary64 u' w') := by
  refine twins_congr (fun s t => ⟨_, rfl⟩) (fun s t w hw => ?_) (fun u s t hu => ?_) hu hw
  · cases w with
    | zero r => exact absurd rfl (hw r)
    | finite => exact twins_zero _ _
    | _ => exact .inl rfl
  · cases u with
    | zero r => exact absurd rfl (hu r)
    | finite => exact twins_zero _ _
    | _ => exact .inl rfl

theorem twins_div {u u' w : UnpackedFloat} (hu : Twins u u') (hw : ∀ s, w ≠ .zero s) :
    Twins (UnpackedFloat.div Format.binary64 u w) (UnpackedFloat.div Format.binary64 u' w) := by
  rcases hu with rfl | ⟨s, t, rfl, rfl⟩
  · exact .inl rfl
  · cases w with
    | zero r => exact absurd rfl (hw r)
    | notANumber => exact .inl rfl
    | _ => exact twins_zero _ _

theorem compare_twins {u u' w w' : UnpackedFloat} (hu : Twins u u') (hw : Twins w w') :
    u'.compare w' = u.compare w := by
  rcases hu with rfl | ⟨s, t, rfl, rfl⟩ <;> rcases hw with rfl | ⟨s', t', rfl, rfl⟩
  · rfl
  · cases u' with
    | finite r => cases r <;> rfl
    | infinity r => cases r <;> rfl
    | _ => rfl
  · cases w' with
    | finite r => cases r <;> rfl
    | infinity r => cases r <;> rfl
    | _ => rfl
  · rfl

/-- Parts that compare as equal are the same up to the sign of a zero. -/
theorem twins_of_compare {u w : UnpackedFloat} (h : u.compare w = some .eq) : Twins u w := by
  have hparts : ∀ {e e' : Int} {m m' : Nat},
      (compare e e').then (compare m m') = .eq → e = e' ∧ m = m' := by
    intro e e' m m' h
    rw [Ordering.then_eq_eq, compare_eq_iff_eq, compare_eq_iff_eq] at h
    exact h
  cases u with
  | notANumber => cases h
  | infinity s =>
      cases w with
      | infinity t => cases s <;> cases t <;> first | exact .inl rfl | cases h
      | _ => cases s <;> cases h
  | zero s =>
      cases w with
      | zero t => exact twins_zero s t
      | notANumber => cases h
      | infinity t => cases t <;> cases h
      | finite t => cases t <;> cases h
  | finite s m e hm =>
      cases w with
      | notANumber => cases h
      | infinity t => cases s <;> cases t <;> cases h
      | zero t => cases s <;> cases h
      | finite t m' e' hm' =>
          cases s with
          | positive =>
              cases t with
              | negative => cases h
              | positive =>
                  obtain ⟨rfl, rfl⟩ := hparts (Option.some.inj h)
                  exact .inl rfl
          | negative =>
              cases t with
              | positive => cases h
              | negative =>
                  -- negative numbers are ordered by their magnitudes the other way round
                  have hswap := congrArg Ordering.swap (Option.some.inj h)
                  rw [Ordering.swap_swap] at hswap
                  obtain ⟨rfl, rfl⟩ := hparts hswap
                  exact .inl rfl

/-! ## Operations of the language -/

theorem zero_inUnits (q k : Int) : inUnits 0 q k = 0 :=
  Nat.zero_shiftLeft _

theorem isZero_ofScaled (negative : Bool) (q : Int) : IsZero (ofScaled negative 0 q) := by
  have hzero : ∀ den, IsZero (ofRatio negative 0 den) := by
    intro den
    show IsZero (ofSignedBits negative 0)
    cases negative with
    | false => exact .inl rfl
    | true => exact .inr rfl
  cases q with
  | ofNat n =>
      show IsZero (ofRatio negative (0 <<< n) 1)
      rw [Nat.zero_shiftLeft]
      exact hzero 1
  | negSucc n => exact hzero _

section Operations

variable {x x' y y' : Float}

/-- **Doubles that compare as equal are the same up to the sign of a zero.** -/
theorem same_of_beq (h : (x == y) = true) : Same x y := by
  have hcompare : x.toModel.unpack.compare y.toModel.unpack = some .eq := eq_of_beq h
  rcases twins_of_compare hcompare with heq | ⟨s, t, hs, ht⟩
  · exact .inl (eq_of_unpack heq.symm).symm
  · exact .inr ⟨isZero_of_unpack hs, isZero_of_unpack ht⟩

theorem Same.neg (h : Same x x') : Same (-x) (-x') :=
  Twins.same h.twins.neg

theorem Same.add (hx : Same x x') (hy : Same y y') : Same (x + y) (x' + y') :=
  Twins.same (twins_add hx.twins hy.twins)

theorem Same.sub (hx : Same x x') (hy : Same y y') : Same (x - y) (x' - y') :=
  Twins.same (twins_sub hx.twins hy.twins)

theorem Same.mul (hx : Same x x') (hy : Same y y') : Same (x * y) (x' * y') :=
  Twins.same (twins_mul hx.twins hy.twins)

theorem Same.beq (hx : Same x x') (hy : Same y y') : (x' == y') = (x == y) :=
  congrArg (· == some Ordering.eq) (compare_twins hx.twins hy.twins)

theorem Same.lt (hx : Same x x') (hy : Same y y') : x' < y' ↔ x < y := by
  have hsame : x'.toModel.lt y'.toModel = x.toModel.lt y.toModel :=
    congrArg (· == some Ordering.lt) (compare_twins hx.twins hy.twins)
  show decide (x'.toModel < y'.toModel) = true ↔ decide (x.toModel < y.toModel) = true
  rw [decide_eq_true_iff, decide_eq_true_iff]
  show x'.toModel.lt y'.toModel = true ↔ x.toModel.lt y.toModel = true
  rw [hsame]

theorem not_isZero (hzero : (y == 0.0) = false) : ¬ IsZero y := by
  rintro (rfl | rfl) <;> cases hzero

/-- A divisor that is no zero is the same double on both sides. -/
theorem Same.eq_of_divisor (hy : Same y y') (hzero : (y == 0.0) = false) : y' = y := by
  rcases hy with rfl | ⟨hy, _⟩
  · rfl
  · exact absurd hy (not_isZero hzero)

theorem Same.div (hx : Same x x') (hy : Same y y') (hzero : (y == 0.0) = false) :
    Same (x / y) (x' / y') := by
  rw [hy.eq_of_divisor hzero]
  exact Twins.same (twins_div hx.twins fun s hs => not_isZero hzero (isZero_of_unpack hs))

theorem Same.text (h : Same x x') : Number.text x' = Number.text x := by
  rcases h with rfl | ⟨hx, hx'⟩
  · rfl
  · rw [text_of_isZero hx, text_of_isZero hx']

theorem Same.toIndex? (h : Same x x') : Number.toIndex? x' = Number.toIndex? x := by
  rcases h with rfl | ⟨hx, hx'⟩
  · rfl
  · rw [toIndex?_of_isZero hx, toIndex?_of_isZero hx']

theorem Same.remainder (hx : Same x x') (hy : Same y y') (hzero : (y == 0.0) = false) :
    Same (Number.remainder x y) (Number.remainder x' y') := by
  rw [hy.eq_of_divisor hzero]
  rcases hx with rfl | ⟨hx, hx'⟩
  · exact .refl _
  · obtain ⟨s, hs⟩ := ofFloat_of_isZero hx
    obtain ⟨t, ht⟩ := ofFloat_of_isZero hx'
    unfold Number.remainder
    rw [hs, ht]
    cases Parts.ofFloat y with
    | nan => exact .refl _
    | infinite negative => exact .inr ⟨hx, hx'⟩
    | finite negative n r =>
        dsimp only
        by_cases hn : n = 0
        · rw [if_pos hn, if_pos hn]
          exact .refl _
        · rw [if_neg hn, if_neg hn, zero_inUnits, Nat.zero_mod]
          exact .inr ⟨isZero_ofScaled s _, isZero_ofScaled t _⟩

end Operations

end Lipi.Number
