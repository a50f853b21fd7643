import Lipi.Proofs.Number.Bits
import Mathlib.Algebra.Order.Field.Rat
import Mathlib.Tactic.FieldSimp
import Mathlib.Tactic.Linarith
import Mathlib.Tactic.Positivity
import Mathlib.Tactic.Ring

set_option autoImplicit false

/-! # Rounding to the nearest double

The doubles around `m * 2 ^ q` are `2 ^ q` apart, except that below a power of two they are twice as
dense. So `m * 2 ^ q` is the nearest double to all numbers that lie less than half of that distance
away from it, and for an even `m` also to those that lie exactly half of it away: these numbers are
the ones that are `Near` it. **`ratioBits` gives the bits of `m * 2 ^ q` for every quotient near it**
(`ratioBits_eq`).
-/

namespace Lipi.Number

/-- Half of the distance from `m * 2 ^ q` to the next smaller double, in units of `2 ^ q`. -/
def halfGapBelow (m : Nat) (q : Int) : ℚ :=
  if m = hiddenBit ∧ leastExponent < q then 1 / 4 else 1 / 2

/-- The number `y * 2 ^ q` is rounded to `m * 2 ^ q`. -/
structure Near (m : Nat) (q : Int) (y : ℚ) : Prop where
  low : m - halfGapBelow m q ≤ y
  high : y ≤ m + 1 / 2
  strict : m % 2 = 1 → m - halfGapBelow m q < y ∧ y < m + 1 / 2

theorem halfGapBelow_le (m : Nat) (q : Int) : halfGapBelow m q ≤ 1 / 2 := by
  unfold halfGapBelow
  split <;> norm_num

/-! ## Quotients -/

theorem scaleBinary_pos {den : Nat} (num : Nat) (hden : 0 < den) (q : Int) :
    0 < (scaleBinary num den q).2 := by
  unfold scaleBinary
  cases q with
  | ofNat n =>
      show 0 < den <<< n
      rw [Nat.shiftLeft_eq]
      exact Nat.mul_pos hden (Nat.two_pow_pos n)
  | negSucc n => exact hden

theorem scaleBinary_eq (num den : Nat) (q : Int) :
    ((scaleBinary num den q).1 : ℚ) / (scaleBinary num den q).2 = num / den / 2 ^ q := by
  unfold scaleBinary
  cases q with
  | ofNat n =>
      simp only [Int.ofNat_eq_natCast, zpow_natCast, Nat.shiftLeft_eq]
      push_cast
      rw [div_div]
  | negSucc n =>
      simp only [zpow_negSucc, Nat.shiftLeft_eq]
      push_cast
      rw [div_inv_eq_mul, div_mul_eq_mul_div]

/-- The nearest whole number, by the distance to it. -/
theorem roundDiv_eq {num den k : Nat} (hden : 0 < den) (hlow : (k : ℚ) - 1 / 2 ≤ num / den)
    (hhigh : (num : ℚ) / den ≤ k + 1 / 2)
    (htie : k % 2 = 1 → (k : ℚ) - 1 / 2 < num / den ∧ (num : ℚ) / den < k + 1 / 2) :
    roundDiv num den = k := by
  have hdenQ : (0 : ℚ) < den := by exact_mod_cast hden
  have hlowN : 2 * (k * den) ≤ 2 * num + den := by
    rw [le_div_iff₀ hdenQ] at hlow
    have : (2 * (k * den) : ℚ) ≤ 2 * num + den := by linarith
    exact_mod_cast this
  have hhighN : 2 * num ≤ 2 * (k * den) + den := by
    rw [div_le_iff₀ hdenQ] at hhigh
    have : (2 * num : ℚ) ≤ 2 * (k * den) + den := by linarith
    exact_mod_cast this
  have htieN : k % 2 = 1 → 2 * (k * den) < 2 * num + den ∧ 2 * num < 2 * (k * den) + den := by
    intro hk
    obtain ⟨h1, h2⟩ := htie hk
    rw [lt_div_iff₀ hdenQ] at h1
    rw [div_lt_iff₀ hdenQ] at h2
    have h1' : (2 * (k * den) : ℚ) < 2 * num + den := by linarith
    have h2' : (2 * num : ℚ) < 2 * (k * den) + den := by linarith
    exact ⟨by exact_mod_cast h1', by exact_mod_cast h2'⟩
  have hdiv : den * (num / den) + num % den = num := Nat.div_add_mod num den
  have hrest : num % den < den := Nat.mod_lt num hden
  -- the nearest whole number is the quotient or its successor
  have hbelow : num / den ≤ k := by
    by_contra hlt
    have hmul : (k + 1) * den ≤ (num / den) * den := Nat.mul_le_mul_right den (by omega)
    have hexpand : (k + 1) * den = k * den + den := by ring
    have hcomm : num / den * den = den * (num / den) := by ring
    omega
  have habove : k ≤ num / den + 1 := by
    by_contra hlt
    have hmul : (num / den + 2) * den ≤ k * den := Nat.mul_le_mul_right den (by omega)
    have hexpand : (num / den + 2) * den = den * (num / den) + 2 * den := by ring
    omega
  have hcases : k = num / den ∨ k = num / den + 1 := by omega
  unfold roundDiv
  dsimp only
  rcases hcases with hk | hk
  · have hmul : k * den = den * (num / den) := by rw [hk]; ring
    by_cases h1 : 2 * (num % den) < den
    · rw [if_pos h1, hk]
    · rw [if_neg h1, if_neg (by omega)]
      have heven : (num / den) % 2 = 0 := by
        by_contra hodd
        have := (htieN (by omega)).2
        omega
      rw [if_pos heven, hk]
  · have hmul : k * den = den * (num / den) + den := by rw [hk]; ring
    rw [if_neg (by omega)]
    by_cases h2 : den < 2 * (num % den)
    · rw [if_pos h2, hk]
    · rw [if_neg h2]
      have hodd : (num / den) % 2 ≠ 0 := by
        intro heven
        have := (htieN (by omega)).1
        omega
      rw [if_neg hodd, hk]

/-! ## The exponent -/

/-- `n / d` is the whole part of a quotient. -/
theorem div_lt_iff_ratio_lt {n d k : Nat} (hd : 0 < d) : n / d < k ↔ (n : ℚ) / d < k := by
  have hdQ : (0 : ℚ) < d := by exact_mod_cast hd
  rw [Nat.div_lt_iff_lt_mul hd, div_lt_iff₀ hdQ]
  exact_mod_cast Iff.rfl

theorem hiddenBit_cast : ((hiddenBit : Nat) : ℚ) = 2 ^ 52 := by
  norm_num [hiddenBit_eq]

/-- The lengths of numerator and denominator in binary tell the exponent up to one. -/
theorem estimate_bounds {num den : Nat} (hnum : 0 < num) (hden : 0 < den) :
    (2 : ℚ) ^ 51 < num / den / 2 ^ ((num.log2 : ℤ) - den.log2 - 52) ∧
      (num : ℚ) / den / 2 ^ ((num.log2 : ℤ) - den.log2 - 52) < 2 ^ 53 := by
  have hdenQ : (0 : ℚ) < den := by exact_mod_cast hden
  have hnumLow : (2 : ℚ) ^ num.log2 ≤ num := by exact_mod_cast Nat.log2_self_le hnum.ne'
  have hnumHigh : (num : ℚ) < 2 ^ (num.log2 + 1) := by exact_mod_cast Nat.lt_log2_self
  have hdenLow : (2 : ℚ) ^ den.log2 ≤ den := by exact_mod_cast Nat.log2_self_le hden.ne'
  have hdenHigh : (den : ℚ) < 2 ^ (den.log2 + 1) := by exact_mod_cast Nat.lt_log2_self
  -- both numbers are powers of two up to a factor below two
  have hscale : (2 : ℚ) ^ ((num.log2 : ℤ) - den.log2 - 52)
      = 2 ^ num.log2 / (2 ^ den.log2 * 2 ^ 52) := by
    rw [zpow_sub₀ two_ne_zero, zpow_sub₀ two_ne_zero, zpow_natCast, zpow_natCast, div_div]
    rfl
  have hpos : (0 : ℚ) < 2 ^ ((num.log2 : ℤ) - den.log2 - 52) := zpow_pos two_pos _
  constructor
  · rw [lt_div_iff₀ hpos, lt_div_iff₀ hdenQ, hscale]
    calc (2 : ℚ) ^ 51 * (2 ^ num.log2 / (2 ^ den.log2 * 2 ^ 52)) * den
        = 2 ^ num.log2 * (den / 2 ^ (den.log2 + 1)) := by
          rw [pow_succ (2 : ℚ) den.log2]
          field_simp
      _ < 2 ^ num.log2 * 1 := by
          refine mul_lt_mul_of_pos_left ?_ (by positivity)
          rw [div_lt_one (by positivity)]
          exact hdenHigh
      _ ≤ num := by
          rw [mul_one]
          exact hnumLow
  · rw [div_lt_iff₀ hpos, div_lt_iff₀ hdenQ, hscale]
    calc (num : ℚ) < 2 ^ (num.log2 + 1) := hnumHigh
      _ = 2 ^ 53 * (2 ^ num.log2 / (2 ^ den.log2 * 2 ^ 52)) * 2 ^ den.log2 := by
          rw [pow_succ]
          field_simp
      _ ≤ 2 ^ 53 * (2 ^ num.log2 / (2 ^ den.log2 * 2 ^ 52)) * den :=
          mul_le_mul_of_nonneg_left hdenLow (by positivity)

/-- The exponent for a quotient is the one at which it has 53 bits, if that is not too small. -/
theorem exponentFor_eq {num den : Nat} (hnum : 0 < num) (hden : 0 < den) :
    ∃ e : Int, exponentFor num den = max e leastExponent ∧
      (2 : ℚ) ^ 52 ≤ num / den / 2 ^ e ∧ (num : ℚ) / den / 2 ^ e < 2 ^ 53 := by
  let estimate : Int := (num.log2 : Int) - den.log2 - 52
  obtain ⟨hlow, hhigh⟩ :
      (2 : ℚ) ^ 51 < num / den / 2 ^ estimate ∧ (num : ℚ) / den / 2 ^ estimate < 2 ^ 53 :=
    estimate_bounds hnum hden
  have hwhole := div_lt_iff_ratio_lt (k := hiddenBit)
    (n := (scaleBinary num den estimate).1) (scaleBinary_pos num hden estimate)
  rw [scaleBinary_eq, hiddenBit_cast] at hwhole
  -- the estimate is one too large if the quotient has only 52 bits there
  have hexponent : exponentFor num den =
      max (if (scaleBinary num den estimate).1 / (scaleBinary num den estimate).2 < hiddenBit
        then estimate - 1 else estimate) leastExponent := rfl
  by_cases hsmall : (scaleBinary num den estimate).1 / (scaleBinary num den estimate).2 < hiddenBit
  · have hbelow := hwhole.mp hsmall
    have hhalf : (num : ℚ) / den / 2 ^ (estimate - 1) = num / den / 2 ^ estimate * 2 := by
      rw [zpow_sub_one₀ two_ne_zero, ← div_div, div_inv_eq_mul]
    rw [if_pos hsmall] at hexponent
    refine ⟨estimate - 1, hexponent, ?_, ?_⟩
    · rw [hhalf]
      linarith
    · rw [hhalf]
      linarith
  · rw [if_neg hsmall] at hexponent
    exact ⟨estimate, hexponent, not_lt.mp (mt hwhole.mpr hsmall), hhigh⟩

/-- An exponent at which a number near `m * 2 ^ q` still has 53 bits is at most `q`. -/
theorem exponent_le_of_near {x : ℚ} {m : Nat} {q e : Int} (hm : m < 2 ^ 53)
    (hhigh : x / 2 ^ q ≤ m + 1 / 2) (hlow : (2 : ℚ) ^ 52 ≤ x / 2 ^ e) : e ≤ q := by
  by_contra hgt
  have hpow : (2 : ℚ) ^ (q + 1) ≤ 2 ^ e := zpow_le_zpow_right₀ one_le_two (by omega)
  have hposE : (0 : ℚ) < 2 ^ e := zpow_pos two_pos _
  have hposQ : (0 : ℚ) < 2 ^ q := zpow_pos two_pos _
  rw [le_div_iff₀ hposE] at hlow
  rw [zpow_add_one₀ two_ne_zero] at hpow
  have hlarge : (2 : ℚ) ^ 53 ≤ x / 2 ^ q := by
    rw [le_div_iff₀ hposQ]
    calc (2 : ℚ) ^ 53 * 2 ^ q = 2 ^ 52 * (2 ^ q * 2) := by ring
      _ ≤ 2 ^ 52 * 2 ^ e := mul_le_mul_of_nonneg_left hpow (by positivity)
      _ ≤ x := hlow
  have hmQ : (m : ℚ) + 1 ≤ 2 ^ 53 := by exact_mod_cast hm
  linarith

/-! ## The bits -/

/-- The exponent for a number near `m * 2 ^ q` is `q`; only just below a power of two it is one
less. -/
theorem exponentFor_of_near {num den m : Nat} {q : Int} (hnum : 0 < num) (hden : 0 < den)
    (hstandard : Standard m q) (hnear : Near m q ((num : ℚ) / den / 2 ^ q)) :
    exponentFor num den = q ∨
      (exponentFor num den = q - 1 ∧ m = hiddenBit ∧ leastExponent < q ∧
        (num : ℚ) / den / 2 ^ q < 2 ^ 52) := by
  obtain ⟨e, hexponent, hlow, hhigh⟩ := exponentFor_eq hnum hden
  let y : ℚ := num / den / 2 ^ q
  have hshift : ∀ k : Nat, e = q - k → (num : ℚ) / den / 2 ^ e = y * 2 ^ k := by
    intro k hk
    rw [hk, zpow_sub₀ two_ne_zero, zpow_natCast]
    show _ = (num : ℚ) / den / 2 ^ q * 2 ^ k
    field_simp
  have hgap := halfGapBelow_le m q
  have hyLow : (m : ℚ) - halfGapBelow m q ≤ y := hnear.low
  have hle : e ≤ q := exponent_le_of_near hstandard.small hnear.high hlow
  rw [hexponent]
  by_cases hsame : max e leastExponent = q
  · exact Or.inl hsame
  · right
    have hleast := hstandard.least
    have hlt : e < q := by omega
    have hnormal : leastExponent < q := by omega
    have hhidden : hiddenBit ≤ m := hstandard.normal.resolve_right (by omega)
    obtain ⟨k, hk⟩ : ∃ k : Nat, e = q - (k + 1 : Nat) := ⟨(q - e - 1).toNat, by omega⟩
    rw [hshift _ hk] at hhigh
    have hhiddenQ : (2 : ℚ) ^ 52 ≤ m := by rw [← hiddenBit_cast]; exact_mod_cast hhidden
    have hypos : 0 ≤ y := by linarith
    have hone : (1 : ℚ) ≤ 2 ^ k := one_le_pow₀ one_le_two
    have hdouble : y * 2 < 2 ^ 53 := by
      calc y * 2 ≤ y * 2 * 2 ^ k := le_mul_of_one_le_right (by linarith) hone
        _ = y * 2 ^ (k + 1) := by ring
        _ < 2 ^ 53 := hhigh
    have hsmall : m = hiddenBit := by
      have hmQ : (m : ℚ) < hiddenBit + 1 := by rw [hiddenBit_cast]; linarith
      have hmN : m < hiddenBit + 1 := by exact_mod_cast hmQ
      omega
    have hquarter : halfGapBelow m q = 1 / 4 := if_pos ⟨hsmall, hnormal⟩
    -- a quarter below the power of two is far more than half of it
    have hzero : k = 0 := by
      by_contra hk0
      have hfour : (2 : ℚ) ^ 2 ≤ 2 ^ (k + 1) := pow_le_pow_right₀ one_le_two (by omega)
      have hbound : y * 2 ^ 2 < 2 ^ 53 :=
        lt_of_le_of_lt (mul_le_mul_of_nonneg_left hfour hypos) hhigh
      linarith
    subst hzero
    refine ⟨by omega, hsmall, hnormal, ?_⟩
    show y < 2 ^ 52
    linarith

/-- **A quotient near `m * 2 ^ q` is rounded to it.** -/
theorem ratioBits_eq {num den m : Nat} {q : Int} (hnum : 0 < num) (hden : 0 < den)
    (hstandard : Standard m q) (hnear : Near m q ((num : ℚ) / den / 2 ^ q))
    (hfinite : (q - leastExponent).toNat * 2 ^ 52 + m < infinityBits) :
    ratioBits num den = (q - leastExponent).toNat * 2 ^ 52 + m := by
  have hgap := halfGapBelow_le m q
  have hkey : ∀ q' : Int, exponentFor num den = q' →
      (q' - leastExponent).toNat * 2 ^ 52
        + roundDiv (scaleBinary num den q').1 (scaleBinary num den q').2
        = (q - leastExponent).toNat * 2 ^ 52 + m →
      ratioBits num den = (q - leastExponent).toNat * 2 ^ 52 + m := by
    intro q' hq' hround
    unfold ratioBits
    rw [if_neg hnum.ne', hq', hiddenBit_eq]
    dsimp only
    rw [hround]
    exact Nat.min_eq_left (Nat.le_of_lt hfinite)
  rcases exponentFor_of_near hnum hden hstandard hnear with hq | ⟨hq, hm, hnormal, hbelow⟩
  · refine hkey q hq ?_
    congr 1
    refine roundDiv_eq (scaleBinary_pos num hden q) ?_ ?_ fun hodd => ?_
    · rw [scaleBinary_eq]
      linarith [hnear.low]
    · rw [scaleBinary_eq]
      exact hnear.high
    · obtain ⟨h1, h2⟩ := hnear.strict hodd
      rw [scaleBinary_eq]
      exact ⟨by linarith, h2⟩
  · refine hkey (q - 1) hq ?_
    have hquarter : halfGapBelow m q = 1 / 4 := if_pos ⟨hm, hnormal⟩
    have hmQ : (m : ℚ) = 2 ^ 52 := by rw [hm, hiddenBit_cast]
    have hlow := hnear.low
    rw [hquarter, hmQ] at hlow
    have hratio : ((scaleBinary num den (q - 1)).1 : ℚ) / (scaleBinary num den (q - 1)).2
        = num / den / 2 ^ q * 2 := by
      rw [scaleBinary_eq, zpow_sub_one₀ two_ne_zero, ← div_div, div_inv_eq_mul]
    -- just below the power of two the significand is rounded up to it
    have hround : roundDiv (scaleBinary num den (q - 1)).1 (scaleBinary num den (q - 1)).2
        = 2 ^ 53 := by
      refine roundDiv_eq (scaleBinary_pos num hden _) ?_ ?_ fun hodd => ?_
      · rw [hratio]
        push_cast
        linarith
      · rw [hratio]
        push_cast
        linarith
      · exact absurd hodd (by decide)
    rw [hround, hm, hiddenBit_eq]
    omega

end Lipi.Number
