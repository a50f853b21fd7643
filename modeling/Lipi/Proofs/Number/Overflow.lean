import Lipi.Proofs.Number.ReadBack

set_option autoImplicit false

/-! # Numbers that are too large

The largest double is `2 ^ 1024 - 2 ^ 971`, and what lies less than half a gap above it is rounded to
it. **A numeral is a number exactly if its value is below the middle of that gap**
(`isFinite_read?_numeral`); from there on it is rounded to infinity.
-/

namespace Lipi.Number

/-- The smallest value that is rounded to infinity. -/
def overflow : ℚ := 2 ^ 1024 - 2 ^ 970

theorem overflow_eq : overflow = (2 ^ 53 - 1 / 2) * 2 ^ (971 : ℤ) := by
  have hhigh : (2 : ℚ) ^ 1024 = 2 ^ 53 * 2 ^ (971 : ℤ) := by
    rw [show (971 : ℤ) = (971 : Nat) from rfl, zpow_natCast, ← pow_add]
  have hlow : (2 : ℚ) ^ (971 : ℤ) = 2 ^ 970 * 2 := by
    rw [show (971 : ℤ) = (970 + 1 : Nat) from rfl, zpow_natCast, pow_succ]
  unfold overflow
  rw [sub_mul, ← hhigh, hlow, mul_comm, mul_assoc, mul_one_div_cancel two_ne_zero, mul_one]

/-- Rounding goes half a unit at most. -/
theorem roundDiv_near (num : Nat) {den : Nat} (hden : 0 < den) :
    (roundDiv num den : ℚ) - 1 / 2 ≤ num / den ∧ (num : ℚ) / den ≤ roundDiv num den + 1 / 2 := by
  have hdenQ : (0 : ℚ) < den := by exact_mod_cast hden
  have hdiv : den * (num / den) + num % den = num := Nat.div_add_mod num den
  have hrest : num % den < den := Nat.mod_lt num hden
  have hbounds : 2 * (den * roundDiv num den) ≤ 2 * num + den ∧
      2 * num ≤ 2 * (den * roundDiv num den) + den := by
    have hsucc : den * (num / den + 1) = den * (num / den) + den := by ring
    unfold roundDiv
    dsimp only
    split_ifs <;> constructor <;> omega
  have hlow : (2 * (den * roundDiv num den) : ℚ) ≤ 2 * num + den := by exact_mod_cast hbounds.1
  have hhigh : (2 * num : ℚ) ≤ 2 * (den * roundDiv num den) + den := by exact_mod_cast hbounds.2
  constructor
  · rw [le_div_iff₀ hdenQ]
    linarith
  · rw [div_le_iff₀ hdenQ]
    linarith

/-- A quotient is rounded to a magnitude below infinity if it is below `overflow`. -/
theorem ratioBits_lt {num den : Nat} (hnum : 0 < num) (hden : 0 < den)
    (hsmall : (num : ℚ) / den < overflow) : ratioBits num den < infinityBits := by
  obtain ⟨e, hexponent, hlow, hhigh⟩ := exponentFor_eq hnum hden
  let q := max e leastExponent
  have hround := (roundDiv_near (scaleBinary num den q).1 (scaleBinary_pos num hden q)).1
  rw [scaleBinary_eq] at hround
  let k := roundDiv (scaleBinary num den q).1 (scaleBinary num den q).2
  have hbits : ratioBits num den = min ((q - leastExponent).toNat * hiddenBit + k) infinityBits := by
    unfold ratioBits
    rw [if_neg hnum.ne', hexponent]
  -- the significand has 53 bits at most, also where the exponent is the least one
  have hscaled : (num : ℚ) / den / 2 ^ q < 2 ^ 53 := by
    refine lt_of_le_of_lt ?_ hhigh
    exact div_le_div_of_nonneg_left (by positivity) (zpow_pos two_pos _)
      (zpow_le_zpow_right₀ one_le_two (le_max_left _ _))
  have hk : k ≤ 2 ^ 53 := by
    have hkQ : (k : ℚ) < 2 ^ 53 + 1 := by linarith
    have hkN : k < 2 ^ 53 + 1 := by exact_mod_cast hkQ
    omega
  have he : e ≤ 971 := by
    by_contra hgt
    have hpow : (2 : ℚ) ^ ((971 : ℤ) + 1) ≤ 2 ^ e := zpow_le_zpow_right₀ one_le_two (by omega)
    rw [zpow_add_one₀ two_ne_zero] at hpow
    rw [le_div_iff₀ (zpow_pos two_pos _)] at hlow
    rw [overflow_eq] at hsmall
    have hpos : (0 : ℚ) < 2 ^ (971 : ℤ) := zpow_pos two_pos _
    generalize (2 : ℚ) ^ (971 : ℤ) = unit at hpow hsmall hpos
    linarith
  have hq : q ≤ 971 := max_le he (by decide)
  rw [hbits, infinityBits_eq, hiddenBit_eq]
  refine Nat.lt_of_le_of_lt (Nat.min_le_left _ _) ?_
  unfold leastExponent at *
  by_cases hlast : q = 971
  · -- in front of the last power of two there is half a gap less
    have hbelow : (num : ℚ) / den / 2 ^ q < 2 ^ 53 - 1 / 2 := by
      rw [div_lt_iff₀ (zpow_pos two_pos _), hlast, ← overflow_eq]
      exact hsmall
    have hkQ : (k : ℚ) < 2 ^ 53 := by linarith
    have hkN : k < 2 ^ 53 := by exact_mod_cast hkQ
    omega
  · omega

/-- A quotient is rounded to infinity from `overflow` on. -/
theorem ratioBits_infinity {num den : Nat} (hnum : 0 < num) (hden : 0 < den)
    (hlarge : overflow ≤ (num : ℚ) / den) : ratioBits num den = infinityBits := by
  obtain ⟨e, hexponent, hlow, hhigh⟩ := exponentFor_eq hnum hden
  have he : 971 ≤ e := by
    by_contra hlt
    have hpow : (2 : ℚ) ^ e ≤ 2 ^ ((971 : ℤ) - 1) := zpow_le_zpow_right₀ one_le_two (by omega)
    rw [zpow_sub_one₀ two_ne_zero] at hpow
    rw [div_lt_iff₀ (zpow_pos two_pos _)] at hhigh
    rw [overflow_eq] at hlarge
    have hpos : (0 : ℚ) < 2 ^ (971 : ℤ) := zpow_pos two_pos _
    generalize (2 : ℚ) ^ (971 : ℤ) = unit at hpow hlarge hpos
    linarith
  have hmax : max e leastExponent = e := max_eq_left (le_trans (by decide) he)
  rw [hmax] at hexponent
  obtain ⟨-, hround⟩ := roundDiv_near (scaleBinary num den e).1 (scaleBinary_pos num hden e)
  rw [scaleBinary_eq] at hround
  let k := roundDiv (scaleBinary num den e).1 (scaleBinary num den e).2
  have hbits : ratioBits num den = min ((e - leastExponent).toNat * hiddenBit + k) infinityBits := by
    unfold ratioBits
    rw [if_neg hnum.ne', hexponent]
  rw [hbits, infinityBits_eq, hiddenBit_eq]
  refine Nat.min_eq_right ?_
  unfold leastExponent
  by_cases hlast : e = 971
  · -- half a gap in front of the last power of two is rounded up to it
    have habove : (2 : ℚ) ^ 53 - 1 / 2 ≤ num / den / 2 ^ e := by
      rw [le_div_iff₀ (zpow_pos two_pos _), hlast, ← overflow_eq]
      exact hlarge
    have hk : k = 2 ^ 53 := by
      refine roundDiv_eq (scaleBinary_pos num hden e) ?_ ?_ fun hodd => absurd hodd (by decide)
      · rw [scaleBinary_eq]
        exact_mod_cast habove
      · rw [scaleBinary_eq]
        push_cast
        linarith
    omega
  · have hkQ : (2 : ℚ) ^ 52 < k + 1 := by linarith
    have hkN : 2 ^ 52 < k + 1 := by exact_mod_cast hkQ
    omega

theorem isFinite_ofRatio {num den : Nat} (hden : 0 < den) :
    isFinite (ofRatio false num den) = true ↔ (num : ℚ) / den < overflow := by
  have hpos : 0 < overflow := by
    rw [overflow_eq]
    exact mul_pos (by norm_num) (zpow_pos two_pos _)
  rcases Nat.eq_zero_or_pos num with rfl | hnum
  · have hzero : ratioBits 0 den = 0 := if_pos rfl
    unfold ofRatio
    rw [hzero, Nat.cast_zero, zero_div]
    exact iff_of_true (isFinite_ofSignedBits (by decide)) hpos
  unfold ofRatio
  by_cases hsmall : (num : ℚ) / den < overflow
  · exact iff_of_true (isFinite_ofSignedBits (ratioBits_lt hnum hden hsmall)) hsmall
  · rw [ratioBits_infinity hnum hden (not_lt.mp hsmall), not_isFinite_infinity]
    exact iff_of_false Bool.false_ne_true hsmall

/-- **A numeral is read as a number exactly if its value is below `overflow`.** -/
theorem isFinite_read?_numeral {whole fraction : List Char} (hwhole : Digits whole)
    (hfraction : ∀ c ∈ fraction, c.isDigit = true) :
    ∃ x, read? (String.ofList (numeral whole fraction)) = some x ∧
      (isFinite x = true ↔ numeralValue whole fraction < overflow) := by
  refine ⟨_, read?_numeral hwhole hfraction, ?_⟩
  let digits := digitsValue (digitsValue 0 whole) fraction
  have hvalue : numeralValue whole fraction = (digits : ℚ) / (10 ^ fraction.length : Nat) := by
    unfold numeralValue
    rw [zpow_neg, zpow_natCast, ← div_eq_mul_inv]
    push_cast
    rfl
  have hratio : ofDecimal false digits (whole.length + fraction.length)
      (0 - Int.ofNat fraction.length) = ofRatio false digits (10 ^ fraction.length) := by
    by_cases hzero : digits = 0
    · have hbits : ratioBits digits (10 ^ fraction.length) = 0 := if_pos hzero
      unfold ofDecimal ofRatio
      rw [if_pos hzero, hbits]
    unfold ofDecimal exponentCap
    rw [if_neg hzero, Int.ofNat_eq_natCast, Int.ofNat_eq_natCast, if_neg (by omega),
      if_neg (by omega)]
    cases hlength : fraction.length with
    | zero =>
        show ofRatio false (digits * 1) 1 = _
        rw [Nat.mul_one, Nat.pow_zero]
    | succ n =>
        rw [show (0 : Int) - ((n + 1 : Nat) : Int) = Int.negSucc n by omega]
        rfl
  rw [hratio, isFinite_ofRatio (by positivity), hvalue]

end Lipi.Number
