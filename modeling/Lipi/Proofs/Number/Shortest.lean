import Lipi.Proofs.Number.Rounding

set_option autoImplicit false

/-! # The shortest decimal of a double is near it

The search for the shortest decimal stops at the first grid of decimals on which a neighbour of the
value lies in the interval of the numbers that are rounded to it. **It stops at seventeen digits at
the latest**: on that grid the decimals are closer together than the ends of the interval are, since
`2 ^ 53 < 10 ^ 16`. Hence the decimal that is found is near the double (`shortest_near`).
-/

namespace Lipi.Number

/-! ## Intervals as sets of numbers -/

namespace Interval

/-- What an interval stands for: its value is `value`, and it reaches from `low` to `high`. -/
structure Spans (i : Interval) (low value high : ℚ) : Prop where
  unit_pos : 0 < i.unit
  low_eq : (i.low : ℚ) / i.unit = low
  value_eq : (i.value : ℚ) / i.unit = value
  high_eq : (i.high : ℚ) / i.unit = high

theorem spans_ofBinary {m : Nat} (q : Int) (hm : 0 < m) :
    (ofBinary m q).Spans ((m - halfGapBelow m q) * 2 ^ q) (m * 2 ^ q) ((m + 1 / 2) * 2 ^ q) := by
  have hquarter : (2 : ℚ) ^ q = 2 ^ (q - 2) * 4 := by
    rw [zpow_sub₀ two_ne_zero]
    norm_num
  -- below a power of two the gap is half as long as above it
  have hbelow : ((4 * m - (if m = hiddenBit ∧ leastExponent < q then 1 else 2) : Nat) : ℚ)
      = 4 * (m - halfGapBelow m q) := by
    unfold halfGapBelow
    split
    · rw [Nat.cast_sub (by omega)]
      push_cast
      ring
    · rw [Nat.cast_sub (by omega)]
      push_cast
      ring
  unfold ofBinary
  dsimp only
  rw [hquarter]
  -- quarters of a unit are whole numbers, or the unit of the interval is made small enough
  cases hq : q - 2 with
  | ofNat n =>
      refine ⟨Nat.one_pos, ?_, ?_, ?_⟩
      all_goals
        dsimp only
        rw [Int.ofNat_eq_natCast, zpow_natCast, Nat.shiftLeft_eq, Nat.cast_mul]
        push_cast
        try rw [hbelow]
        ring
  | negSucc n =>
      simp only [Nat.one_shiftLeft]
      refine ⟨Nat.two_pow_pos _, ?_, ?_, ?_⟩
      all_goals
        dsimp only
        rw [zpow_negSucc]
        push_cast
        try rw [hbelow]
        ring

theorem Spans.rescale {i : Interval} {low value high : ℚ} (h : i.Spans low value high) (k : Int) :
    (i.rescale k).Spans (low / 10 ^ k) (value / 10 ^ k) (high / 10 ^ k) := by
  have hunit : ((i.unit : Nat) : ℚ) ≠ 0 := by exact_mod_cast h.unit_pos.ne'
  rw [← h.low_eq, ← h.value_eq, ← h.high_eq]
  unfold Interval.rescale
  simp only [Nat.pow_eq]
  cases k with
  | ofNat n =>
      refine ⟨Nat.mul_pos h.unit_pos (by positivity), ?_, ?_, ?_⟩
      all_goals
        dsimp only
        rw [Int.ofNat_eq_natCast, zpow_natCast]
        push_cast
        rw [div_div]
  | negSucc n =>
      refine ⟨h.unit_pos, ?_, ?_, ?_⟩
      all_goals
        dsimp only
        rw [zpow_negSucc]
        push_cast
        rw [div_inv_eq_mul, div_mul_eq_mul_div]

theorem Spans.contains_iff {i : Interval} {low value high : ℚ} (h : i.Spans low value high)
    (c : Nat) : i.contains c = true ↔
      if i.closed then low ≤ c ∧ (c : ℚ) ≤ high else low < c ∧ (c : ℚ) < high := by
  have hunit : (0 : ℚ) < i.unit := by exact_mod_cast h.unit_pos
  rw [← h.low_eq, ← h.high_eq]
  unfold Interval.contains
  split
  · rw [decide_eq_true_iff, div_le_iff₀ hunit, le_div_iff₀ hunit]
    exact_mod_cast Iff.rfl
  · rw [decide_eq_true_iff, div_lt_iff₀ hunit, lt_div_iff₀ hunit]
    exact_mod_cast Iff.rfl

/-- An interval that is longer than one contains a neighbour of its value. -/
theorem Spans.nearest?_isSome {i : Interval} {low value high : ℚ} (h : i.Spans low value high)
    (hlow : low < value) (hhigh : value < high) (hlong : 1 < high - low) :
    i.nearest?.isSome = true := by
  have hunit : (0 : ℚ) < i.unit := by exact_mod_cast h.unit_pos
  let below := i.value / i.unit
  have hbelow : ((below : Nat) : ℚ) ≤ value := by
    rw [← h.value_eq, le_div_iff₀ hunit]
    exact_mod_cast Nat.div_mul_le_self i.value i.unit
  have habove : value < ((below + 1 : Nat) : ℚ) := by
    rw [← h.value_eq, ← div_lt_iff_ratio_lt h.unit_pos]
    exact Nat.lt_succ_self _
  -- a neighbour outside of the interval is at its end or beyond it
  have hfirst : i.contains below = false → ((below : Nat) : ℚ) ≤ low := by
    intro hout
    have hnot := mt (h.contains_iff below).mpr (by rw [hout]; exact Bool.false_ne_true)
    by_contra hin
    apply hnot
    split
    · exact ⟨by linarith, by linarith⟩
    · exact ⟨by linarith, by linarith⟩
  have hsecond : i.contains (below + 1) = false → high ≤ ((below + 1 : Nat) : ℚ) := by
    intro hout
    have hnot := mt (h.contains_iff (below + 1)).mpr (by rw [hout]; exact Bool.false_ne_true)
    by_contra hin
    apply hnot
    split
    · exact ⟨by linarith, by linarith⟩
    · exact ⟨by linarith, by linarith⟩
  unfold Interval.nearest?
  dsimp only
  cases h1 : i.contains below with
  | true => cases i.contains (below + 1) <;> rfl
  | false =>
      cases h2 : i.contains (below + 1) with
      | true => rfl
      | false =>
          -- if both neighbours are outside, the interval has at most their distance, which is one
          have hlow' := hfirst h1
          have hhigh' := hsecond h2
          push_cast at hhigh'
          linarith

/-- What the search picks on a grid lies in the interval. -/
theorem contains_of_nearest? {i : Interval} {c : Nat} (h : i.nearest? = some c) :
    i.contains c = true := by
  unfold Interval.nearest? at h
  dsimp only at h
  split at h
  · next h1 h2 =>
    split at h
    · cases h
      exact h1
    · cases h
      exact h2
  · next h1 _ =>
    cases h
    exact h1
  · next _ h2 =>
    cases h
    exact h2
  · cases h

/-- The search ends on a grid where it picks something, if there is one on its way. -/
theorem search_contains (i : Interval) (magnitude : Int) (steps n : Nat)
    (h : ∃ j < steps, (i.rescale (magnitude - Int.ofNat (n + j))).nearest?.isSome = true) :
    (i.rescale (i.search magnitude steps n).exponent).contains
      (i.search magnitude steps n).digits = true := by
  induction steps generalizing n with
  | zero =>
      obtain ⟨j, hj, _⟩ := h
      omega
  | succ steps ih =>
      rw [Interval.search]
      cases hpick : (i.rescale (magnitude - Int.ofNat n)).nearest? with
      | some c => exact contains_of_nearest? hpick
      | none =>
          refine ih (n + 1) ?_
          obtain ⟨j, hj, hsome⟩ := h
          cases j with
          | zero =>
              rw [Nat.add_zero, hpick] at hsome
              cases hsome
          | succ j =>
              have hplace : n + 1 + j = n + (j + 1) := by omega
              refine ⟨j, by omega, ?_⟩
              rw [hplace]
              exact hsome

/-! ## The magnitude -/

theorem lt_pow_decimalLength (n : Nat) : n < 10 ^ decimalLength n :=
  (Nat.length_toDigits_le_iff (by decide) Nat.length_toDigits_pos).mp (Nat.le_refl _)

theorem pow_decimalLength_le {n : Nat} (hn : 0 < n) : 10 ^ (decimalLength n - 1) ≤ n := by
  by_cases hone : decimalLength n - 1 = 0
  · rw [hone]
    exact hn
  · by_contra hlt
    have hle : decimalLength n ≤ decimalLength n - 1 :=
      (Nat.length_toDigits_le_iff (by decide) (by omega)).mpr (by omega)
    omega

/-- The leading digit of the value stands where the magnitude says, or further to the left. -/
theorem Spans.magnitude_le {i : Interval} {low value high : ℚ} (h : i.Spans low value high)
    (hvalue : 0 < i.value) : (10 : ℚ) ^ (i.magnitude - 1) ≤ value := by
  have hunit : (0 : ℚ) < i.unit := by exact_mod_cast h.unit_pos
  have hvalueQ : (0 : ℚ) < i.value := by exact_mod_cast hvalue
  rw [← h.value_eq]
  unfold Interval.magnitude
  split
  · next hge =>
    -- the value is at least one: the digits in front of the point are counted
    have hpos : 0 < i.value / i.unit := Nat.div_pos hge h.unit_pos
    have hlength : 1 ≤ decimalLength (i.value / i.unit) := Nat.length_toDigits_pos
    have hpow := pow_decimalLength_le hpos
    have hexponent : Int.ofNat (decimalLength (i.value / i.unit)) - 1
        = ((decimalLength (i.value / i.unit) - 1 : Nat) : Int) := by
      rw [Int.ofNat_eq_natCast]
      omega
    rw [hexponent, zpow_natCast, le_div_iff₀ hunit]
    have hmul : 10 ^ (decimalLength (i.value / i.unit) - 1) * i.unit ≤ i.value :=
      le_trans (Nat.mul_le_mul_right _ hpow) (Nat.div_mul_le_self _ _)
    exact_mod_cast hmul
  · next hlt =>
    -- the value is below one: the zeros behind the point are counted
    have hpow := lt_pow_decimalLength ((i.unit - 1) / i.value)
    have hexponent : 1 - Int.ofNat (decimalLength ((i.unit - 1) / i.value)) - 1
        = -(decimalLength ((i.unit - 1) / i.value) : Int) := by
      rw [Int.ofNat_eq_natCast]
      omega
    rw [hexponent, zpow_neg, zpow_natCast, le_div_iff₀ hunit, inv_mul_le_iff₀ (by positivity)]
    rw [Nat.div_lt_iff_lt_mul hvalue] at hpow
    have hmul : i.unit ≤ 10 ^ decimalLength ((i.unit - 1) / i.value) * i.value := by omega
    exact_mod_cast hmul

/-- **On the grid of seventeen digits there is always something to pick.** -/
theorem seventeen_digits {m : Nat} {q : Int} (hm : 0 < m) (hsmall : m < 2 ^ 53) :
    ((ofBinary m q).rescale ((ofBinary m q).magnitude - 17)).nearest?.isSome = true := by
  have hspans := spans_ofBinary q hm
  have hmQ : (0 : ℚ) < m := by exact_mod_cast hm
  have hsmallQ : (m : ℚ) < 2 ^ 53 := by exact_mod_cast hsmall
  have hpow : (0 : ℚ) < 2 ^ q := zpow_pos two_pos _
  let grid : ℚ := 10 ^ ((ofBinary m q).magnitude - 17)
  have hgrid : (0 : ℚ) < grid := zpow_pos (by norm_num) _
  have hvalue : 0 < (ofBinary m q).value := by
    have hratio := hspans.value_eq
    by_contra hzero
    have hzero' : (ofBinary m q).value = 0 := by omega
    rw [hzero', Nat.cast_zero, zero_div] at hratio
    have : (0 : ℚ) < m * 2 ^ q := by positivity
    linarith
  have hleading : grid * 10 ^ 16 ≤ m * 2 ^ q := by
    have hshift : (10 : ℚ) ^ ((ofBinary m q).magnitude - 1) = grid * 10 ^ 16 := by
      have hsplit : (ofBinary m q).magnitude - 1 = ((ofBinary m q).magnitude - 17) + 16 := by omega
      rw [hsplit, zpow_add₀ (by norm_num)]
      norm_num [grid]
    rw [← hshift]
    exact hspans.magnitude_le hvalue
  have hgapPos : (0 : ℚ) < halfGapBelow m q := by
    unfold halfGapBelow
    split <;> norm_num
  -- seventeen digits are more than a significand has
  have hdense : (m : ℚ) < (1 / 2 + halfGapBelow m q) * 10 ^ 16 := by
    unfold halfGapBelow
    split
    · next hhidden =>
      rw [hhidden.1]
      norm_num [hiddenBit_eq]
    · norm_num
      linarith
  refine (hspans.rescale _).nearest?_isSome ?_ ?_ ?_
  · refine div_lt_div_of_pos_right ?_ hgrid
    exact mul_lt_mul_of_pos_right (by linarith) hpow
  · refine div_lt_div_of_pos_right ?_ hgrid
    exact mul_lt_mul_of_pos_right (by linarith) hpow
  · rw [← sub_div, lt_div_iff₀ hgrid, one_mul]
    have hbound : grid * 10 ^ 16 < (1 / 2 + halfGapBelow m q) * 2 ^ q * 10 ^ 16 := by
      calc grid * 10 ^ 16 ≤ m * 2 ^ q := hleading
        _ < (1 / 2 + halfGapBelow m q) * 10 ^ 16 * 2 ^ q := mul_lt_mul_of_pos_right hdense hpow
        _ = (1 / 2 + halfGapBelow m q) * 2 ^ q * 10 ^ 16 := by ring
    have hgrid' : grid < (1 / 2 + halfGapBelow m q) * 2 ^ q :=
      lt_of_mul_lt_mul_right hbound (by positivity)
    calc grid < (1 / 2 + halfGapBelow m q) * 2 ^ q := hgrid'
      _ = (m + 1 / 2) * 2 ^ q - (m - halfGapBelow m q) * 2 ^ q := by ring

end Interval

/-! ## The shortest decimal -/

/-- The number that a decimal stands for. -/
def Decimal.value (d : Decimal) : ℚ :=
  d.digits * 10 ^ d.exponent

/-- Trailing zeros can be moved into the exponent. -/
theorem Decimal.value_trim (steps : Nat) (d : Decimal) : (d.trim steps).value = d.value := by
  induction steps generalizing d with
  | zero => rfl
  | succ steps ih =>
      rw [Decimal.trim]
      split
      · next hzero =>
        rw [ih]
        have hdigits : (d.digits : ℚ) = 10 * ((d.digits / 10 : Nat) : ℚ) := by
          have hten : d.digits = 10 * (d.digits / 10) := by omega
          exact_mod_cast hten
        unfold Decimal.value
        dsimp only
        rw [zpow_add_one₀ (by norm_num), hdigits]
        ring
      · rfl

/-- **The shortest decimal of a double is near it.** -/
theorem shortest_near {m : Nat} {q : Int} (hm : 0 < m) (hsmall : m < 2 ^ 53) :
    0 < (shortest m q).digits ∧ Near m q ((shortest m q).value / 2 ^ q) := by
  have hpow : (0 : ℚ) < 2 ^ q := zpow_pos two_pos _
  let i := Interval.ofBinary m q
  let d := i.search i.magnitude 17 1
  have hspans : i.Spans _ _ _ := Interval.spans_ofBinary q hm
  have hcontains : (i.rescale d.exponent).contains d.digits = true :=
    i.search_contains i.magnitude 17 1 ⟨16, by omega, Interval.seventeen_digits hm hsmall⟩
  have hten : (0 : ℚ) < 10 ^ d.exponent := zpow_pos (by norm_num) _
  have hclosed : (i.rescale d.exponent).closed = (m % 2 == 0) := by
    have hkeep : (i.rescale d.exponent).closed = i.closed := by
      unfold Interval.rescale
      split <;> rfl
    rw [hkeep]
    show (Interval.ofBinary m q).closed = _
    unfold Interval.ofBinary
    dsimp only
    split <;> rfl
  -- from the grid back to multiples of `2 ^ q`
  have hdown : ∀ a : ℚ, a * 2 ^ q / 10 ^ d.exponent ≤ d.digits ↔ a ≤ d.value / 2 ^ q := by
    intro a
    rw [div_le_iff₀ hten, le_div_iff₀ hpow]
    rfl
  have hup : ∀ a : ℚ, d.digits ≤ a * 2 ^ q / 10 ^ d.exponent ↔ d.value / 2 ^ q ≤ a := by
    intro a
    rw [le_div_iff₀ hten, div_le_iff₀ hpow]
    rfl
  rw [(hspans.rescale d.exponent).contains_iff, hclosed] at hcontains
  have hnear : Near m q (d.value / 2 ^ q) := by
    by_cases heven : m % 2 = 0
    · rw [heven] at hcontains
      exact ⟨(hdown _).mp hcontains.1, (hup _).mp hcontains.2, fun hodd => by omega⟩
    · have hne : (m % 2 == 0) = false := by simpa using heven
      rw [hne, if_neg Bool.false_ne_true] at hcontains
      have h1 : (m : ℚ) - halfGapBelow m q < d.value / 2 ^ q := by
        rw [← not_le, ← hup, not_le]
        exact hcontains.1
      have h2 : d.value / 2 ^ q < m + 1 / 2 := by
        rw [← not_le, ← hdown, not_le]
        exact hcontains.2
      exact ⟨h1.le, h2.le, fun _ => ⟨h1, h2⟩⟩
  have hvalue : (shortest m q).value = d.value := Decimal.value_trim 17 d
  rw [hvalue]
  refine ⟨?_, hnear⟩
  -- zero is not near any double but zero
  by_contra hzero
  have hdigits : (shortest m q).digits = 0 := by omega
  have hnothing : d.value = 0 := by
    rw [← hvalue]
    unfold Decimal.value
    rw [hdigits, Nat.cast_zero, zero_mul]
  have hlow := hnear.low
  rw [hnothing, zero_div] at hlow
  have hgap := halfGapBelow_le m q
  have hmQ : (1 : ℚ) ≤ m := by exact_mod_cast hm
  linarith

end Lipi.Number
