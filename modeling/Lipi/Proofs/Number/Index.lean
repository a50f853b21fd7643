import Lipi.Proofs.Number.Rounding

set_option autoImplicit false

/-! # Numbers as indices

A finite double has an exact value. **A double is an index exactly if its value is a natural number
not above `maxIndex`** (`toIndex?_iff`), and every such number is the value of a double
(`value?_ofNat`), so that up to there counts are exact.
-/

namespace Lipi.Number

/-- The exact value of a double that is finite. -/
def value? (x : Float) : Option ℚ :=
  match Parts.ofFloat x with
  | .finite negative m q => some ((if negative then -1 else 1) * (m * 2 ^ q))
  | _ => none

/-! ## Whole numbers -/

theorem whole?_iff {m i : Nat} {q : Int} : whole? m q = some i ↔ (m * 2 ^ q : ℚ) = i := by
  cases q with
  | ofNat n =>
      have hvalue : (m * 2 ^ Int.ofNat n : ℚ) = ((m <<< n : Nat) : ℚ) := by
        rw [Int.ofNat_eq_natCast, zpow_natCast, Nat.shiftLeft_eq]
        push_cast
        rfl
      rw [hvalue, Nat.cast_inj]
      exact Option.some_inj
  | negSucc n =>
      have hpos : (0 : ℚ) < 2 ^ (n + 1) := by positivity
      -- the value is `i` if and only if `m` is `i` times the power of two
      have hvalue : (m * 2 ^ Int.negSucc n : ℚ) = i ↔ m = i * 2 ^ (n + 1) := by
        rw [zpow_negSucc, ← div_eq_mul_inv, div_eq_iff hpos.ne']
        exact_mod_cast Iff.rfl
      rw [hvalue]
      show (if m % (1 <<< (n + 1)) = 0 then some (m >>> (n + 1)) else none) = some i ↔ _
      rw [Nat.one_shiftLeft, Nat.shiftRight_eq_div_pow]
      by_cases hdvd : m % 2 ^ (n + 1) = 0
      · rw [if_pos hdvd, Option.some_inj, Nat.div_eq_iff_eq_mul_left (Nat.two_pow_pos _)
          (Nat.dvd_of_mod_eq_zero hdvd)]
      · rw [if_neg hdvd]
        refine ⟨fun h => (nomatch h), ?_⟩
        rintro rfl
        exact absurd (Nat.mul_mod_left i (2 ^ (n + 1))) hdvd

/-- **Which doubles are indices.** -/
theorem toIndex?_iff {x : Float} {i : Nat} :
    toIndex? x = some i ↔ value? x = some (i : ℚ) ∧ i ≤ maxIndex := by
  unfold toIndex? value?
  cases Parts.ofFloat x with
  | nan | infinite negative => simp
  | finite negative m q =>
      have hpow : (0 : ℚ) < 2 ^ q := zpow_pos two_pos q
      have hi : (0 : ℚ) ≤ i := Nat.cast_nonneg i
      dsimp only
      rw [Option.some_inj]
      by_cases hbelow : (negative && m != 0) = true
      · obtain ⟨rfl, hm⟩ := Bool.and_eq_true_iff.mp hbelow
        have hm' : (0 : ℚ) < m := by exact_mod_cast Nat.pos_of_ne_zero (bne_iff_ne.mp hm)
        have hpos : (0 : ℚ) < m * 2 ^ q := mul_pos hm' hpow
        rw [if_pos hbelow, if_pos rfl]
        refine ⟨fun h => (nomatch h), fun h => ?_⟩
        linarith [h.1]
      · -- a sign makes no difference to a zero
        have hsign : ((if negative then -1 else 1) * (m * 2 ^ q) : ℚ) = m * 2 ^ q := by
          cases negative with
          | false => rw [if_neg Bool.false_ne_true, one_mul]
          | true =>
              have hm : m = 0 := by simpa using hbelow
              rw [hm]
              simp
        rw [if_neg hbelow, hsign, Option.filter_eq_some_iff, whole?_iff, decide_eq_true_iff]

/-! ## Counts -/

/-- Significand and exponent are those of one double only. -/
theorem Standard.unique {m m' : Nat} {q q' : Int} (h : Standard m q) (h' : Standard m' q')
    (hbits : (q - leastExponent).toNat * 2 ^ 52 + m = (q' - leastExponent).toNat * 2 ^ 52 + m') :
    m = m' ∧ q = q' := by
  obtain ⟨hsmall, hleast, hnormal⟩ := h
  obtain ⟨hsmall', hleast', hnormal'⟩ := h'
  rw [hiddenBit_eq] at hnormal hnormal'
  omega

theorem near_self (m : Nat) (q : Int) : Near m q m := by
  have hgap : 0 < halfGapBelow m q := by
    unfold halfGapBelow
    split <;> norm_num
  exact ⟨by linarith, by linarith, fun _ => ⟨by linarith, by linarith⟩⟩

/-- A natural number up to `maxIndex` is the value of a double with 53 bits. -/
theorem ofFloat_ofNat {n : Nat} (hpos : 0 < n) (hn : n ≤ maxIndex) :
    Parts.ofFloat (ofNat n) =
      .finite false (n * 2 ^ (52 - n.log2)) (-((52 - n.log2 : Nat) : ℤ)) := by
  have hlog : n.log2 ≤ 52 := by
    have hlt : n < 2 ^ 53 := Nat.lt_of_le_of_lt hn (by decide)
    have := (Nat.log2_lt hpos.ne').mpr hlt
    omega
  -- shifted by `k` places the number has 53 bits
  generalize hk : 52 - n.log2 = k
  have hlow : 2 ^ 52 ≤ n * 2 ^ k := by
    calc 2 ^ 52 = 2 ^ n.log2 * 2 ^ k := by rw [← pow_add]; congr 1; omega
      _ ≤ n * 2 ^ k := Nat.mul_le_mul_right _ (Nat.log2_self_le hpos.ne')
  have hhigh : n * 2 ^ k < 2 ^ 53 := by
    calc n * 2 ^ k < 2 ^ (n.log2 + 1) * 2 ^ k :=
          Nat.mul_lt_mul_of_pos_right Nat.lt_log2_self (Nat.two_pow_pos k)
      _ = 2 ^ 53 := by rw [← pow_add]; congr 1; omega
  have hstandard : Standard (n * 2 ^ k) (-(k : ℤ)) := by
    refine ⟨hhigh, ?_, .inl hlow⟩
    unfold leastExponent
    omega
  have hvalue : ((n : Nat) : ℚ) / (1 : Nat) / 2 ^ (-(k : ℤ)) = ((n * 2 ^ k : Nat) : ℚ) := by
    rw [zpow_neg, zpow_natCast]
    push_cast
    field_simp
  have hfinite : (-(k : ℤ) - leastExponent).toNat * 2 ^ 52 + n * 2 ^ k < infinityBits := by
    rw [infinityBits_eq]
    unfold leastExponent
    omega
  -- nothing is rounded
  have hbits : ratioBits n 1 = (-(k : ℤ) - leastExponent).toNat * 2 ^ 52 + n * 2 ^ k :=
    ratioBits_eq hpos Nat.one_pos hstandard (hvalue ▸ near_self _ _) hfinite
  obtain ⟨m, q, hparts, hstandard', heq⟩ := ofBits_eq hfinite
  obtain ⟨rfl, rfl⟩ := hstandard.unique hstandard' heq
  unfold ofNat ofRatio
  rw [hbits, ofFloat_ofSignedBits hfinite, hparts]

/-- **A count up to `maxIndex` is exact as a number.** -/
theorem value?_ofNat {n : Nat} (hn : n ≤ maxIndex) : value? (ofNat n) = some (n : ℚ) := by
  unfold value?
  rcases Nat.eq_zero_or_pos n with rfl | hpos
  · have hzero : Parts.ofFloat (ofNat 0) = .finite false 0 leastExponent := by
      show Parts.ofFloat (ofSignedBits false 0) = _
      rw [ofFloat_ofSignedBits (by decide)]
      decide
    rw [hzero]
    simp
  · rw [ofFloat_ofNat hpos hn]
    dsimp only
    rw [if_neg Bool.false_ne_true, one_mul, zpow_neg, zpow_natCast]
    push_cast
    rw [mul_assoc, mul_inv_cancel₀ (by positivity), mul_one]

end Lipi.Number
