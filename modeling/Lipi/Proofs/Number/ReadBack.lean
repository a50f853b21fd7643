import Lipi.Proofs.Number.Shortest

set_option autoImplicit false

/-! # Numbers read back

The text of a magnitude below infinity is a numeral: digits, and a point with further digits behind
it if there are any. **Reading it gives the same double** (`read?_text`), because the numeral denotes
the shortest decimal of the double, which is near it.
-/

namespace Lipi.Number

/-! ## Numerals -/

/-- Digits with a point between them, which is left out where nothing follows it. -/
def numeral (whole fraction : List Char) : List Char :=
  if fraction.isEmpty then whole else whole ++ '.' :: fraction

theorem numeral_nil (whole : List Char) : numeral whole [] = whole := rfl

theorem numeral_cons (whole : List Char) (d : Char) (ds : List Char) :
    numeral whole (d :: ds) = whole ++ '.' :: d :: ds := rfl

/-- The number that a numeral denotes. -/
def numeralValue (whole fraction : List Char) : ℚ :=
  digitsValue (digitsValue 0 whole) fraction * 10 ^ (-(fraction.length : ℤ))

/-- A run of digits, of which there is at least one. -/
structure Digits (ds : List Char) : Prop where
  nonempty : ds ≠ []
  digit : ∀ c ∈ ds, c.isDigit = true

theorem digits_zero : Digits ['0'] :=
  ⟨List.cons_ne_nil _ _, List.all_eq_true.mp rfl⟩

theorem spanDigits_append {ds : List Char} (rest : List Char) (hds : ∀ c ∈ ds, c.isDigit = true)
    (hrest : ∀ c cs, rest = c :: cs → c.isDigit = false) :
    spanDigits (ds ++ rest) = (ds, rest) := by
  have hstop : rest.takeWhile Char.isDigit = [] ∧ rest.dropWhile Char.isDigit = rest := by
    cases rest with
    | nil => exact ⟨rfl, rfl⟩
    | cons c cs =>
        have hc := hrest c cs rfl
        exact ⟨List.takeWhile_cons_of_neg (by simp [hc]), List.dropWhile_cons_of_neg (by simp [hc])⟩
  unfold spanDigits
  rw [List.span_eq_takeWhile_dropWhile, List.takeWhile_append_of_pos hds,
    List.dropWhile_append_of_pos hds, hstop.1, hstop.2, List.append_nil]

theorem toLower_digit {c : Char} (hc : c.isDigit = true) : c.toLower = c := by
  have hupper : ¬ (c.val ≥ 'A'.val ∧ c.val ≤ 'Z'.val) := by
    simp only [Char.isDigit, Bool.and_eq_true, decide_eq_true_eq] at hc
    rintro ⟨hA, _⟩
    have hsmall := hc.2
    rw [ge_iff_le, UInt32.le_iff_toNat_le] at hA
    rw [UInt32.le_iff_toNat_le] at hsmall
    have hvalues : 'A'.val.toNat = 65 ∧ '9'.val.toNat = 57 := by decide
    omega
  exact dif_neg hupper

/-- A text that starts with a digit is no word that is a number. -/
theorem readWord?_digit {c : Char} (hc : c.isDigit = true) (cs : List Char) :
    readWord? false (c :: cs) = none := by
  have hword : ∀ w d ds, w.toList = d :: ds → d.isDigit = false →
      String.ofList ((c :: cs).map Char.toLower) ≠ w := by
    intro w d ds hw hd heq
    rw [← heq, String.toList_ofList, List.map_cons, toLower_digit hc] at hw
    injection hw with hhead
    rw [hhead, hd] at hc
    cases hc
  unfold readWord?
  dsimp only
  rw [if_neg, if_neg]
  · exact hword "nan" _ _ rfl rfl
  · rintro (h | h)
    · exact hword "inf" _ _ rfl rfl h
    · exact hword "infinity" _ _ rfl rfl h

theorem readSign_digit {c : Char} (hc : c.isDigit = true) (cs : List Char) :
    readSign (c :: cs) = (false, c :: cs) := by
  unfold readSign
  split
  · next heq =>
    injection heq with hhead
    rw [hhead] at hc
    cases hc
  · next heq =>
    injection heq with hhead
    rw [hhead] at hc
    cases hc
  · rfl

/-- The value of a numeral is the decimal that it denotes, rounded. -/
theorem read?_numeral {whole fraction : List Char} (hwhole : Digits whole)
    (hfraction : ∀ c ∈ fraction, c.isDigit = true) :
    read? (String.ofList (numeral whole fraction)) =
      some (ofDecimal false (digitsValue (digitsValue 0 whole) fraction)
        (whole.length + fraction.length) (0 - Int.ofNat fraction.length)) := by
  obtain ⟨c, cs, hcons⟩ : ∃ c cs, whole = c :: cs := List.exists_cons_of_ne_nil hwhole.nonempty
  have hc : c.isDigit = true := hwhole.digit c (by rw [hcons]; exact List.mem_cons_self)
  have hstart : ∃ rest, numeral whole fraction = c :: rest := by
    unfold numeral
    rw [hcons]
    split <;> exact ⟨_, rfl⟩
  have hempty : whole.isEmpty = false := by
    rw [hcons]
    rfl
  -- the digits are read up to the point, if there is one, and then behind it
  have hunsigned : readUnsigned? false (numeral whole fraction) =
      some (ofDecimal false (digitsValue (digitsValue 0 whole) fraction)
        (whole.length + fraction.length) (0 - Int.ofNat fraction.length)) := by
    unfold readUnsigned?
    cases fraction with
    | nil =>
        have hspan : spanDigits whole = (whole, []) := by
          have := spanDigits_append [] hwhole.digit (fun _ _ h => by cases h)
          rwa [List.append_nil] at this
        rw [numeral_nil, hspan]
        simp only [hempty, Bool.false_and]
        rfl
    | cons d ds =>
        have hspan := spanDigits_append ('.' :: d :: ds) hwhole.digit (fun e es h => by
          injection h with hhead
          rw [← hhead]
          rfl)
        have htail : spanDigits (d :: ds) = (d :: ds, []) := by
          have := spanDigits_append [] hfraction (fun _ _ h => by cases h)
          rwa [List.append_nil] at this
        rw [numeral_cons, hspan]
        simp only [htail, hempty, Bool.false_and]
        rfl
  -- a numeral starts with a digit, and is no sign and no word for a number
  obtain ⟨rest, hrest⟩ := hstart
  unfold read?
  rw [String.toList_ofList, hrest, readSign_digit hc]
  dsimp only
  rw [readWord?_digit hc, ← hrest]
  exact hunsigned

/-! ## Setting digits -/

theorem digitsValue_toDigits (n : Nat) : digitsValue 0 (Nat.toDigits 10 n) = n :=
  Nat.ofDigitChars_ten_toDigits

theorem digitsValue_append (v : Nat) (ds es : List Char) :
    digitsValue v (ds ++ es) = digitsValue (digitsValue v ds) es :=
  Nat.ofDigitChars_append v

theorem digitsValue_zeros (v n : Nat) : digitsValue v (List.replicate n '0') = 10 ^ n * v :=
  Nat.ofDigitChars_replicate_zero

theorem digit_zeros (n : Nat) : ∀ c ∈ List.replicate n '0', c.isDigit = true := by
  intro c hc
  rw [(List.mem_replicate.mp hc).2]
  rfl

/-- The characters are a numeral for the number. -/
def Denotes (cs : List Char) (value : ℚ) : Prop :=
  ∃ whole fraction, cs = numeral whole fraction ∧ Digits whole ∧
    (∀ c ∈ fraction, c.isDigit = true) ∧ numeralValue whole fraction = value

/-- Zeros up to the point. -/
theorem denotes_zeros {ds : List Char} (hds : Digits ds) (n : Nat) :
    Denotes (ds ++ List.replicate n '0') (digitsValue 0 ds * 10 ^ n) := by
  refine ⟨ds ++ List.replicate n '0', [], rfl, ⟨?_, ?_⟩, by simp, ?_⟩
  · simp [hds.nonempty]
  · intro c hc
    rcases List.mem_append.mp hc with hc | hc
    · exact hds.digit c hc
    · exact digit_zeros n c hc
  · unfold numeralValue
    rw [digitsValue_append, digitsValue_zeros]
    simp [digitsValue, mul_comm]

/-- A point between the digits. -/
theorem denotes_point {ds : List Char} (hds : Digits ds) {n : Nat} (hpos : 0 < n)
    (hlt : n < ds.length) :
    Denotes (ds.take n ++ '.' :: ds.drop n) (digitsValue 0 ds * 10 ^ ((n : ℤ) - ds.length)) := by
  obtain ⟨d, rest, hdrop⟩ : ∃ d rest, ds.drop n = d :: rest :=
    List.exists_cons_of_ne_nil (by simpa using hlt)
  refine ⟨ds.take n, ds.drop n, ?_, ⟨?_, ?_⟩, ?_, ?_⟩
  · rw [hdrop, numeral_cons]
  · simp [hds.nonempty, hpos.ne']
  · exact fun c hc => hds.digit c (List.mem_of_mem_take hc)
  · exact fun c hc => hds.digit c (List.mem_of_mem_drop hc)
  · have hexponent : -((ds.drop n).length : ℤ) = n - ds.length := by
      rw [List.length_drop]
      omega
    unfold numeralValue
    rw [← digitsValue_append, List.take_append_drop, hexponent]

/-- A point in front of the digits. -/
theorem denotes_fraction {ds : List Char} (hds : Digits ds) :
    Denotes ('0' :: '.' :: ds) (digitsValue 0 ds * 10 ^ (-(ds.length : ℤ))) := by
  obtain ⟨d, rest, hcons⟩ := List.exists_cons_of_ne_nil hds.nonempty
  refine ⟨['0'], ds, ?_, digits_zero, hds.digit, rfl⟩
  rw [hcons, numeral_cons]
  rfl

/-- Digits with a point somewhere, or with zeros up to it, are a numeral for what they denote. -/
theorem point_plain {ds : List Char} (hds : Digits ds) (before : Int) :
    Denotes (Layout.plain.point ds before) (digitsValue 0 ds * 10 ^ (before - ds.length)) := by
  unfold Layout.point
  cases before with
  | ofNat n =>
      dsimp only
      by_cases hlong : ds.length ≤ n
      · have hexponent : Int.ofNat n - (ds.length : ℤ) = ((n - ds.length : Nat) : ℤ) := by
          rw [Int.ofNat_eq_natCast]
          omega
        rw [if_pos hlong, hexponent, zpow_natCast]
        show Denotes (_ ++ []) _
        rw [List.append_nil]
        exact denotes_zeros hds (n - ds.length)
      · rw [if_neg hlong]
        by_cases hfirst : n = 0
        · rw [if_pos hfirst, hfirst, show Int.ofNat 0 - (ds.length : ℤ) = -ds.length by simp]
          exact denotes_fraction hds
        · rw [if_neg hfirst]
          exact denotes_point hds (by omega) (by omega)
  | negSucc n =>
      have hzeros : Digits (List.replicate (n + 1) '0' ++ ds) := by
        refine ⟨by simp, fun c hc => ?_⟩
        rcases List.mem_append.mp hc with hc | hc
        · exact digit_zeros (n + 1) c hc
        · exact hds.digit c hc
      have hexponent : -((List.replicate (n + 1) '0' ++ ds).length : ℤ)
          = Int.negSucc n - ds.length := by
        rw [List.length_append, List.length_replicate]
        omega
      have hdenotes := denotes_fraction hzeros
      rw [digitsValue_append, digitsValue_zeros, Nat.mul_zero, hexponent] at hdenotes
      exact hdenotes

/-! ## Reading back -/

/-- A decimal near a double is read as the double. -/
theorem ofDecimal_eq {digits count n bits m : Nat} {q : Int} (hdigits : 0 < digits)
    (hcount : n ≤ count) (hstandard : Standard m q)
    (hnear : Near m q ((digits : ℚ) * 10 ^ (-(n : ℤ)) / 2 ^ q))
    (hbits : bits = (q - leastExponent).toNat * 2 ^ 52 + m) (hfinite : bits < infinityBits) :
    ofDecimal false digits count (0 - Int.ofNat n) = ofSignedBits false bits := by
  have hten : 0 < 10 ^ n := by positivity
  have hratio : ratioBits digits (10 ^ n) = bits := by
    rw [hbits]
    refine ratioBits_eq hdigits hten hstandard ?_ (hbits ▸ hfinite)
    rw [zpow_neg, zpow_natCast, ← div_eq_mul_inv] at hnear
    exact_mod_cast hnear
  unfold ofDecimal exponentCap
  rw [if_neg hdigits.ne', Int.ofNat_eq_natCast, Int.ofNat_eq_natCast, if_neg (by omega),
    if_neg (by omega)]
  cases n with
  | zero =>
      show ofRatio false (digits * 1) 1 = _
      rw [Nat.pow_zero] at hratio
      rw [Nat.mul_one, ofRatio, hratio]
  | succ n =>
      have hexponent : (0 : Int) - ((n + 1 : Nat) : Int) = Int.negSucc n := by omega
      rw [hexponent]
      show ofRatio false digits (Nat.pow 10 (n + 1)) = _
      rw [Nat.pow_eq, ofRatio, hratio]

/-- The text of a positive double is its shortest decimal. -/
theorem text_of_parts {x : Float} {m : Nat} {q : Int} (hparts : Parts.ofFloat x = .finite false m q)
    (hm : m ≠ 0) : text x = String.ofList (Layout.plain.decimal (shortest m q)) := by
  obtain ⟨m, rfl⟩ := Nat.exists_eq_succ_of_ne_zero hm
  unfold text Layout.text
  rw [hparts]
  rfl

/-- The numeral of a positive number has digits other than zero. -/
theorem digitsValue_pos {whole fraction : List Char} (h : 0 < numeralValue whole fraction) :
    0 < digitsValue (digitsValue 0 whole) fraction := by
  apply Nat.pos_of_ne_zero
  intro hzero
  unfold numeralValue at h
  rw [hzero] at h
  simp at h

theorem Decimal.value_pos {d : Decimal} (h : 0 < d.digits) : 0 < d.value := by
  have hdigits : (0 : ℚ) < d.digits := by exact_mod_cast h
  exact mul_pos hdigits (zpow_pos (by norm_num) _)

/-- **The text of a magnitude below infinity is a numeral, and reading it gives the same
double.** -/
theorem read?_text {bits : Nat} (h : bits < infinityBits) :
    ∃ whole fraction, (text (ofSignedBits false bits)).toList = numeral whole fraction ∧
      Digits whole ∧ (∀ c ∈ fraction, c.isDigit = true) ∧
      read? (text (ofSignedBits false bits)) = some (ofSignedBits false bits) := by
  obtain ⟨m, q, hparts, hstandard, hbits⟩ := ofBits_eq h
  have hfloat := ofFloat_ofSignedBits h
  rw [hparts] at hfloat
  by_cases hm : m = 0
  · -- zero
    subst hm
    have hzero : bits = 0 := by
      have hq : q = leastExponent := hstandard.normal.resolve_left (by decide)
      rw [hbits, hq, Int.sub_self]
      rfl
    have htext : text (ofSignedBits false bits) = String.ofList (numeral ['0'] []) := by
      unfold text
      rw [hfloat]
      rfl
    refine ⟨['0'], [], ?_, digits_zero, by simp, ?_⟩
    · rw [htext, String.toList_ofList]
    · rw [htext, read?_numeral digits_zero (by simp), hzero]
      rfl
  · let d := shortest m q
    obtain ⟨hdigits, hnear⟩ := shortest_near (q := q) (Nat.pos_of_ne_zero hm) hstandard.small
    have hset : Digits (Nat.toDigits 10 d.digits) :=
      ⟨Nat.toDigits_ne_nil, fun c hc => Nat.isDigit_of_mem_toDigits (by decide) (by decide) hc⟩
    obtain ⟨whole, fraction, hpoint, hwhole, hfraction, hvalue⟩ :=
      point_plain hset (Int.ofNat (Nat.toDigits 10 d.digits).length + d.exponent)
    have htext : text (ofSignedBits false bits) = String.ofList (numeral whole fraction) := by
      rw [text_of_parts hfloat hm, ← hpoint]
      rfl
    have hsame : numeralValue whole fraction = d.value := by
      rw [hvalue, digitsValue_toDigits, Int.ofNat_eq_natCast, add_sub_cancel_left]
      rfl
    refine ⟨whole, fraction, ?_, hwhole, hfraction, ?_⟩
    · rw [htext, String.toList_ofList]
    · rw [htext, read?_numeral hwhole hfraction]
      congr 1
      refine ofDecimal_eq (digitsValue_pos ?_) (Nat.le_add_left _ _) hstandard ?_ hbits h
      · rw [hsame]
        exact Decimal.value_pos hdigits
      · have hvalue' : (digitsValue (digitsValue 0 whole) fraction : ℚ)
            * 10 ^ (-(fraction.length : ℤ)) = d.value := hsame
        rw [hvalue']
        exact hnear

/-- A magnitude below infinity is finite. -/
theorem isFinite_ofSignedBits {bits : Nat} (h : bits < infinityBits) :
    isFinite (ofSignedBits false bits) = true := by
  obtain ⟨m, q, hparts, _⟩ := ofBits_eq h
  unfold isFinite
  rw [ofFloat_ofSignedBits h, hparts]

theorem not_isFinite_infinity : isFinite (ofSignedBits false infinityBits) = false := by
  decide +kernel

/-- What a numeral without a sign denotes is a magnitude, and one below infinity if it is finite. -/
theorem ofDecimal_magnitude (digits count : Nat) (exponent : Int)
    (h : isFinite (ofDecimal false digits count exponent) = true) :
    ∃ bits < infinityBits, ofDecimal false digits count exponent = ofSignedBits false bits := by
  have hle : ∃ bits ≤ infinityBits, ofDecimal false digits count exponent
      = ofSignedBits false bits := by
    have hratio : ∀ num den, ratioBits num den ≤ infinityBits := by
      intro num den
      unfold ratioBits
      split
      · exact Nat.zero_le _
      · exact Nat.min_le_right _ _
    unfold ofDecimal
    split
    · exact ⟨0, Nat.zero_le _, rfl⟩
    split
    · exact ⟨infinityBits, Nat.le_refl _, rfl⟩
    split
    · exact ⟨0, Nat.zero_le _, rfl⟩
    split
    · exact ⟨_, hratio _ _, rfl⟩
    · exact ⟨_, hratio _ _, rfl⟩
  obtain ⟨bits, hbits, heq⟩ := hle
  refine ⟨bits, Nat.lt_of_le_of_ne hbits fun hinfinite => ?_, heq⟩
  rw [heq, hinfinite, not_isFinite_infinity] at h
  cases h

/-- **A finite number that is read from digits is a magnitude below infinity.** -/
theorem read?_magnitude {c : Char} {cs : List Char} {x : Float} (hc : c.isDigit = true)
    (hread : read? (String.ofList (c :: cs)) = some x) (hfinite : isFinite x = true) :
    ∃ bits < infinityBits, x = ofSignedBits false bits := by
  unfold read? at hread
  rw [String.toList_ofList, readSign_digit hc] at hread
  dsimp only at hread
  rw [readWord?_digit hc] at hread
  dsimp only at hread
  unfold readUnsigned? at hread
  dsimp only at hread
  -- with or without a point
  split at hread
  all_goals
    split at hread
    · cases hread
    · obtain ⟨exponent, _, rfl⟩ := Option.map_eq_some_iff.mp hread
      exact ofDecimal_magnitude _ _ _ hfinite

end Lipi.Number
