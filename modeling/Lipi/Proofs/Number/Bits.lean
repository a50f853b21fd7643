import Lipi.Number
import Mathlib.Data.BitVec

set_option autoImplicit false

/-! # The bits of finite doubles

A double is given by its bits, except that all bits that stand for no number are one and the same
double. **The bits of a magnitude below infinity are kept** (`toBits_ofSignedBits`), so that such a
double can be built from its bits and taken apart again.
-/

namespace Lipi.Number

open Float.Model

/-! ## Packing what was unpacked -/

/-- The 64 bits of a double. -/
abbrev Word := BitVec Format.binary64.numBits

theorem hiddenBit_eq : hiddenBit = 2 ^ 52 :=
  rfl

theorem signBit_eq : signBit = 2 ^ 63 :=
  rfl

theorem infinityBits_eq : infinityBits = 2047 * 2 ^ 52 :=
  rfl

theorem fields_of_word (v : Word) :
    UnpackedFloat.packComponents Format.binary64
      (UnpackedFloat.Sign.ofBitVec (UnpackedFloat.unpackSign v))
      (UnpackedFloat.unpackExponent v) (UnpackedFloat.unpackMantissa v) = v := by
  have hsign : (UnpackedFloat.Sign.ofBitVec (UnpackedFloat.unpackSign v)).toBitVec
      = UnpackedFloat.unpackSign v := by
    generalize UnpackedFloat.unpackSign v = b
    revert b
    decide
  unfold UnpackedFloat.packComponents
  rw [hsign]
  apply BitVec.eq_of_getLsbD_eq
  intro i hi
  have hbound : i < 64 := hi
  unfold UnpackedFloat.unpackSign UnpackedFloat.unpackExponent UnpackedFloat.unpackMantissa
  simp only [BitVec.getLsbD_append, BitVec.getLsbD_cast, BitVec.getLsbD_extractLsb]
  -- the three fields cover the bits below 52, below 63, and the last one
  by_cases hmantissa : i < 52
  · simp [hmantissa]
  · by_cases hexponent : i < 63
    · have hplace : 52 + (i - 52) = i := by omega
      have hinside : i - 52 < 11 := by omega
      simp [hmantissa, hinside, hplace]
    · obtain rfl : i = 63 := by omega
      simp
      rfl

/-- The significand of a normal double, with its leading bit. -/
theorem toNat_leadingOne (w : BitVec 52) : (1#1 ++ w).toNat = 2 ^ 52 + w.toNat := by
  have hshift : (1#1 ++ w).toNat = (1 <<< 52) ||| w.toNat := BitVec.toNat_append _ _
  rw [hshift, ← Nat.shiftLeft_add_eq_or_of_lt w.isLt]
  rfl

theorem log2_lt_of_lt {m : Nat} (h : m < 2 ^ 52) : m.log2 + 1 ≠ Format.binary64.mantissaBits := by
  have hbits : Format.binary64.mantissaBits = 53 := rfl
  rw [hbits]
  intro hlog
  by_cases hm : m = 0
  · subst hm
    simp at hlog
  · have := (Nat.log2_lt hm).mpr h
    omega

theorem log2_leadingOne {m : Nat} (h : m < 2 ^ 52) :
    (2 ^ 52 + m).log2 + 1 = Format.binary64.mantissaBits := by
  have hbits : Format.binary64.mantissaBits = 53 := rfl
  have hlow : 52 ≤ (2 ^ 52 + m).log2 := (Nat.le_log2 (by omega)).mpr (by omega)
  have hhigh : (2 ^ 52 + m).log2 < 53 := (Nat.log2_lt (by omega)).mpr (by omega)
  omega

/-- Bits that do not stand for an infinite double or no number are kept. -/
theorem pack_unpack (v : Word) (hv : UnpackedFloat.unpackExponent v ≠ -1#_) :
    UnpackedFloat.pack Format.binary64 (UnpackedFloat.unpack Format.binary64 v) = v := by
  have hwhole := fields_of_word v
  have hbias : Format.binary64.exponentBias = 1023 := rfl
  have hlt : (UnpackedFloat.unpackMantissa v).toNat < 2 ^ 52 :=
    (UnpackedFloat.unpackMantissa v).isLt
  have hexponent : (UnpackedFloat.unpackExponent v).toNat < 2047 := by
    have hbound : (UnpackedFloat.unpackExponent v).toNat < 2048 :=
      (UnpackedFloat.unpackExponent v).isLt
    have hne : (UnpackedFloat.unpackExponent v).toNat ≠ 2047 := fun h =>
      hv (BitVec.eq_of_toNat_eq h)
    omega
  unfold UnpackedFloat.unpack
  dsimp only
  rw [if_neg hv]
  by_cases hzero : UnpackedFloat.unpackExponent v = 0#_
  · rw [if_pos hzero]
    rw [hzero] at hwhole
    by_cases hmantissa : UnpackedFloat.unpackMantissa v = 0#_
    · rw [dif_pos hmantissa]
      rw [hmantissa] at hwhole
      exact hwhole
    · rw [dif_neg hmantissa]
      -- a double below the normal range
      unfold UnpackedFloat.pack
      dsimp only
      rw [if_neg (by rw [hzero, hbias]; decide), if_neg (log2_lt_of_lt hlt), BitVec.ofNat_toNat,
        BitVec.setWidth_eq]
      exact hwhole
  · rw [if_neg hzero]
    unfold UnpackedFloat.pack
    dsimp only
    have hbiased : (((UnpackedFloat.unpackExponent v).toNat : Int)
        - (Format.binary64.exponentBias + Format.binary64.mantissaBitsWithoutImplicit)
        + Format.binary64.exponentBias + Format.binary64.mantissaBitsWithoutImplicit).toNat
        = (UnpackedFloat.unpackExponent v).toNat := by
      omega
    have hmantissa : BitVec.ofNat 52 (2 ^ 52 + (UnpackedFloat.unpackMantissa v).toNat)
        = UnpackedFloat.unpackMantissa v := by
      apply BitVec.eq_of_toNat_eq
      rw [BitVec.toNat_ofNat]
      omega
    rw [hbiased, toNat_leadingOne, if_neg (by show ¬ 2 ^ 11 ≤ _; omega),
      if_pos (log2_leadingOne hlt), BitVec.ofNat_toNat, BitVec.setWidth_eq, hmantissa]
    exact hwhole

/-! ## Magnitudes below infinity -/

/-- The word of a magnitude. -/
def wordOf (bits : Nat) : Word :=
  (UInt64.ofNat bits).toBitVec

theorem toNat_wordOf {bits : Nat} (h : bits < infinityBits) : (wordOf bits).toNat = bits := by
  have hsmall : bits < 2 ^ 64 := Nat.lt_trans h (by decide)
  show bits % 2 ^ 64 = bits
  exact Nat.mod_eq_of_lt hsmall

theorem unpackExponent_wordOf {bits : Nat} (h : bits < infinityBits) :
    UnpackedFloat.unpackExponent (wordOf bits) ≠ -1#_ := by
  intro heq
  have hfield : (UnpackedFloat.unpackExponent (wordOf bits)).toNat = bits / 2 ^ 52 % 2 ^ 11 := by
    show ((wordOf bits).toNat >>> 52) % 2 ^ 11 = _
    rw [toNat_wordOf h, Nat.shiftRight_eq_div_pow]
  have hones : (-1#(Format.binary64.exponentBits)).toNat = 2047 := by decide
  rw [heq] at hfield
  rw [infinityBits_eq] at h
  omega

/-- **The bits of a magnitude below infinity are kept.** -/
theorem toBits_ofSignedBits {bits : Nat} (h : bits < infinityBits) :
    (ofSignedBits false bits).toBits.toNat = bits := by
  show (UnpackedFloat.pack Format.binary64
    (UnpackedFloat.unpack Format.binary64 (wordOf bits))).toNat = bits
  rw [pack_unpack _ (unpackExponent_wordOf h)]
  exact toNat_wordOf h

/-- Every double that is a number equals itself. -/
theorem compare_self {u : UnpackedFloat} (h : u ≠ .notANumber) : u.compare u = some .eq := by
  cases u with
  | notANumber => exact absurd rfl h
  | infinity s => cases s <;> rfl
  | zero s => rfl
  | finite s m e hm =>
      have hsame : (compare e e).then (compare m m) = .eq := by simp
      cases s with
      | positive => exact congrArg some hsame
      | negative => exact congrArg (fun o => some o.swap) hsame

theorem unpackSign_wordOf {bits : Nat} (h : bits < infinityBits) :
    UnpackedFloat.unpackSign (wordOf bits) = 0#1 := by
  apply BitVec.eq_of_toNat_eq
  show ((wordOf bits).toNat >>> 63) % 2 ^ 1 = 0
  rw [toNat_wordOf h, Nat.shiftRight_eq_div_pow]
  rw [infinityBits_eq] at h
  omega

/-- A magnitude below infinity is a zero or a finite double, without a minus sign. -/
theorem unpack_ofSignedBits {bits : Nat} (h : bits < infinityBits) :
    (ofSignedBits false bits).toModel.unpack = .zero .positive ∨
      ∃ m e hm, (ofSignedBits false bits).toModel.unpack = .finite .positive m e hm := by
  have hexponent := unpackExponent_wordOf h
  have hunpack : (ofSignedBits false bits).toModel.unpack
      = UnpackedFloat.unpack Format.binary64 (wordOf bits) := by
    show UnpackedFloat.unpack Format.binary64 (UnpackedFloat.pack Format.binary64
      (UnpackedFloat.unpack Format.binary64 (wordOf bits))) = _
    rw [pack_unpack _ hexponent]
  have hsign : UnpackedFloat.Sign.ofBitVec (UnpackedFloat.unpackSign (wordOf bits)) = .positive := by
    rw [unpackSign_wordOf h]
    rfl
  rw [hunpack]
  unfold UnpackedFloat.unpack
  dsimp only
  rw [if_neg hexponent, hsign]
  -- zero and subnormal numbers have no exponent; all others have the hidden bit
  by_cases hzero : UnpackedFloat.unpackExponent (wordOf bits) = 0#_
  · rw [if_pos hzero]
    by_cases hmantissa : UnpackedFloat.unpackMantissa (wordOf bits) = 0#_
    · rw [dif_pos hmantissa]
      exact .inl rfl
    · have hpos : 0 < (UnpackedFloat.unpackMantissa (wordOf bits)).toNat :=
        Nat.pos_of_ne_zero fun hzero => hmantissa (BitVec.eq_of_toNat_eq hzero)
      rw [dif_neg hmantissa]
      exact .inr ⟨_, _, hpos, rfl⟩
  · have hpos : 0 < (1#1 ++ UnpackedFloat.unpackMantissa (wordOf bits)).toNat := by
      rw [toNat_leadingOne]
      omega
    rw [if_neg hzero]
    exact .inr ⟨_, _, hpos, rfl⟩

theorem ofSignedBits_beq_self {bits : Nat} (h : bits < infinityBits) :
    (ofSignedBits false bits == ofSignedBits false bits) = true := by
  have hnumber : (ofSignedBits false bits).toModel.unpack ≠ .notANumber := by
    rcases unpack_ofSignedBits h with hzero | ⟨_, _, _, hfinite⟩
    · rw [hzero]
      exact UnpackedFloat.noConfusion
    · rw [hfinite]
      exact UnpackedFloat.noConfusion
  show ((ofSignedBits false bits).toModel.unpack.compare (ofSignedBits false bits).toModel.unpack
    == some .eq) = true
  rw [compare_self hnumber]
  rfl

/-- A magnitude is not negative. -/
theorem zero_le_ofSignedBits {bits : Nat} (h : bits < infinityBits) :
    (0.0 : Float) ≤ ofSignedBits false bits := by
  have hle : ((0.0 : Float).toModel.unpack.compare (ofSignedBits false bits).toModel.unpack).any
      (·.isLE) = true := by
    have hzero : (0.0 : Float).toModel.unpack = .zero .positive := rfl
    rw [hzero]
    rcases unpack_ofSignedBits h with hunpack | ⟨_, _, _, hunpack⟩ <;> rw [hunpack] <;> rfl
  exact decide_eq_true hle

/-! ## Significand and exponent -/

/-- `m * 2 ^ q` is the form in which a finite double is taken apart. -/
structure Standard (m : Nat) (q : Int) : Prop where
  small : m < 2 ^ 53
  least : leastExponent ≤ q
  normal : hiddenBit ≤ m ∨ q = leastExponent

/-- Significand and exponent of a magnitude below infinity. -/
theorem ofBits_eq {bits : Nat} (h : bits < infinityBits) :
    ∃ m q, Parts.ofBits bits = .finite false m q ∧ Standard m q ∧
      bits = (q - leastExponent).toNat * 2 ^ 52 + m := by
  rw [infinityBits_eq] at h
  have hsign : (bits / 2 ^ 63 % 2 == 1) = false := by
    have hzero : bits / 2 ^ 63 % 2 = 0 := by omega
    rw [hzero]
    rfl
  have hbiased : bits / 2 ^ 52 % 2048 = bits / 2 ^ 52 := by omega
  have hinfinite : bits / 2 ^ 52 ≠ 2047 := by omega
  unfold Parts.ofBits
  dsimp only
  rw [signBit_eq, hiddenBit_eq, hsign, hbiased, if_neg hinfinite]
  -- without biased exponent the number is subnormal and has no hidden bit
  by_cases hzero : bits / 2 ^ 52 = 0
  · rw [if_pos hzero]
    refine ⟨_, _, rfl, ⟨by omega, Int.le_refl _, Or.inr rfl⟩, ?_⟩
    rw [Int.sub_self]
    show bits = 0 * 2 ^ 52 + bits % 2 ^ 52
    omega
  · rw [if_neg hzero]
    refine ⟨_, _, rfl, ⟨?_, ?_, Or.inl ?_⟩, ?_⟩
    · omega
    · unfold leastExponent
      rw [Int.ofNat_eq_natCast]
      omega
    · rw [hiddenBit_eq]
      omega
    · have hexponent : (Int.ofNat (bits / 2 ^ 52) - 1075 - leastExponent).toNat
          = bits / 2 ^ 52 - 1 := by
        unfold leastExponent
        rw [Int.ofNat_eq_natCast]
        omega
      rw [hexponent]
      omega

theorem ofFloat_ofSignedBits {bits : Nat} (h : bits < infinityBits) :
    Parts.ofFloat (ofSignedBits false bits) = Parts.ofBits bits := by
  unfold Parts.ofFloat
  rw [toBits_ofSignedBits h]

end Lipi.Number
