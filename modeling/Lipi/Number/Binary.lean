set_option autoImplicit false

/-! # Doubles as exact numbers

A finite double is `± m * 2 ^ q` with a natural number `m`. Everything that the language says
about a number beyond the four operations of the hardware (its text, its use as an index, its
remainder, how a literal is read) is computed on `m` and `q` in exact arithmetic: `Parts.ofFloat`
takes a double apart, and `ofRatio` **rounds a quotient of natural numbers to the nearest double**.
-/

namespace Lipi.Number

/-! ## Taking a double apart -/

/-- What the bits of a double stand for. `finite s m q` is `m * 2 ^ q`, negated if `s`. -/
inductive Parts where
  | nan
  | infinite (negative : Bool)
  | finite (negative : Bool) (significand : Nat) (exponent : Int)
deriving Repr, DecidableEq, Inhabited

/-- The exponent of the smallest positive double, and of every double below `2 ^ -1022`. -/
def leastExponent : Int := -1074

/-- The significand of a power of two in the normal range. -/
def hiddenBit : Nat := 1 <<< 52

/-- The bit that negates a double. -/
def signBit : Nat := 1 <<< 63

/-- The parts of a double whose 64 bits, read as a number, are `bits`. -/
def Parts.ofBits (bits : Nat) : Parts :=
  let negative := bits / signBit % 2 == 1
  let biased := bits / hiddenBit % 2048
  let fraction := bits % hiddenBit
  if biased = 2047 then
    if fraction = 0 then .infinite negative else .nan
  else if biased = 0 then
    .finite negative fraction leastExponent
  else
    .finite negative (hiddenBit + fraction) (Int.ofNat biased - 1075)

/-- The parts of a double. -/
def Parts.ofFloat (x : Float) : Parts :=
  Parts.ofBits x.toBits.toNat

/-! ## Rounding to a double -/

/-- The quotient `num / den` rounded to the nearest natural number; a tie goes to the even one. -/
def roundDiv (num den : Nat) : Nat :=
  let low := num / den
  let rest := num % den
  if 2 * rest < den then low
  else if den < 2 * rest then low + 1
  else if low % 2 = 0 then low
  else low + 1

/-- The quotient `num / (den * 2 ^ q)` as a fraction. -/
def scaleBinary (num den : Nat) (q : Int) : Nat × Nat :=
  match q with
  | .ofNat n => (num, den <<< n)
  | .negSucc n => (num <<< (n + 1), den)

/-- The exponent of the doubles around `num / den`: the one at which the significand has 53 bits,
or `leastExponent` where the doubles stop getting denser. -/
def exponentFor (num den : Nat) : Int :=
  let estimate : Int := Int.ofNat num.log2 - Int.ofNat den.log2 - 52
  let (n, d) := scaleBinary num den estimate
  let exact := if n / d < hiddenBit then estimate - 1 else estimate
  max exact leastExponent

/-- The bits of positive infinity; every larger magnitude is rounded to it. -/
def infinityBits : Nat := 2047 * hiddenBit

/-- The bits of the double nearest to `num / den`, a tie to the even significand. A significand
that is rounded up to the next power of two carries into the exponent field by itself. -/
def ratioBits (num den : Nat) : Nat :=
  if num = 0 then 0
  else
    let q := exponentFor num den
    let (n, d) := scaleBinary num den q
    min ((q - leastExponent).toNat * hiddenBit + roundDiv n d) infinityBits

/-- The bits of a double that is no number. -/
def nanBits : Nat := infinityBits + hiddenBit / 2

/-- A double from its sign and the bits of its magnitude. -/
def ofSignedBits (negative : Bool) (bits : Nat) : Float :=
  Float.ofBits (UInt64.ofNat (if negative then signBit + bits else bits))

/-- The double nearest to `num / den`, negated if `negative`. -/
def ofRatio (negative : Bool) (num den : Nat) : Float :=
  ofSignedBits negative (ratioBits num den)

/-- The double nearest to `m * 2 ^ q`, negated if `negative`. -/
def ofScaled (negative : Bool) (m : Nat) (q : Int) : Float :=
  match q with
  | .ofNat n => ofRatio negative (m <<< n) 1
  | .negSucc n => ofRatio negative m (1 <<< (n + 1))

/-- A count as a number. -/
def ofNat (n : Nat) : Float :=
  ofRatio false n 1

end Lipi.Number
