import Lipi.Number.Binary

set_option autoImplicit false

/-! # The fewest digits that read back

A positive double `m * 2 ^ q` is the nearest double to every real number of an interval around it.
**The shortest decimal of the double is the one with the fewest digits in that interval**, and of
two such decimals the nearer one. For one digit, two digits and so on it is enough to look at the
two neighbours of the value on the grid of decimals with that many digits; seventeen digits always
suffice.
-/

namespace Lipi.Number

/-- The decimal number `digits * 10 ^ exponent`. -/
structure Decimal where
  digits : Nat
  exponent : Int
deriving Repr, DecidableEq, Inhabited

/-! ## The interval of a double -/

/-- A value and the interval of the numbers that round to it. The three numbers `low`, `value` and
`high` count parts of size `1 / unit`; the ends belong to the interval if `closed`. -/
structure Interval where
  low : Nat
  value : Nat
  high : Nat
  unit : Nat
  closed : Bool
deriving Repr, DecidableEq, Inhabited

/-- The interval of `m * 2 ^ q`, in quarters of the distance to the next larger double. Below a
power of two the doubles are twice as dense. The ends round to an even significand, so they belong
to the interval of one. -/
def Interval.ofBinary (m : Nat) (q : Int) : Interval :=
  let below := if m = hiddenBit ∧ leastExponent < q then 1 else 2
  let low := 4 * m - below
  let value := 4 * m
  let high := 4 * m + 2
  let closed := m % 2 == 0
  match q - 2 with
  | .ofNat n => ⟨low <<< n, value <<< n, high <<< n, 1, closed⟩
  | .negSucc n => ⟨low, value, high, 1 <<< (n + 1), closed⟩

/-- The same interval measured in units of `10 ^ k`. -/
def Interval.rescale (i : Interval) (k : Int) : Interval :=
  match k with
  | .ofNat n => { i with unit := i.unit * Nat.pow 10 n }
  | .negSucc n =>
    let f := Nat.pow 10 (n + 1)
    { i with low := i.low * f, value := i.value * f, high := i.high * f }

/-- Whether the whole number `c` lies in the interval. -/
def Interval.contains (i : Interval) (c : Nat) : Bool :=
  if i.closed then decide (i.low ≤ c * i.unit ∧ c * i.unit ≤ i.high)
  else decide (i.low < c * i.unit ∧ c * i.unit < i.high)

/-- The neighbour of the value among the whole numbers that lies in the interval. Of two, the
nearer; of two equally near, the larger. -/
def Interval.nearest? (i : Interval) : Option Nat :=
  let below := i.value / i.unit
  match i.contains below, i.contains (below + 1) with
  | true, true => some (if 2 * (i.value % i.unit) < i.unit then below else below + 1)
  | true, false => some below
  | false, true => some (below + 1)
  | false, false => none

/-! ## The search over the number of digits -/

/-- How many decimal digits `n` has; one for zero. -/
def decimalLength (n : Nat) : Nat :=
  (Nat.toDigits 10 n).length

/-- How many digits the value has before the point: the `e` with
`10 ^ (e - 1) ≤ value < 10 ^ e`. -/
def Interval.magnitude (i : Interval) : Int :=
  if i.unit ≤ i.value then Int.ofNat (decimalLength (i.value / i.unit))
  else 1 - Int.ofNat (decimalLength ((i.unit - 1) / i.value))

/-- Moves trailing zeros of the digits into the exponent, `steps` of them at most. -/
def Decimal.trim : Nat → Decimal → Decimal
  | 0, d => d
  | steps + 1, d =>
    if d.digits % 10 = 0 then Decimal.trim steps ⟨d.digits / 10, d.exponent + 1⟩ else d

/-- The first hit on the grids of `n`, `n + 1`, … digits, `steps` further grids at most. -/
def Interval.search (i : Interval) (magnitude : Int) : Nat → Nat → Decimal
  | 0, n =>
    let k := magnitude - Int.ofNat n
    ⟨(i.rescale k).value / (i.rescale k).unit, k⟩
  | steps + 1, n =>
    let k := magnitude - Int.ofNat n
    match (i.rescale k).nearest? with
    | some c => ⟨c, k⟩
    | none => i.search magnitude steps (n + 1)

/-- The shortest decimal that reads back as `m * 2 ^ q`, for `m` not zero. -/
def shortest (m : Nat) (q : Int) : Decimal :=
  let i := Interval.ofBinary m q
  (i.search i.magnitude 17 1).trim 17

end Lipi.Number
