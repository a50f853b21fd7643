import Lipi.Number.Layout
import Lipi.Number.Reader

set_option autoImplicit false

/-! # The numbers of the language

All numbers are doubles. This module holds what the language adds to the hardware's operations:
the text of a number, its use as an index, and the remainder.
-/

namespace Lipi.Number

/-- The text of a number as programs print it: the fewest digits that read back, never an
exponent, and zero without a sign. -/
def text (x : Float) : String :=
  match Parts.ofFloat x with
  | .nan => "NaN"
  | .infinite false => "Infinity"
  | .infinite true => "-Infinity"
  | .finite _ 0 _ => "0"
  | .finite _ _ _ => Layout.plain.text x

/-- Whether a number is neither infinite nor undefined. -/
def isFinite (x : Float) : Bool :=
  match Parts.ofFloat x with
  | .finite _ _ _ => true
  | _ => false

/-! ## Indices -/

/-- The largest index: above it the doubles do not hold every whole number. -/
def maxIndex : Nat := 2 * hiddenBit - 1

/-- The value `m * 2 ^ q` as a natural number, if it is whole. -/
def whole? (m : Nat) (q : Int) : Option Nat :=
  match q with
  | .ofNat n => some (m <<< n)
  | .negSucc n => if m % (1 <<< (n + 1)) = 0 then some (m >>> (n + 1)) else none

/-- A number as an index: a whole number from zero to `maxIndex`. Negative zero is the
index zero. -/
def toIndex? (x : Float) : Option Nat :=
  match Parts.ofFloat x with
  | .finite negative m q =>
    if negative && m != 0 then none
    else (whole? m q).filter (· ≤ maxIndex)
  | _ => none

/-! ## Remainder -/

/-- The value `m * 2 ^ q` counted in units of `2 ^ k`, for `k ≤ q`. -/
def inUnits (m : Nat) (q k : Int) : Nat :=
  m <<< (q - k).toNat

/-- The remainder of the division toward zero. It is exact, has the sign of the dividend, and
is undefined for an infinite dividend and for a divisor zero. -/
def remainder (x y : Float) : Float :=
  match Parts.ofFloat x, Parts.ofFloat y with
  | .finite negative m q, .finite _ n r =>
    if n = 0 then ofSignedBits false nanBits
    else
      let k := min q r
      ofScaled negative (inUnits m q k % inUnits n r k) k
  | .finite _ _ _, .infinite _ => x
  | _, _ => ofSignedBits false nanBits

end Lipi.Number
