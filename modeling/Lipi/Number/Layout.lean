import Lipi.Number.Shortest

set_option autoImplicit false

/-! # Writing a number down

The digits of a number are chosen in `Lipi.Number.Shortest`; a `Layout` says how they are set:
where a scientific exponent takes over, and whether a whole number keeps a point. Two layouts are
in use. `Layout.plain` never writes an exponent. `Layout.exact` is meant for a reader who
wants to see that the value is a double: a whole number ends in `.0`, and very large and very
small numbers are written with an exponent.
-/

namespace Lipi.Number

/-- How the digits of a number are set. -/
structure Layout where
  /-- Whether a number is written without an exponent, given the power of ten of its leading
  digit. -/
  positional : Int → Bool
  /-- What follows a whole number that is written without an exponent. -/
  wholeEnding : List Char

/-- No number has an exponent, and whole numbers have no point. -/
def Layout.plain : Layout :=
  ⟨fun _ => true, []⟩

/-- Numbers from `0.0001` up to, and without, `10 ^ 16` have no exponent, and whole numbers end
in `.0`. -/
def Layout.exact : Layout :=
  ⟨fun power => decide (-4 ≤ power ∧ power < 16), ['.', '0']⟩

/-- The digits `ds`, with the point after the first `before` of them. -/
def Layout.point (layout : Layout) (ds : List Char) (before : Int) : List Char :=
  match before with
  | .ofNat n =>
    if ds.length ≤ n then
      ds ++ List.replicate (n - ds.length) '0' ++ layout.wholeEnding
    else if n = 0 then
      '0' :: '.' :: ds
    else
      ds.take n ++ '.' :: ds.drop n
  | .negSucc n => '0' :: '.' :: (List.replicate (n + 1) '0' ++ ds)

/-- The digits `ds` with one of them before the point, and the power of ten of that one. -/
def Layout.scientific (ds : List Char) (power : Int) : List Char :=
  let mantissa :=
    match ds with
    | d :: e :: rest => d :: '.' :: e :: rest
    | ds => ds
  mantissa ++ 'e' :: (toString power).toList

/-- The text of a decimal. -/
def Layout.decimal (layout : Layout) (d : Decimal) : List Char :=
  let ds := Nat.toDigits 10 d.digits
  let before := Int.ofNat ds.length + d.exponent
  if layout.positional (before - 1) then layout.point ds before
  else Layout.scientific ds (before - 1)

/-- The text of a double. Zero keeps its sign. -/
def Layout.text (layout : Layout) (x : Float) : String :=
  let sign (negative : Bool) (cs : List Char) := String.ofList (if negative then '-' :: cs else cs)
  match Parts.ofFloat x with
  | .nan => "NaN"
  | .infinite negative => sign negative ['i', 'n', 'f']
  | .finite negative 0 _ => sign negative ('0' :: layout.wholeEnding)
  | .finite negative m q => sign negative (layout.decimal (shortest m q))

end Lipi.Number
