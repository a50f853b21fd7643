import Lipi.Number.Binary

set_option autoImplicit false

/-! # Reading a number

A numeral is an optional sign, digits with at most one point among them, and an optional exponent;
the words `inf`, `infinity` and `nan`, in any case, stand for themselves. **The value of a numeral
is the nearest double.** Literals of the language are the numerals without sign and exponent.
-/

namespace Lipi.Number

/-- The value of a decimal digit. -/
def digitValue (c : Char) : Nat :=
  c.toNat - '0'.toNat

/-- The number that a run of digits denotes, continuing from `value`. -/
def digitsValue (value : Nat) (ds : List Char) : Nat :=
  ds.foldl (fun v c => 10 * v + digitValue c) value

/-- Beyond this power of ten every number is infinite or zero as a double, whatever its
digits. -/
def exponentCap : Int := 2000

/-- The double nearest to `digits * 10 ^ exponent`. An exponent out of all reach is decided
without computing the power: `count` is an upper bound for the number of digits. -/
def ofDecimal (negative : Bool) (digits : Nat) (count : Nat) (exponent : Int) : Float :=
  if digits = 0 then ofSignedBits negative 0
  else if exponentCap < exponent then ofSignedBits negative infinityBits
  else if exponent < -(exponentCap + Int.ofNat count) then ofSignedBits negative 0
  else
    match exponent with
    | .ofNat n => ofRatio negative (digits * Nat.pow 10 n) 1
    | .negSucc n => ofRatio negative digits (Nat.pow 10 (n + 1))

/-- A run of digits at the front of a text, and what follows it. -/
def spanDigits (cs : List Char) : List Char × List Char :=
  cs.span Char.isDigit

/-- An optional sign: whether it is `-`, and what follows it. -/
def readSign : List Char → Bool × List Char
  | '-' :: rest => (true, rest)
  | '+' :: rest => (false, rest)
  | cs => (false, cs)

/-- The exponent part of a numeral, up to the end of the text: nothing, or `e` with a sign and at
least one digit. -/
def readExponent? : List Char → Option Int
  | [] => some 0
  | c :: rest =>
    if c = 'e' ∨ c = 'E' then
      let (negative, digits) := readSign rest
      if digits.isEmpty || !digits.all Char.isDigit then none
      else
        let value := Int.ofNat (digitsValue 0 digits)
        some (if negative then -value else value)
    else none

/-- A numeral without its sign. -/
def readUnsigned? (negative : Bool) (cs : List Char) : Option Float :=
  let (whole, rest) := spanDigits cs
  let (fraction, rest) :=
    match rest with
    | '.' :: rest => spanDigits rest
    | rest => ([], rest)
  if whole.isEmpty && fraction.isEmpty then none
  else
    (readExponent? rest).map fun exponent =>
      ofDecimal negative (digitsValue (digitsValue 0 whole) fraction)
        (whole.length + fraction.length) (exponent - Int.ofNat fraction.length)

/-- The words that are numbers. -/
def readWord? (negative : Bool) (word : List Char) : Option Float :=
  let word := String.ofList (word.map Char.toLower)
  if word = "inf" ∨ word = "infinity" then some (ofSignedBits negative infinityBits)
  else if word = "nan" then some (ofSignedBits negative nanBits)
  else none

/-- Reads a whole text as a number. -/
def read? (text : String) : Option Float :=
  let (negative, rest) := readSign text.toList
  match readWord? negative rest with
  | some x => some x
  | none => readUnsigned? negative rest

end Lipi.Number
