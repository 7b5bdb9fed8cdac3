import ItemStore.Decimal.Shortest

/-
The two notations of a double.

Item attributes and everything shown to people use the positional notation: all
digits are written out, however large or small the number is, and a whole number
has no point. Number members of the wire text use the compact notation, where a
number always has a point or an exponent, so that it reads back as a double.
-/
set_option autoImplicit false

namespace ItemStore.Decimal

/-- The given number of zeros. -/
def zeros (n : Nat) : List Char := List.replicate n '0'

/-- A sign in front of a text. -/
def signed (negative : Bool) (text : List Char) : List Char :=
  if negative then '-' :: text else text

/-! ## Positional notation -/

/-- `digits * 10 ^ exponent` with every digit written out. -/
def positional (digits : List Char) (exponent : Int) : List Char :=
  if 0 ≤ exponent then digits ++ zeros exponent.toNat
  else
    let places := exponent.natAbs
    let whole := digits.length - places
    -- the point stands among the digits, or before all of them
    if 0 < whole then digits.take whole ++ '.' :: digits.drop whole
    else '0' :: '.' :: zeros (places - digits.length) ++ digits

/-- A double in positional notation. `format_number` writes the numbers of items this
way, for any finite double. -/
def plain (x : Float) : String :=
  if x.isNaN then "NaN"
  else
    let magnitude :=
      if x.isInf then "inf".toList
      else if mantissa x = 0 then ['0']
      else
        let d := shortest .up x.abs
        positional (digitsOfNat d.digits) d.exponent
    String.ofList (signed (isNegative x) magnitude)

/-! ## Compact notation -/

/-- The compact notation writes a leading digit worth `10^e` positionally for `e`
from -5 to 15, with a point in any case, and with an exponent otherwise. -/
def compact (digits : List Char) (exponent : Int) : List Char :=
  let leading := exponent + digits.length - 1
  if -5 ≤ leading ∧ leading ≤ 15 then
    let text := positional digits exponent
    if 0 ≤ exponent then text ++ ['.', '0'] else text
  else
    -- one digit before the point, and the exponent with its sign in any case
    let fraction := digits.drop 1
    let point := if fraction.isEmpty then [] else '.' :: fraction
    let sign := if leading < 0 then '-' else '+'
    digits.take 1 ++ point ++ 'e' :: sign :: digitsOfNat leading.natAbs

/-- A finite double in compact notation. The members of number sets and the numbers in
JSON texts are written this way. -/
def wire (x : Float) : List Char :=
  let magnitude :=
    if mantissa x = 0 then ['0', '.', '0']
    else
      let d := shortest .even x.abs
      compact (digitsOfNat d.digits) d.exponent
  signed (isNegative x) magnitude

end ItemStore.Decimal
