import ItemStore.Decimal.Shortest

/-
Reading a double from free-form decimal text.

The number attributes of an item arrive as texts that were not written here, so
the grammar is wide: an optional sign, then `inf`, `infinity` or `nan` in any
case, or digits with an optional point (at least one digit on either side) and
an optional exponent. The value is the double nearest to the decimal, so a text
may name infinity without saying so.
-/
set_option autoImplicit false

namespace ItemStore.Decimal

/-- Takes a sign off the front of a text; the flag tells whether it was a minus. -/
def takeSign : List Char → Bool × List Char
  | '-' :: cs => (true, cs)
  | '+' :: cs => (false, cs)
  | cs => (false, cs)

/-- A decimal with a sign, as a double. -/
def signedNearest (negative : Bool) (digits : Nat) (exponent : Int) : Float :=
  let x := nearest digits exponent
  if negative then -x else x

/-- The exponent part of a text: nothing, or `e` and a whole number. -/
def readExponent? : List Char → Option Int
  | [] => some 0
  | c :: cs =>
    if c = 'e' ∨ c = 'E' then
      let (negative, cs) := takeSign cs
      match spanDigits cs with
      | ([], _) => none
      | (digits, []) =>
        let n : Int := natOfDigits digits
        some (if negative then -n else n)
      | _ => none
    else none

/-- Digits with an optional point and exponent, as `digits * 10 ^ exponent`. -/
def readDecimal? (cs : List Char) : Option Numeral := do
  let (whole, cs) := spanDigits cs
  let (fraction, cs) :=
    match cs with
    | '.' :: cs => spanDigits cs
    | cs => ([], cs)
  -- a point alone is not a number
  if whole.isEmpty ∧ fraction.isEmpty then none
  else
    let exponent ← readExponent? cs
    some ⟨natOfDigits (whole ++ fraction), exponent - fraction.length⟩

/-- The double a text names. Number attributes are read this way by `parse_number` and
by the store; the numbers of a JSON text have a narrower grammar and a reader of their
own. -/
def read? (cs : List Char) : Option Float :=
  let (negative, cs) := takeSign cs
  let word := cs.map Char.toLower
  if word = "inf".toList ∨ word = "infinity".toList then
    some (if negative then -(1.0 / 0.0) else 1.0 / 0.0)
  else if word = "nan".toList then some (0.0 / 0.0)
  else (readDecimal? cs).map fun d => signedNearest negative d.digits d.exponent

end ItemStore.Decimal
