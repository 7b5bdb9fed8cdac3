import ItemStore.Decimal.Read
import ItemStore.Decimal.Text

/-
The numbers of a JSON text.

A number without point and exponent that fits 64 bits is kept as the integer it
is. Every other number becomes a double by the short computation that readers of
JSON use for speed: the leading digits, as many as fit 64 unsigned bits, are
taken as a double and scaled once by a power of ten. For up to fifteen digits and
small exponents that is the nearest double; beyond, it may miss the nearest by a
unit in the last place. A number whose scaled value is infinite is refused.
-/
set_option autoImplicit false

namespace ItemStore.Json

open Decimal

/-- A number as a JSON text denotes it: an integer that fits 64 bits (signed ones if it
is negative), or a finite double. A number set keeps the text that its members have in
this form, so it decides what precision is left of them. -/
inductive Number where
  | integer (i : Int)
  | double (x : Float)
  deriving DecidableEq

namespace Number

/-- The canonical text: an integer's digits, or a double in compact notation. It is
canonical in that a number that is read again has the same text, as long as the double
it holds is one that reads back. -/
def text : Number → List Char
  | integer i => signed (i < 0) (digitsOfNat i.natAbs)
  | double x => wire x

/-- The double nearest to the number. -/
def toFloat : Number → Float
  | integer i => signedNearest (i < 0) i.natAbs 0
  | double x => x

/-! ## The value of a text -/

/-- The largest number of 64 unsigned bits. -/
def wordMax : Nat := Nat.pow 2 64 - 1

/-- Appends digits to a number as long as it fits 64 bits; the second part are the
digits from the first one on that did not fit. Which digits are left over matters:
before the point they scale the number, after it they are lost. -/
def accumulate (n : Nat) : List Char → Nat × List Char
  | [] => (n, [])
  | c :: cs =>
    let next := 10 * n + digitValue c
    if next ≤ wordMax then accumulate next cs else (n, c :: cs)

/-- Scales by a power of ten, `none` for an infinite result. Powers below `10^-308`
have no double of their own, so `10^308` is divided out first; `steps` such
divisions are enough to bring any number of 64 bits to zero. -/
def scale? (steps : Nat) (x : Float) (exponent : Int) : Option Float :=
  if 308 < exponent then (if x == 0.0 then some x else none)
  else if 0 ≤ exponent then
    let y := x * nearest 1 exponent
    if y.isInf then none else some y
  else if -308 ≤ exponent then some (x / nearest 1 (-exponent))
  else
    match steps with
    | 0 => some 0.0
    | steps + 1 => scale? steps (x / nearest 1 308) (exponent + 308)

/-- The value of the digits before and after a point with an exponent, as a double.
Digits that do not fit any more count as zeros before the point and are dropped after
it. This is not the nearest double for all texts, and statements that need it to be say
so. -/
def doubleOfDigits? (negative : Bool) (whole fraction : List Char) (exponent : Int) :
    Option Float :=
  let (lead, dropped) := accumulate 0 whole
  let (lead, unused) := accumulate lead fraction
  let places : Int := dropped.length - ((fraction.length : Int) - unused.length)
  (scale? 3 (Float.ofNat lead) (places + exponent)).map fun x => if negative then -x else x

/-- The value of digits without point and exponent. An integer that fits 64 bits is
exact, however many digits it has. -/
def ofDigits? (negative : Bool) (whole : List Char) : Option Number :=
  let n := natOfDigits whole
  if negative then
    -- the negative zero is a double, because there is no such whole number
    if n = 0 ∨ Nat.pow 2 63 < n then (doubleOfDigits? true whole [] 0).map double
    else some (integer (-n))
  else if n ≤ wordMax then some (integer n)
  else (doubleOfDigits? false whole [] 0).map double

/-! ## Taking a number off the front of a text -/

/-- The fraction at the front of a text, if there is a point; a point needs a digit. -/
def takeFraction? : List Char → Option (Option (List Char) × List Char)
  | '.' :: cs =>
    let (digits, rest) := spanDigits cs
    if digits.isEmpty then none else some (some digits, rest)
  | cs => some (none, cs)

/-- The exponent at the front of a text, if there is an `e`; an `e` needs a digit. -/
def takeExponent? : List Char → Option (Option Int × List Char)
  | [] => some (none, [])
  | c :: cs =>
    if c = 'e' ∨ c = 'E' then
      let (negative, cs) := takeSign cs
      let (digits, rest) := spanDigits cs
      if digits.isEmpty then none
      else
        let n : Int := natOfDigits digits
        some (some (if negative then -n else n), rest)
    else some (none, c :: cs)

/-- Whether digits may stand before the point: at least one, and no leading zero. -/
def isWhole : List Char → Bool
  | [] => false
  | ['0'] => true
  | c :: _ => c != '0'

/-- The parts of a number's text. -/
structure Lexeme where
  negative : Bool
  /-- The digits before the point. -/
  whole : List Char
  /-- The digits after the point, if there is one. -/
  fraction : Option (List Char)
  exponent : Option Int

/-- The number that a text of digits stands for, unless it is too large for a double. -/
def Lexeme.value? (l : Lexeme) : Option Number :=
  match l.fraction, l.exponent with
  | none, none => ofDigits? l.negative l.whole
  | fraction, exponent =>
    (doubleOfDigits? l.negative l.whole (fraction.getD []) (exponent.getD 0)).map double

/-- The parts of the number a text starts with, and the rest of the text. The grammar is
that of JSON: no plus sign, no leading zero, a digit on both sides of the point. -/
def lex? (cs : List Char) : Option (Lexeme × List Char) := do
  let (negative, cs) :=
    match cs with
    | '-' :: cs => (true, cs)
    | cs => (false, cs)
  let (whole, cs) := spanDigits cs
  if isWhole whole then
    let (fraction, cs) ← takeFraction? cs
    let (exponent, cs) ← takeExponent? cs
    some ({ negative, whole, fraction, exponent }, cs)
  else none

/-- The number a text starts with, and the rest of the text. -/
def take? (cs : List Char) : Option (Number × List Char) := do
  let (lexeme, rest) ← lex? cs
  let number ← lexeme.value?
  some (number, rest)

/-- The number that is the whole text. A number set asks it of each of its members, so a
text with anything around the number travels as a string. -/
def ofText? (cs : List Char) : Option Number :=
  match take? cs with
  | some (number, []) => some number
  | _ => none

end Number

end ItemStore.Json
