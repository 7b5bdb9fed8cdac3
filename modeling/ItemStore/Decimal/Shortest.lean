import ItemStore.Decimal.Digits

/-
The shortest decimal that names a double.

A double is written with as few digits as tell it apart from every other double,
and with the nearest of the candidates when several are equally short. A decimal
`d * 10^k` names `x` when `x` is the double nearest to it, so the search below
goes through the grids `10^k` from a coarse one to finer ones and stops at the
first grid on which one of the two neighbours of `x` names it. Everything is
exact: `x` is `m * 2^q`, and its neighbours on a grid are a quotient of natural
numbers and that quotient plus one.

What is left open by "shortest, then nearest" is a value that lies exactly in
the middle between two candidates; the two notations of this library settle it
differently, so it is a parameter.
-/
set_option autoImplicit false

namespace ItemStore.Decimal

/-- Which neighbour is preferred when both are equally far away. -/
inductive Tie where
  /-- The larger one. -/
  | up
  /-- The one whose last digit is even. -/
  | even
  deriving DecidableEq, Repr

/-- The nonnegative decimal `digits * 10 ^ exponent`. -/
structure Numeral where
  digits : Nat
  exponent : Int
  deriving DecidableEq, Repr

/-- The double nearest to `digits * 10 ^ exponent`, ties to the even mantissa; infinity
when there is none. The conversion itself is core's; what is known about it is proved
from its definition, not assumed. -/
def nearest (digits : Nat) (exponent : Int) : Float :=
  Float.ofScientific digits (exponent < 0) exponent.natAbs

/-- The double a decimal names. -/
def Numeral.toFloat (d : Numeral) : Float := nearest d.digits d.exponent

/-! ## A double as a whole number times a power of two -/

/-- The sign bit. -/
def isNegative (x : Float) : Bool := x.toBits >>> 63 == 1

/-- A finite double is `(-1)^sign * mantissa * 2^exponent`; this is the mantissa. -/
def mantissa (x : Float) : Nat :=
  let bits := x.toBits.toNat
  let fraction := bits % Nat.pow 2 52
  if bits / Nat.pow 2 52 % Nat.pow 2 11 = 0 then fraction else Nat.pow 2 52 + fraction

/-- The exponent that belongs to `mantissa`. -/
def binaryExponent (x : Float) : Int :=
  let e : Nat := x.toBits.toNat / Nat.pow 2 52 % Nat.pow 2 11
  if e = 0 then -1074 else (e : Int) - 1075

/-! ## The search -/

/-- The neighbours of `num / den` among the whole numbers, the nearer one first. -/
def neighbours (tie : Tie) (num den : Nat) : List Nat :=
  let low := num / den
  let twice := 2 * (num % den)
  -- the remainder is compared with half of the denominator
  let lowFirst := twice < den ∨ (twice = den ∧ tie = .even ∧ low % 2 = 0)
  if lowFirst then [low, low + 1] else [low + 1, low]

/-- The neighbours of `m * 2^q` on the grid `10^k`, as multiples of `10^k`. -/
def neighboursOnGrid (tie : Tie) (m : Nat) (q k : Int) : List Nat :=
  neighbours tie (m * Nat.pow 2 q.toNat * Nat.pow 10 (-k).toNat)
    (Nat.pow 2 (-q).toNat * Nat.pow 10 k.toNat)

/-- The nearest decimal on the grid `10^k` that names `x`, where `x` is `m * 2^q`. -/
def onGrid? (tie : Tie) (x : Float) (m : Nat) (q k : Int) : Option Numeral :=
  ((neighboursOnGrid tie m q k).find? fun d => nearest d k == x).map fun d => ⟨d, k⟩

/-- The first hit on the grids `10^k`, `10^(k-1)`, …, of which `grids` are tried. -/
def search (tie : Tie) (x : Float) (m : Nat) (q : Int) : (grids : Nat) → (k : Int) → Option Numeral
  | 0, _ => none
  | grids + 1, k => (onGrid? tie x m q k).or (search tie x m q grids (k - 1))

/-- The decimal that is exactly `m * 2^q`. -/
def exact (m : Nat) (q : Int) : Numeral :=
  if q < 0 then ⟨m * Nat.pow 5 q.natAbs, q⟩ else ⟨m * Nat.pow 2 q.natAbs, 0⟩

/-- A grid coarser than `m * 2^q`: the value is below `2^b` for the `b` below, and
`10^(b * 0.30103 + 1)` is above that. -/
def coarsest (m : Nat) (q : Int) : Int :=
  ((Nat.log2 m + 1 : Int) + q) * 30103 / 100000 + 1

/-- The shortest decimal that names a finite positive double. Seventeen digits are
enough for any double, so twenty grids from the coarsest one on contain a hit; the exact
value stands behind them. That no shorter decimal names the double is how it is searched
for; that the one that is found names it at all is what reading back rests on. -/
def shortest (tie : Tie) (x : Float) : Numeral :=
  let m := mantissa x
  let q := binaryExponent x
  (search tie x m q 20 (coarsest m q)).getD (exact m q)

end ItemStore.Decimal
