import StraightLine.Number.Binary64

/-!
# Shortest decimals

The decimal with the fewest digits among those that round to a given binary64 number, and of these
the one nearest to it.

## Main definitions

* `Decimal` — digits and a power of ten.
* `RoundingInterval` — the rationals that round to a number, over a common denominator.
* `Dyadic.shortest` — the decimal, for a positive finite number.

## Design notes

* **All comparisons are in `Nat`.**  The number, the ends of its interval and a point of a decimal
  grid are brought to one denominator, so there is no estimate and nothing to correct.
* **Only two candidates per grid.**  If a point of a grid lies in the interval, so does one of the
  two grid points next to the number; the first grid with a hit has the fewest digits.
* Both neighbours at the same distance is the one case that the rule leaves open; `Tie` decides it.
-/

namespace StraightLine

/-- Which of two equally near decimals is taken.  The two printers in use differ
in this, on numbers that lie half-way between the shortest decimals next to
them. -/
inductive Tie where
  /-- The one of greater magnitude. -/
  | up
  /-- The one whose last digit is even. -/
  | toEven
  deriving DecidableEq, Repr

/-- The number `digits · 10 ^ exponent`. -/
structure Decimal where
  digits : Nat
  exponent : Int
  deriving DecidableEq, Repr

namespace Decimal

/-- The number of decimal digits of a natural number; zero has one. -/
def digitCount (n : Nat) : Nat := (Nat.toDigits 10 n).length

/-- The power of ten of the leading digit. -/
def magnitude (d : Decimal) : Int := d.exponent + (digitCount d.digits : Int) - 1

/-- Zeros at the end of the digits moved into the exponent, at most `fuel` of
them.  Zero itself is left as it is, as all of its digits could go. -/
def dropZeros : Nat → Decimal → Decimal
  | 0, d => d
  | fuel + 1, d =>
    if d.digits % 10 == 0 && d.digits != 0 then dropZeros fuel ⟨d.digits / 10, d.exponent + 1⟩
    else d

end Decimal

/-- A positive number `value / unit` with the ends `low / unit` and `high /
unit` of the interval of rationals that round to it; the ends belong to it
exactly if `closed`.  With one denominator for all three every comparison is one
of natural numbers. -/
structure RoundingInterval where
  value : Nat
  low : Nat
  high : Nat
  unit : Nat
  closed : Bool

namespace RoundingInterval

/-- The interval of a positive finite number: half-way to both neighbours.  The
neighbour below a power of two is only half as far away, except at the bottom of
the range.  An end rounds to the number with the even mantissa, which is this
one exactly if the interval is closed. -/
def ofDyadic (d : Dyadic) : RoundingInterval :=
  let scale := Nat.pow 2 d.exponent.toNat
  let below :=
    if d.mantissa == Dyadic.fractionSize && Dyadic.leastExponent < d.exponent then 1 else 2
  { value := 4 * d.mantissa * scale
    low := (4 * d.mantissa - below) * scale
    high := (4 * d.mantissa + 2) * scale
    unit := 4 * Nat.pow 2 (-d.exponent).toNat
    closed := d.mantissa % 2 == 0 }

/-- Whether `n / unit` lies in the interval. -/
def covers (r : RoundingInterval) (n : Nat) : Bool :=
  if r.closed then r.low ≤ n && n ≤ r.high else r.low < n && n < r.high

/-- The interval of the number divided by `10 ^ exponent`. -/
def rescale (r : RoundingInterval) (exponent : Int) : RoundingInterval :=
  let up := Nat.pow 10 (-exponent).toNat
  { r with
    value := r.value * up
    low := r.low * up
    high := r.high * up
    unit := r.unit * Nat.pow 10 exponent.toNat }

/-- The power of ten of the leading digit of the number. -/
def magnitude (r : RoundingInterval) : Int :=
  if r.unit ≤ r.value then (Decimal.digitCount (r.value / r.unit) : Int) - 1
  else -(Decimal.digitCount ((r.unit + r.value - 1) / r.value - 1) : Int)

/-- Whether the integer above the number is to be preferred to the one below it. -/
def prefersUp (r : RoundingInterval) (tie : Tie) : Bool :=
  match compare (2 * (r.value % r.unit)) r.unit with
  | .lt => false
  | .gt => true
  | .eq => tie == .up || r.value / r.unit % 2 == 1

/-- The integer nearest to the number among the two next to it, if it lies in
the interval.  Where only one of the two lies in the interval it is taken even
if the other one is nearer, which happens next to a power of two. -/
def nearestInteger? (r : RoundingInterval) (tie : Tie) : Option Nat :=
  let below := r.value / r.unit
  match r.covers (below * r.unit), r.covers ((below + 1) * r.unit) with
  | true, true => some (if r.prefersUp tie then below + 1 else below)
  | true, false => some below
  | false, true => some (below + 1)
  | false, false => none

end RoundingInterval

/-- The shortest decimal that rounds to a positive finite number.  Grids are
tried from the coarsest on, with one more digit each, so the first hit has the
fewest digits; the zeros that a hit can end in are moved into the exponent. -/
def Dyadic.shortest (d : Dyadic) (tie : Tie) : Decimal :=
  let r := RoundingInterval.ofDyadic d
  let magnitude := r.magnitude
  let onGrid (count : Nat) : Option Decimal :=
    let exponent := magnitude - count
    ((r.rescale exponent).nearestInteger? tie).map fun digits =>
      Decimal.dropZeros (count + 2) ⟨digits, exponent⟩
  -- Seventeen digits always identify a number.
  ((List.range 17).findSome? onGrid).getD ⟨0, 0⟩

end StraightLine
