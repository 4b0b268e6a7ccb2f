/-!
# Binary64 numbers as dyadic rationals

A finite binary64 number is `±mantissa · 2 ^ exponent` with natural mantissa.  Remainder, rounding
down and the test for an integer are exact on that form, so they are computed there in unbounded
arithmetic and packed back without rounding.

## Main definitions

* `Dyadic`, `Dyadic.ofFloat`, `Dyadic.toFloat` — the decoded form and its packing.
* `Binary64.ofWord` — the nearest number to a machine integer.
* `Binary64.remainder` — the exact remainder with the sign of the dividend.
* `Binary64.floor`, `Binary64.isIntegral`, `Binary64.withSignOf`.
-/

namespace StraightLine

/-- The rational number `±mantissa · Nat.pow 2 exponent`; zero keeps its sign.
A number has many such forms, one for each power of two that divides the
mantissa, so equality of dyadics is finer than equality of the numbers. -/
structure Dyadic where
  negative : Bool
  mantissa : Nat
  exponent : Int
  deriving DecidableEq, Repr

namespace Dyadic

/-- The number of mantissa bits below the leading one. -/
def fractionBits : Nat := 52

/-- The number of values of a fraction field. -/
def fractionSize : Nat := Nat.pow 2 fractionBits

/-- The place value of the sign bit. -/
def signBit : Nat := Nat.pow 2 63

/-- The exponent of the least positive number. -/
def leastExponent : Int := -1074

/-- A finite binary64 number in decoded form.  Infinities and not-a-number have no meaning here. -/
def ofFloat (x : Float) : Dyadic :=
  let bits := x.toBits.toNat
  let fraction := bits % fractionSize
  let biased : Nat := bits / fractionSize % Nat.pow 2 11
  let negative := bits / signBit == 1
  if biased == 0 then ⟨negative, fraction, leastExponent⟩
  else ⟨negative, fraction + fractionSize, ((biased - 1 : Nat) : Int) + leastExponent⟩

/-- The bits of a binary64 number given by sign, exponent field and fraction field. -/
def pack (negative : Bool) (biased fraction : Nat) : Float :=
  .ofBits (UInt64.ofNat ((if negative then signBit else 0) + biased * fractionSize + fraction))

/-- The binary64 number next to a dyadic rational on the side of zero: the
number itself where it is representable, and infinity beyond the greatest finite
number.  Rounding down and the remainder only pack what is representable, so the
direction never shows in a result. -/
def toFloat (d : Dyadic) : Float :=
  if d.mantissa == 0 then pack d.negative 0 0
  else
    -- The exponent at which the mantissa fills all its bits, unless there is no such small one.
    let target := max (d.exponent + (d.mantissa.log2 : Int) - fractionBits) leastExponent
    let mantissa :=
      if d.exponent ≤ target then d.mantissa / Nat.pow 2 (target - d.exponent).toNat
      else d.mantissa * Nat.pow 2 (d.exponent - target).toNat
    if mantissa < fractionSize then pack d.negative 0 mantissa
    else
      let biased := (target - leastExponent + 1).toNat
      if 2047 ≤ biased then pack d.negative 2047 0
      else pack d.negative biased (mantissa - fractionSize)

/-- The magnitude of a dyadic rational rounded down to an integer. -/
def wholePart (d : Dyadic) : Nat :=
  d.mantissa * Nat.pow 2 d.exponent.toNat / Nat.pow 2 (-d.exponent).toNat

/-- Whether a dyadic rational is an integer. -/
def isIntegral (d : Dyadic) : Bool :=
  d.mantissa * Nat.pow 2 d.exponent.toNat % Nat.pow 2 (-d.exponent).toNat == 0

/-- The mantissa that a dyadic rational has at a smaller or equal exponent.  Two
numbers brought to one exponent can be compared, and divided with remainder, as
natural numbers. -/
def mantissaAt (d : Dyadic) (exponent : Int) : Nat :=
  d.mantissa * Nat.pow 2 (d.exponent - exponent).toNat

end Dyadic

namespace Binary64

/-- The binary64 number nearest to a machine integer, a tie going to the even
mantissa.  The magnitude is converted as an unsigned word, in which that of the
least integer still fits. -/
def ofWord (n : Int64) : Float :=
  if n < 0 then -(0 - n.toUInt64).toFloat else n.toUInt64.toFloat

/-- The magnitude of the first number with the sign of the second, which is not
a not-a-number.  The sign is moved as a bit, so it is also that of a zero. -/
def withSignOf (x y : Float) : Float :=
  let sign := y.toBits.toNat / Dyadic.signBit * Dyadic.signBit
  .ofBits (UInt64.ofNat (x.toBits.toNat % Dyadic.signBit + sign))

/-- Whether a finite number is an integer. -/
def isIntegral (x : Float) : Bool := x.isFinite && (Dyadic.ofFloat x).isIntegral

/-- The greatest integer that is not above `x`; infinities and not-a-number stay
as they are, and so does a number that is an integer already, negative zero
among them. -/
def floor (x : Float) : Float :=
  if x.isFinite then
    let d := Dyadic.ofFloat x
    if d.isIntegral then x
    -- Cutting off goes towards zero, which is up for a negative number.
    else Dyadic.toFloat ⟨d.negative, d.wholePart + (if d.negative then 1 else 0), 0⟩
  else x

/-- The exact remainder of a division whose quotient is rounded toward zero.  It
has the sign of the dividend, also when it is zero.  An infinite dividend or a
zero divisor has none.  Brought to a common exponent both operands are integers,
and the remainder of these needs no more bits than one of the operands, so it is
packed as it is. -/
def remainder (x y : Float) : Float :=
  if x.isNaN || y.isNaN || x.isInf || y == 0.0 then 0.0 / 0.0
  else if y.isInf then x
  else
    let a := Dyadic.ofFloat x
    let b := Dyadic.ofFloat y
    let e := min a.exponent b.exponent
    Dyadic.toFloat ⟨a.negative, a.mantissaAt e % b.mantissaAt e, e⟩

end Binary64

end StraightLine
