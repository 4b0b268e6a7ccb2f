import StraightLine.Number.Binary64

/-!
# Numerals

A number as it is written — sign, digits, fraction, exponent — and the number it stands for.

## Main definitions

* `Numeral` — the written parts.
* `ReadNumber`, `Numeral.value?` — an exact integer, or a binary64 number; none if out of range.

## Design notes

* **A numeral without fraction and exponent is an exact integer** as long as its digits fit 64 bits,
  and with a minus sign as long as the value fits a signed word; `-0` is a floating zero.
* **A floating numeral is not rounded correctly.**  Its digits are collected in a 64-bit
  significand, digits that no longer fit are dropped, and the significand is scaled by one power of
  ten in binary64.  So the result can be off by a few units in the last place.
-/

namespace StraightLine

/-- The parts of a written number.  Digits are kept as they are written, zeros
in front and behind included: where they stand decides which of them are
dropped. -/
structure Numeral where
  negative : Bool
  /-- The digits before the point. -/
  whole : List Nat
  /-- The digits after the point, if there is one. -/
  fraction : Option (List Nat)
  /-- The sign (`true` for minus) and the digits of the exponent, if there is one. -/
  exponent : Option (Bool × List Nat)
  deriving DecidableEq, Repr

/-- The number that a numeral stands for: an integer of 64 bits with or without sign, or a binary64
number. -/
inductive ReadNumber where
  | integer (n : Int)
  | float (x : Float)
  deriving DecidableEq

namespace Numeral

/-- The greatest significand. -/
def greatestSignificand : Nat := UInt64.size - 1

/-- Appends digits to a significand up to the first that does not fit, and
returns what is left over.  Once a digit does not fit none behind it is looked
at, even a smaller one. -/
def gather (significand : Nat) : List Nat → Nat × List Nat
  | [] => (significand, [])
  | d :: rest =>
    if significand * 10 + d ≤ greatestSignificand then gather (significand * 10 + d) rest
    else (significand, d :: rest)

/-- The value of a list of decimal digits. -/
def ofDigits (digits : List Nat) : Nat := digits.foldl (fun n d => 10 * n + d) 0

/-- The binary64 number nearest to a power of ten. -/
def tenTo (n : Nat) : Float := Float.ofScientific 1 false n

/-- The greatest power of ten that is used for scaling. -/
def greatestScale : Nat := 308

/-- A number divided by a power of ten, by the greatest scale at a time.  Each
step rounds, and zero ends the descent early, so that an exponent of any length
costs little. -/
def scaleDown (x : Float) (n : Nat) : Float :=
  if n ≤ greatestScale then x / tenTo n
  else if x == 0.0 then x
  else scaleDown (x / tenTo greatestScale) (n - greatestScale)
termination_by n
decreasing_by simp only [greatestScale] at *; omega

/-- A number multiplied by a power of ten.  Beyond the greatest scale only zero has a product. -/
def scaleUp (x : Float) (n : Nat) : Float :=
  if n ≤ greatestScale then x * tenTo n else if x == 0.0 then x else 1.0 / 0.0

/-- A significand scaled by a power of ten; none if the result is not finite.
Infinity is no answer here: a numeral that is too great is refused, and one that
is too small is zero. -/
def scale? (significand : Nat) (exponent : Int) : Option Float :=
  let x := significand.toUInt64.toFloat
  let scaled :=
    if 0 ≤ exponent then scaleUp x exponent.toNat else scaleDown x (-exponent).toNat
  if scaled.isFinite then some scaled else none

/-- The written exponent. -/
def writtenExponent (n : Numeral) : Int :=
  match n.exponent with
  | none => 0
  | some (true, digits) => -(ofDigits digits : Int)
  | some (false, digits) => ofDigits digits

/-- The binary64 number of a numeral: every dropped digit before the point raises the exponent,
every kept digit after it lowers the exponent. -/
def float? (n : Numeral) : Option Float :=
  let (wholePart, dropped) := gather 0 n.whole
  let digits := n.fraction.getD []
  let (significand, lost) := gather wholePart digits
  let exponent :=
    (dropped.length : Int) - ((digits.length - lost.length : Nat) : Int) + n.writtenExponent
  (scale? significand exponent).map fun x => if n.negative then -x else x

/-- The exact integer of a numeral without fraction and exponent, if it is in
range.  A minus sign needs a value that a signed word holds, and refuses zero,
which has a sign only as a floating number. -/
def integer? (n : Numeral) : Option Int :=
  match n.fraction, n.exponent, gather 0 n.whole with
  | none, none, (m, []) =>
    if n.negative then
      if m = 0 ∨ -(m : Int) < Int64.minValue.toInt then none else some (-(m : Int))
    else some m
  | _, _, _ => none

/-- The number that a numeral stands for; none if it is out of range.  A numeral
in the form of an integer that is out of range as one is read again as a
floating number. -/
def value? (n : Numeral) : Option ReadNumber :=
  match n.integer? with
  | some m => some (.integer m)
  | none => n.float?.map .float

end Numeral

end StraightLine
