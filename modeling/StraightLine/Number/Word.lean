/-!
# Machine integers

Arithmetic on 64-bit signed integers whose result is refused where it does not fit, and division
that rounds down.  The machine divides toward zero; the two floored operations correct its answer
by one step.
-/

namespace StraightLine.Word

/-- The machine integer with the given value, if there is one.  Every operation
below is the operation of the integers followed by this test, or agrees with it. -/
def ofInt? (n : Int) : Option Int64 :=
  if Int64.minValue.toInt ≤ n ∧ n ≤ Int64.maxValue.toInt then some (Int64.ofInt n) else none

/-- The exact sum. -/
def add? (a b : Int64) : Option Int64 := ofInt? (a.toInt + b.toInt)

/-- The exact difference. -/
def sub? (a b : Int64) : Option Int64 := ofInt? (a.toInt - b.toInt)

/-- The exact product. -/
def mul? (a b : Int64) : Option Int64 := ofInt? (a.toInt * b.toInt)

/-- The machine quotient by a non-zero divisor, refused in the one case where it
does not fit: the least integer has no opposite. -/
def div? (a b : Int64) : Option Int64 :=
  if a == Int64.minValue && b == -1 then none else some (a / b)

/-- Whether the operands have different signs, zero counting as positive. -/
def signsDiffer (a b : Int64) : Bool := decide (a < 0) != decide (b < 0)

/-- The quotient by a non-zero divisor rounded down.  The machine rounds toward
zero, which is one too many exactly if the division leaves a remainder and the
signs differ; the correction can not leave the range, as the quotient is far
from its ends there. -/
def floorDiv? (a b : Int64) : Option Int64 :=
  (div? a b).map fun quotient =>
    if a % b != 0 && signsDiffer a b then quotient - 1 else quotient

/-- The remainder of the division that rounds down; it has the sign of the
divisor.  A remainder of the other sign is one divisor short of it, and the sum
of two numbers of different signs fits. -/
def floorMod (a b : Int64) : Int64 :=
  let remainder := a % b
  if remainder != 0 && signsDiffer remainder b then remainder + b else remainder

end StraightLine.Word
