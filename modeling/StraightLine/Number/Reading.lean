import StraightLine.Number.Shortest

/-!
# Reading decimals

The binary64 number nearest to a decimal.
-/

namespace StraightLine.Decimal

/-- The binary64 number nearest to a decimal.  Magnitudes far outside the range are settled first,
so that no huge power of ten is computed. -/
def nearest (d : Decimal) : Float :=
  if d.digits == 0 then 0.0
  else if 310 < d.magnitude then 1.0 / 0.0
  else if d.magnitude < -330 then 0.0
  else if 0 ≤ d.exponent then Float.ofScientific d.digits false d.exponent.toNat
  else Float.ofScientific d.digits true (-d.exponent).toNat

end StraightLine.Decimal
