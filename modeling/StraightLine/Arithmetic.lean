import StraightLine.Expr
import StraightLine.Number.Style
import StraightLine.Number.Word

/-!
# Arithmetic

What an operator does to two values.  Two integers stay integers under `+`, `-`, `*`, `//` and `%`,
whose exact result has to fit; in all other cases both operands are promoted and the operation is
carried out in binary64.  `//` and `%` round down, so a remainder has the sign of the divisor.

## Main definitions

* `EvalError` — the ways in which an evaluation fails, with `EvalError.message`.
* `Operator.applyInt`, `Operator.applyFloat` — the two kinds of arithmetic.
* `Operator.apply` — the operator on values.
-/

namespace StraightLine

/-- Why an evaluation failed.  The errors of arithmetic name the operator and
not its operands. -/
inductive EvalError where
  /-- A variable was read that no scope of the chain declares. -/
  | undefinedVariable (name : String)
  /-- The divisor was zero. -/
  | divisionByZero (op : Operator)
  /-- The exact integer result does not fit a machine integer. -/
  | overflow (op : Operator)
  deriving DecidableEq, Repr

namespace EvalError

/-- The reason given for an operation whose result does not fit. -/
def overflowReason : String := "integer overflow"

/-- The text of an evaluation error. -/
def message : EvalError → String
  | .undefinedVariable name => "undefined variable '" ++ name ++ "'"
  | .divisionByZero op => "division by zero in '" ++ op.symbol ++ "'"
  | .overflow op => "invalid operation '" ++ op.symbol ++ "': " ++ overflowReason

end EvalError

namespace Value

/-- The text of a value: a numeral for an integer; a floating number always has a point. -/
def text : Value → String
  | .int n => toString n.toInt
  | .float x => floatText x

end Value

namespace Binary64

/-- Quotient rounded down and remainder of a division by a number that is not zero.  Both come from
one exact remainder, so that quotient times divisor plus remainder recovers the dividend as well as
rounding allows.  A zero remainder has the sign of the divisor, a zero quotient the one of the
ratio. -/
def floorDivMod (left right : Float) : Float × Float :=
  let exact := remainder left right
  let ratio := (left - exact) / right
  let (quotient, rest) :=
    if exact != 0.0 then
      if decide (exact < 0.0) != decide (right < 0.0) then (ratio - 1.0, exact + right)
      else (ratio, exact)
    else (ratio, withSignOf 0.0 right)
  if quotient == 0.0 then (withSignOf 0.0 (left / right), rest)
  else
    -- The quotient is an integer up to rounding: take the nearest one.
    let floored := floor quotient
    (if quotient - floored > 0.5 then floored + 1.0 else floored, rest)

end Binary64

namespace Operator

/-- An exact integer result, or the error of an operator whose result does not
fit.  All integer operators that can be out of range end here. -/
def fit (op : Operator) : Option Int64 → Except EvalError Value
  | some n => .ok (.int n)
  | none => .error (.overflow op)

/-- An operator on two integers.  `/` and `**` leave the integers and promote
both operands; the remainder always fits, also where the quotient does not. -/
def applyInt (op : Operator) (left right : Int64) : Except EvalError Value :=
  match op with
  | .plus => op.fit (Word.add? left right)
  | .minus => op.fit (Word.sub? left right)
  | .times => op.fit (Word.mul? left right)
  | .floatDiv =>
    if right == 0 then .error (.divisionByZero op)
    else .ok (.float (Binary64.ofWord left / Binary64.ofWord right))
  | .intDiv =>
    if right == 0 then .error (.divisionByZero op) else op.fit (Word.floorDiv? left right)
  | .modulus =>
    if right == 0 then .error (.divisionByZero op) else .ok (.int (Word.floorMod left right))
  | .exponentiation => .ok (.float (Binary64.ofWord left ^ Binary64.ofWord right))

/-- An operator on two floating numbers.  Nothing but a zero divisor is an
error: infinities and not-a-number are results like others. -/
def applyFloat (op : Operator) (left right : Float) : Except EvalError Float :=
  if op.divides && right == 0.0 then .error (.divisionByZero op)
  else
    .ok <|
      match op with
      | .plus => left + right
      | .minus => left - right
      | .times => left * right
      | .floatDiv => left / right
      | .intDiv => (Binary64.floorDivMod left right).1
      | .modulus => (Binary64.floorDivMod left right).2
      | .exponentiation => left ^ right

/-- An operator on two values: integer arithmetic if both are integers, binary64 otherwise. -/
def apply (op : Operator) : Value → Value → Except EvalError Value
  | .int left, .int right => op.applyInt left right
  | left, right => (op.applyFloat left.toFloat right.toFloat).map .float

end Operator

end StraightLine
