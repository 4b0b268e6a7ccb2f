import StraightLine.Number.Binary64

/-!
# Values

What a literal denotes and what an expression evaluates to: a 64-bit signed integer or a binary64
number.  The kind is part of the value, so `2` and `2.0` differ although they compare equal as
numbers.

## Main definitions

* `Value`, `Value.kind` — the two kinds of number.
* `Value.toFloat` — the promotion used as soon as one operand is floating.
* `Value.agrees` — equality by kind and numeric value, under which `0.0` and `-0.0` agree and a
  not-a-number agrees with nothing.
-/

namespace StraightLine

/-- The two kinds of number. -/
inductive Kind where
  | int
  | float
  deriving DecidableEq, Repr, Inhabited

/-- A number of either kind.  Equality is equality of kind and bits; `agrees`
compares as numbers. -/
inductive Value where
  | int (n : Int64)
  | float (x : Float)
  deriving DecidableEq, Inhabited

namespace Value

/-- The kind of a value. -/
def kind : Value → Kind
  | .int _ => .int
  | .float _ => .float

@[simp] theorem kind_int (n : Int64) : (Value.int n).kind = .int := rfl

@[simp] theorem kind_float (x : Float) : (Value.float x).kind = .float := rfl

/-- Whether a value is floating. -/
def isFloat : Value → Bool
  | .int _ => false
  | .float _ => true

/-- The value as a binary64 number. -/
def toFloat : Value → Float
  | .int n => Binary64.ofWord n
  | .float x => x

/-- True of `0`, `0.0` and `-0.0`.  It is asked of divisors. -/
def isZero : Value → Bool
  | .int n => n == 0
  | .float x => x == 0.0

/-- Equal kind and equal number. -/
def agrees : Value → Value → Bool
  | .int a, .int b => a == b
  | .float a, .float b => a == b
  | _, _ => false

end Value

end StraightLine
