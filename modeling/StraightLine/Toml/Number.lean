import StraightLine.Number.Reading
import StraightLine.Toml.Moment

/-!
# TOML: numbers and dates

Integers of four bases, floating numbers, and dates and times, which start like numbers.

## Design notes

* **Integers are signed words;** a literal beyond them is no TOML.
* **A positive floating number beyond the greatest finite one is no TOML,** a negative one is
  negative infinity.
-/

namespace StraightLine.Toml

/-- The number that a text denotes.  A moment is among them, since only its
first characters tell it from a number. -/
inductive Number where
  | integer (n : Int)
  | float (x : Float)
  | moment

/-- Digits of a base with single underscores between them, at least one.  An
underscore has to have a digit on either side, so one at the end is a fault and
not the start of something else. -/
def readDigits (base : Nat) : Parser (List Nat)
  | [] => none
  | c :: s =>
    match (hexValue? c).filter (· < base) with
    | none => none
    | some d =>
      match s with
      | '_' :: s => (readDigits base s).map fun (ds, s) => (d :: ds, s)
      | c' :: s =>
        if ((hexValue? c').filter (· < base)).isSome then
          (readDigits base (c' :: s)).map fun (ds, s) => (d :: ds, s)
        else some ([d], c' :: s)
      | [] => some ([d], [])

/-- The value of digits of a base. -/
def ofDigits (base : Nat) (digits : List Nat) : Nat := digits.foldl (fun n d => base * n + d) 0

/-- An integer that is a signed word. -/
def word? (n : Int) : Option Number :=
  if Int64.minValue.toInt ≤ n ∧ n ≤ Int64.maxValue.toInt then some (.integer n) else none

/-- An integer of a base behind its mark. -/
def readBased (base : Nat) : Parser Number := fun s =>
  (readDigits base s).bind fun (digits, s) =>
    (word? (ofDigits base digits)).map fun n => (n, s)

/-- A sign, `true` for minus, if there is one. -/
def readSign : List Char → Bool × List Char
  | '+' :: s => (false, s)
  | '-' :: s => (true, s)
  | s => (false, s)

/-- The digits before the point: zero alone, or digits that do not start with zero. -/
def readWhole : Parser (List Nat)
  | '0' :: s => some ([0], s)
  | s => readDigits 10 s

/-- The fraction of a floating number behind its whole part: none, or a point and digits. -/
def readFraction : Parser (Option (List Nat))
  | '.' :: s => (readDigits 10 s).map fun (ds, s) => (some ds, s)
  | s => some (none, s)

/-- The exponent of a floating number: none, or a mark, a sign and digits. -/
def readExponent (s : List Char) : Option (Option Int × List Char) :=
  let behindMark (s : List Char) : Option (Option Int × List Char) :=
    let (negative, s) := readSign s
    (readDigits 10 s).map fun (ds, s) =>
      let n : Int := ofDigits 10 ds
      (some (if negative then -n else n), s)
  match s with
  | 'e' :: s => behindMark s
  | 'E' :: s => behindMark s
  | s => some (none, s)

/-- The floating number with the given parts, unless it is beyond the greatest
one.  The sign is put on after the test for infinity was made on the magnitude,
and the test is not made for negative numbers. -/
def float? (negative : Bool) (whole : List Nat) (fraction : List Nat) (exponent : Int) :
    Option Number :=
  let x := Decimal.nearest ⟨ofDigits 10 (whole ++ fraction), exponent - fraction.length⟩
  if negative then some (.float (-x)) else if x.isInf then none else some (.float x)

/-- An integer or a floating number in decimal digits, behind its sign.  A
fraction or an exponent makes it floating, even where its value is an integer. -/
def readDecimal (negative : Bool) : Parser Number := fun s => do
  let (whole, s) ← readWhole s
  let (fraction, s) ← readFraction s
  let (exponent, s) ← readExponent s
  match fraction, exponent with
  | none, none =>
    let n : Int := ofDigits 10 whole
    let word ← word? (if negative then -n else n)
    return (word, s)
  | fraction, exponent =>
    let x ← float? negative whole (fraction.getD []) (exponent.getD 0)
    return (x, s)

/-! ### All kinds -/

/-- A number, a date or a time.  Bases other than ten take no sign, and the
words for infinity and not-a-number take one. -/
def readNumber (s : List Char) : Option (Number × List Char) :=
  match readMoment? s with
  | some behind => behind.map fun s => (.moment, s)
  | none =>
    match s with
    | '0' :: 'x' :: s => readBased 16 s
    | '0' :: 'o' :: s => readBased 8 s
    | '0' :: 'b' :: s => readBased 2 s
    | s =>
      let (negative, s) := readSign s
      match s with
      | 'i' :: 'n' :: 'f' :: s =>
        some (.float (if negative then -1.0 / 0.0 else 1.0 / 0.0), s)
      | 'n' :: 'a' :: 'n' :: s => some (.float (0.0 / 0.0), s)
      | s => readDecimal negative s

end StraightLine.Toml
