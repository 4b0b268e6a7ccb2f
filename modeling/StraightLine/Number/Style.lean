import StraightLine.Number.Shortest

/-!
# Number styles

How a binary64 number is written.  All styles print the shortest digits that read back; they differ
in where positional notation ends, in the sign of a positive exponent, in the resolution of ties and
in whether a number that is not finite has a text.

## Main definitions

* `NumberStyle` — the choices.
* `NumberStyle.text?` — the text of a number.
* `NumberStyle.source`, `NumberStyle.json`, `NumberStyle.trace` — the styles in use.
-/

namespace StraightLine

/-- The choices that a number format makes.  The digits themselves are the
shortest ones in every style, so texts of different styles read back as the same
number. -/
structure NumberStyle where
  /-- Whether a number whose leading digit has this power of ten is written positionally. -/
  positional : Int → Bool
  /-- Whether a positive exponent carries a sign. -/
  signedExponent : Bool
  /-- Which of two equally near decimals is written. -/
  tie : Tie
  /-- Whether infinities and not-a-number have a text. -/
  nonFinite : Bool

namespace NumberStyle

/-- Values in source text and messages: always positional, with a point also in an integer. -/
def source : NumberStyle := ⟨fun _ => true, false, .up, true⟩

/-- Numbers in JSON: positional from `0.00001` to below `1e+16`; only finite numbers. -/
def json : NumberStyle := ⟨fun e => -5 ≤ e && e ≤ 15, true, .toEven, false⟩

/-- Values in log fields: positional from `0.0001` to below `1e16`. -/
def trace : NumberStyle := ⟨fun e => -4 ≤ e && e ≤ 15, false, .up, true⟩

/-- A decimal in positional notation with at least one digit after the point.
Zeros fill the places between the digits and the point on either side. -/
def positionalText (d : Decimal) : String :=
  let digits := toString d.digits
  if 0 ≤ d.exponent then digits ++ "".pushn '0' d.exponent.toNat ++ ".0"
  else
    let places := (-d.exponent).toNat
    let padded := "".pushn '0' (places + 1 - digits.length) ++ digits
    let chars := padded.toList
    String.ofList (chars.take (chars.length - places)) ++ "." ++
      String.ofList (chars.drop (chars.length - places))

/-- A decimal as one digit before the point and a power of ten. -/
def scientificText (s : NumberStyle) (d : Decimal) : String :=
  let chars := (toString d.digits).toList
  let fraction := chars.drop 1
  let mark := if 0 ≤ d.magnitude && s.signedExponent then "e+" else "e"
  String.ofList (chars.take 1) ++
    (if fraction.isEmpty then "" else "." ++ String.ofList fraction) ++ mark ++ toString d.magnitude

/-- The text of a decimal. -/
def decimalText (s : NumberStyle) (d : Decimal) : String :=
  if s.positional d.magnitude then positionalText d else s.scientificText d

/-- The text of a finite number.  Zero has no leading digit, so it is written
apart, with its sign. -/
def finiteText (s : NumberStyle) (x : Float) : String :=
  let d := Dyadic.ofFloat x
  let unsigned := if d.mantissa == 0 then "0.0" else s.decimalText (d.shortest s.tie)
  if d.negative then "-" ++ unsigned else unsigned

/-- The text of a number that is not finite. -/
def nonFiniteText (x : Float) : String :=
  if x.isNaN then "NaN" else if x < 0.0 then "-inf" else "inf"

/-- The text of a number, if the style has one. -/
def text? (s : NumberStyle) (x : Float) : Option String :=
  if x.isFinite then some (s.finiteText x)
  else if s.nonFinite then some (nonFiniteText x)
  else none

end NumberStyle

/-- The text of a number in source text and messages.  The style has a text for
every number, so this one needs no option. -/
def floatText (x : Float) : String :=
  if x.isFinite then NumberStyle.source.finiteText x else NumberStyle.nonFiniteText x

end StraightLine
