import StraightLine.Toml.Text

/-!
# TOML: dates and times

A moment is a date, a time of day, or both, then perhaps with an offset from universal time.  Its
value is not kept: only that it is one.

## Main definitions

* `Toml.readMoment?` — a moment at the start of a text.
* `Toml.isMoment` — whether a whole string is a moment.

## Design notes

* **The start decides.**  Four digits and a hyphen begin a date, two digits and a colon a time of
  day; what begins so can not be a number.
* **A date in a string has the rules of a date in the document,** and has to fill the string.
-/

namespace StraightLine.Toml

/-- The value of a decimal digit. -/
def digit? (c : Char) : Option Nat :=
  if '0' ≤ c ∧ c ≤ '9' then some (c.toNat - '0'.toNat) else none

/-- Exactly two decimal digits with a value in a range.  All numbers of a moment
but the fraction of a second are made of such pairs, the year of two of them. -/
def readPair (low high : Nat) : Parser Nat
  | a :: b :: s =>
    match digit? a, digit? b with
    | some a, some b =>
      let n := a * 10 + b
      if low ≤ n ∧ n ≤ high then some (n, s) else none
    | _, _ => none
  | _ => none

/-- A given character. -/
def readMark (mark : Char) (s : List Char) : Option (List Char) :=
  match s with
  | c :: s => if c == mark then some s else none
  | [] => none

/-- Whether a text starts with `count` digits and a mark, and no more digits
than these. -/
def startsWith (count : Nat) (mark : Char) (s : List Char) : Bool :=
  (s.takeWhile fun c => (digit? c).isSome).length == count &&
    (s.dropWhile fun c => (digit? c).isSome).head? == some mark

/-- Whether a year of the Gregorian calendar has a leap day. -/
def isLeapYear (year : Nat) : Bool := year % 4 == 0 && (year % 100 != 0 || year % 400 == 0)

/-- The number of days of a month. -/
def daysIn (year month : Nat) : Nat :=
  match month with
  | 2 => if isLeapYear year then 29 else 28
  | 4 | 6 | 9 | 11 => 30
  | _ => 31

/-- The text behind a date: year, month and day. -/
def readDate (s : List Char) : Option (List Char) := do
  let (century, s) ← readPair 0 99 s
  let (year, s) ← readPair 0 99 s
  let s ← readMark '-' s
  let (month, s) ← readPair 1 12 s
  let s ← readMark '-' s
  let (_, s) ← readPair 1 (daysIn (century * 100 + year) month) s
  return s

/-- The text behind a time of day, with a fraction of a second if there is one.
A second can have the number sixty, as leap seconds do, at any time of day. -/
def readTime (s : List Char) : Option (List Char) := do
  let (_, s) ← readPair 0 23 s
  let s ← readMark ':' s
  let (_, s) ← readPair 0 59 s
  let s ← readMark ':' s
  let (_, s) ← readPair 0 60 s
  match s with
  | '.' :: s =>
    match s with
    | c :: _ => if (digit? c).isSome then some (s.dropWhile fun c => (digit? c).isSome) else none
    | [] => none
  | s => return s

/-- The text behind an offset from universal time, if there is one. -/
def readOffset (s : List Char) : Option (List Char) :=
  let span (s : List Char) : Option (List Char) := do
    let (_, s) ← readPair 0 23 s
    let s ← readMark ':' s
    let (_, s) ← readPair 0 59 s
    return s
  match s with
  | 'Z' :: s => some s
  | 'z' :: s => some s
  | '+' :: s => span s
  | '-' :: s => span s
  | s => some s

/-- The text behind a date, which a time can follow after a `T` or a space.
What follows and does not start like a time is left where it is, separator
included, for the end of the line to judge. -/
def readDated (s : List Char) : Option (List Char) :=
  let withTime (behindDate s : List Char) : Option (List Char) :=
    if startsWith 2 ':' s then (readTime s).bind readOffset else some behindDate
  (readDate s).bind fun s =>
    match s with
    | 'T' :: rest => withTime s rest
    | 't' :: rest => withTime s rest
    | ' ' :: rest => withTime s rest
    | s => some s

/-- What is behind the moment at the start of a text: `none` if the text does
not start like a moment, `some none` if it does and is wrong further on.  The
two are told apart because the first leaves a number to be tried and the second
does not. -/
def readMoment? (s : List Char) : Option (Option (List Char)) :=
  if startsWith 4 '-' s then some (readDated s)
  else if startsWith 2 ':' s then some (readTime s)
  else none

/-- Whether a string is a moment, and nothing else. -/
def isMoment (text : String) : Bool := readMoment? text.toList == some (some [])

end StraightLine.Toml
