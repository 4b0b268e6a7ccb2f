import StraightLine.Saved.Scan

/-!
# Saved programs: skipping values

The value of an unknown field is read over.  Its shape is still checked, but more loosely than that
of a value which is used: numbers may be out of range, surrogates need no partner, and there is no
limit on nesting.

## Design notes

* **The bound on the recursion is the length of the text:** both a level of nesting and an item take
  at least one character.
-/

namespace StraightLine.Saved

/-- The rest of a string literal, whose surrogates are not checked.  Escapes
have to be well-formed all the same. -/
def skipString (s : List Char) : Except Problem (List Char) :=
  match s with
  | [] => .error .endInString
  | '"' :: rest => .ok rest
  | ['\\'] => .error .endInString
  | '\\' :: 'u' :: rest =>
    match h : readQuad rest with
    | .error e => .error e
    | .ok (_, rest') =>
      have := readQuad_length h
      skipString rest'
  | '\\' :: c :: rest =>
    match simpleEscape? c with
    | some _ => skipString rest
    | none => .error .invalidEscape
  | c :: rest => if c.toNat < 0x20 then .error .controlCharacter else skipString rest
termination_by s.length

/-- The rest of a text after at least one digit. -/
def skipDigits (s : List Char) : Except Problem (List Char) :=
  match readDigits s with
  | ([], _) => .error .invalidNumber
  | (_, rest) => .ok rest

/-- The rest of a text after a number without its sign.  Its form is checked and
its size is not, so a numeral may be skipped that could not be read. -/
def skipNumber (s : List Char) : Except Problem (List Char) := do
  let s ←
    match readDigits s with
    | ([], _) => throw .invalidNumber
    | (0 :: _ :: _, _) => throw .invalidNumber
    | (_, rest) => pure rest
  let s ←
    match s with
    | '.' :: s => skipDigits s
    | s => pure s
  match s with
  | 'e' :: s => skipDigits (readExponentSign s).2
  | 'E' :: s => skipDigits (readExponentSign s).2
  | s => pure s

mutual

/-- The rest of a text after a value.  Brackets are counted against the length
of the text and not against the limit on nesting, which only holds for values
that are kept. -/
def skipWithin : Nat → List Char → Except Problem (List Char)
  | 0, _ => .error .endInValue
  | bound + 1, s =>
    match skipBlanks s with
    | [] => .error .endInValue
    | 'n' :: s => (readWord ['u', 'l', 'l'] s).map Prod.snd
    | 't' :: s => (readWord ['r', 'u', 'e'] s).map Prod.snd
    | 'f' :: s => (readWord ['a', 'l', 's', 'e'] s).map Prod.snd
    | '"' :: s => skipString s
    | '[' :: s => skipItems bound true s
    | '\x7b' :: s => skipFields bound true s
    | '-' :: s => skipNumber s
    | c :: s => if (digit? c).isSome then skipNumber (c :: s) else .error .expectedValue

/-- The rest of a text after the items of a list and its closing bracket.  A
comma in front of the bracket is met by the reader of the next value, which
finds no value there. -/
def skipItems : Nat → Bool → List Char → Except Problem (List Char)
  | 0, _, _ => .error .endInList
  | bound + 1, first, s =>
    match skipBlanks s with
    | [] => .error .endInList
    | ']' :: rest => .ok rest
    | c :: rest =>
      if first then
        match skipWithin bound (c :: rest) with
        | .error e => .error e
        | .ok s => skipItems bound false s
      else if c == ',' then
        match skipWithin bound rest with
        | .error e => .error e
        | .ok s => skipItems bound false s
      else .error .expectedListCommaOrEnd

/-- The rest of a text after the fields of an object and its closing brace. -/
def skipFields : Nat → Bool → List Char → Except Problem (List Char)
  | 0, _, _ => .error .endInObject
  | bound + 1, first, s =>
    match skipBlanks s with
    | [] => .error .endInObject
    | '\x7d' :: rest => .ok rest
    | c :: rest =>
      if first then
        match skipField bound (c :: rest) with
        | .error e => .error e
        | .ok s => skipFields bound false s
      else if c == ',' then
        match skipField bound rest with
        | .error e => .error e
        | .ok s => skipFields bound false s
      else .error .expectedObjectCommaOrEnd

/-- The rest of a text after a key, a colon and a value. -/
def skipField : Nat → List Char → Except Problem (List Char)
  | 0, _ => .error .endInObject
  | bound + 1, s =>
    match skipBlanks s with
    | [] => .error .endInObject
    | '"' :: s =>
      match skipString s with
      | .error e => .error e
      | .ok s =>
        match readColon s with
        | .error e => .error e
        | .ok s => skipWithin bound s
    | _ => .error .keyMustBeString

end

/-- The rest of a text after a value of any kind. -/
def skipValue (s : List Char) : Except Problem (List Char) := skipWithin (2 * s.length + 2) s

end StraightLine.Saved
