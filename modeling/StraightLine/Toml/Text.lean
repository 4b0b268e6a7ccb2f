/-!
# TOML: blanks, strings and keys

The characters of a TOML document outside its numbers.  Every step returns what it read and the text
behind it, or nothing if the text is not TOML.

## Design notes

* **Line ends are made uniform first:** a carriage return with a line feed counts as a line feed.  A
  carriage return alone is not allowed anywhere.
-/

namespace StraightLine.Toml

/-- A step of reading: a value and the rest of the text.  Why a text is not TOML
is not told, so a step that fails says no more than that. -/
abbrev Parser (α : Type) := List Char → Option (α × List Char)

/-- The text behind spaces and tabs. -/
def skipSpace (s : List Char) : List Char := s.dropWhile fun c => c == ' ' || c == '\t'

/-- A text with every line end as a single line feed.  A carriage return that is
left stands alone, and no step accepts it. -/
def unifyLineEnds : List Char → List Char
  | '\r' :: '\n' :: s => '\n' :: unifyLineEnds s
  | c :: s => c :: unifyLineEnds s
  | [] => []

/-- The text behind one line end. -/
def newline? : List Char → Option (List Char)
  | '\n' :: s => some s
  | _ => none

/-- The characters allowed in comments and, their delimiters apart, in strings on one line. -/
def isPlain (c : Char) : Bool := c == '\t' || (0x20 ≤ c.toNat && c.toNat != 0x7f)

/-- The text behind a comment, if there is one; the line end stays.  A character
that no comment may hold ends it as well, and is then met by whoever looks for
the line end. -/
def skipComment : List Char → List Char
  | '#' :: s => s.dropWhile isPlain
  | s => s

/-- The text behind the end of a line: blanks, a comment, and a line end or the end of the text. -/
def endOfLine? (s : List Char) : Option (List Char) :=
  match skipComment (skipSpace s) with
  | [] => some []
  | s => newline? s

/-- The text behind blanks, comments and line ends; at most `bound` line ends.
A comment without a line end behind it is left in place, with the blanks in
front of it gone. -/
def skipLinesWithin : Nat → List Char → List Char
  | 0, s => s
  | bound + 1, s =>
    let s := skipSpace s
    match newline? (skipComment s) with
    | some s => skipLinesWithin bound s
    | none => s

/-- The text behind blanks, comments and line ends. -/
def skipLines (s : List Char) : List Char := skipLinesWithin (s.length + 1) s

/-! ### Strings -/

/-- The value of a hexadecimal digit of either case. -/
def hexValue? (c : Char) : Option Nat :=
  if '0' ≤ c ∧ c ≤ '9' then some (c.toNat - '0'.toNat)
  else if 'a' ≤ c ∧ c ≤ 'f' then some (c.toNat - 'a'.toNat + 10)
  else if 'A' ≤ c ∧ c ≤ 'F' then some (c.toNat - 'A'.toNat + 10)
  else none

/-- A number of exactly `count` hexadecimal digits, behind those already read. -/
def hexNumber : Nat → Nat → Parser Nat
  | 0, n, s => some (n, s)
  | count + 1, n, c :: s => (hexValue? c).bind fun d => hexNumber count (n * 16 + d) s
  | _ + 1, _, [] => none

/-- The character with a given code point.  Surrogates are no characters, alone
or in pairs. -/
def character? (n : Nat) : Option Char := if n.isValidChar then some (Char.ofNat n) else none

/-- The character of an escape behind its backslash.  A code point is written
with four digits or, by another letter, with eight; there are no pairs of
escapes for one character. -/
def readEscape : Parser Char
  | 'b' :: s => some ('\x08', s)
  | 't' :: s => some ('\t', s)
  | 'n' :: s => some ('\n', s)
  | 'f' :: s => some ('\x0c', s)
  | 'r' :: s => some ('\r', s)
  | '"' :: s => some ('"', s)
  | '\\' :: s => some ('\\', s)
  | 'u' :: s => (hexNumber 4 0 s).bind fun (n, s) => (character? n).map fun c => (c, s)
  | 'U' :: s => (hexNumber 8 0 s).bind fun (n, s) => (character? n).map fun c => (c, s)
  | _ => none

/-- The rest of a text in double quotes on one line; at most `bound` characters.
The bound is for the escapes, which take up several characters at once. -/
def basicWithin : Nat → Parser (List Char)
  | 0, _ => none
  | _ + 1, [] => none
  | bound + 1, c :: s =>
    match c with
    | '"' => some ([], s)
    | '\\' =>
      (readEscape s).bind fun (c, s) => (basicWithin bound s).map fun (cs, s) => (c :: cs, s)
    | c => if isPlain c then (basicWithin bound s).map fun (cs, s) => (c :: cs, s) else none

/-- The rest of a text in single quotes on one line. -/
def literalRest : Parser (List Char)
  | [] => none
  | c :: s =>
    if c == '\'' then some ([], s)
    else if isPlain c then (literalRest s).map fun (cs, s) => (c :: cs, s)
    else none

/-- What a run of delimiters means inside a text of several lines: fewer than
three belong to the text, three to five end it, the last three of them being the
end.  The result is what of the run belongs to the text, and what stands behind
the run. -/
def closing? (delimiter : Char) (s : List Char) : Option (List Char × List Char) :=
  let run := s.takeWhile (· == delimiter)
  if 3 ≤ run.length && run.length ≤ 5 then
    some (run.drop 3, s.drop run.length)
  else none

/-- Whether a text starts with more delimiters than can end a text of several
lines.  Such a run would end the text and leave a delimiter that begins nothing. -/
def overlong (delimiter : Char) (s : List Char) : Bool :=
  5 < (s.takeWhile (· == delimiter)).length

/-- The rest of a text in three double quotes. -/
def basicLinesWithin : Nat → Parser (List Char)
  | 0, _ => none
  | _ + 1, [] => none
  | bound + 1, c :: s =>
    if c == '"' then
      if overlong '"' (c :: s) then none
      else
        match closing? '"' (c :: s) with
        | some (cs, s) => some (cs, s)
        | none => (basicLinesWithin bound s).map fun (cs, s) => (c :: cs, s)
    else if c == '\\' then
      -- A backslash at the end of a line takes away all blanks and line ends behind it.
      match newline? (skipSpace s) with
      | some rest =>
        basicLinesWithin bound (rest.dropWhile fun c => c == ' ' || c == '\t' || c == '\n')
      | none =>
        (readEscape s).bind fun (c, s) =>
          (basicLinesWithin bound s).map fun (cs, s) => (c :: cs, s)
    else if c == '\n' || isPlain c then
      (basicLinesWithin bound s).map fun (cs, s) => (c :: cs, s)
    else none

/-- The rest of a text in three single quotes. -/
def literalLinesRest : Parser (List Char)
  | [] => none
  | c :: s =>
    if c == '\'' then
      if overlong '\'' (c :: s) then none
      else
        match closing? '\'' (c :: s) with
        | some (cs, s) => some (cs, s)
        | none => (literalLinesRest s).map fun (cs, s) => (c :: cs, s)
    else if c == '\n' || isPlain c then
      (literalLinesRest s).map fun (cs, s) => (c :: cs, s)
    else none

/-- The text behind the line end that may follow the opening of a text of several lines. -/
def dropFirstNewline : List Char → List Char
  | '\n' :: s => s
  | s => s

/-- A text in single or double quotes on one line. -/
def readLineString : Parser String
  | '"' :: s => (basicWithin (s.length + 1) s).map fun (cs, s) => (String.ofList cs, s)
  | '\'' :: s => (literalRest s).map fun (cs, s) => (String.ofList cs, s)
  | _ => none

/-- A string of any of the four forms.  Three delimiters at the start are looked
for first, since two of them are an empty text on one line. -/
def readString : Parser String
  | '"' :: '"' :: '"' :: s =>
    let s := dropFirstNewline s
    (basicLinesWithin (s.length + 1) s).map fun (cs, s) => (String.ofList cs, s)
  | '\'' :: '\'' :: '\'' :: s =>
    (literalLinesRest (dropFirstNewline s)).map fun (cs, s) => (String.ofList cs, s)
  | s => readLineString s

/-! ### Keys -/

/-- The characters of a key without quotes. -/
def isBare (c : Char) : Bool := c.isAlphanum || c == '_' || c == '-'

/-- A key without dots.  Quoted keys are strings on one line, and may be empty;
a bare one may not. -/
def readSimpleKey (s : List Char) : Option (String × List Char) :=
  match s with
  | '"' :: _ => readLineString s
  | '\'' :: _ => readLineString s
  | s =>
    match s.takeWhile isBare with
    | [] => none
    | cs => some (String.ofList cs, s.dropWhile isBare)

/-- At most `bound` keys with dots between them, blanks around each.  Quotes and
blanks leave no trace, so differently written keys can be the same path. -/
def readKeyWithin : Nat → Parser (List String)
  | 0, _ => none
  | bound + 1, s =>
    (readSimpleKey (skipSpace s)).bind fun (key, s) =>
      match skipSpace s with
      | '.' :: s => (readKeyWithin bound s).map fun (keys, s) => (key :: keys, s)
      | s => some ([key], s)

/-- How deep values and keys can be nested. -/
def nestingLimit : Nat := 79

/-- A key, with the blanks around it. -/
def readKey : Parser (List String) := readKeyWithin nestingLimit

end StraightLine.Toml
