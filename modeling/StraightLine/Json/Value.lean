import StraightLine.Number.Style

/-!
# JSON texts

JSON values and their two layouts: compact, and spread over lines with two blanks a level.

## Main definitions

* `Json` — a value; the fields of an object keep their order.
* `Json.quote` — a string literal.
* `Json.compact`, `Json.pretty` — the layouts.

## Design notes

* **Integers and floating numbers are apart,** since an integral floating number keeps its point.
  A number that is not finite has no JSON text and is written `null`.
-/

namespace StraightLine

/-- A JSON value.  The fields of an object keep their order and may repeat a
key, as a text may; what a repeated key means is for the reader to say. -/
inductive Json where
  | null
  | bool (b : Bool)
  | int (n : Int)
  | float (x : Float)
  | string (s : String)
  | array (items : List Json)
  | object (fields : List (String × Json))
  deriving Inhabited

namespace Json

/-- A number written with four hexadecimal digits.  A greater number than four
digits can hold would get more of them; only control characters are ever written
so. -/
def hexQuad (n : Nat) : List Char :=
  let digits := Nat.toDigits 16 n
  List.replicate (4 - digits.length) '0' ++ digits

/-- A character inside a string literal.  Only quote, backslash and the control
characters below the space are escaped; everything else stands for itself,
whatever its code point, so a literal is as long as its string needs and no
longer. -/
def escape (c : Char) : List Char :=
  match c with
  | '"' => ['\\', '"']
  | '\\' => ['\\', '\\']
  | '\x08' => ['\\', 'b']
  | '\t' => ['\\', 't']
  | '\n' => ['\\', 'n']
  | '\x0c' => ['\\', 'f']
  | '\r' => ['\\', 'r']
  | c => if c.toNat < 0x20 then '\\' :: 'u' :: hexQuad c.toNat else [c]

/-- A string literal. -/
def quote (s : String) : String := "\"" ++ String.ofList (s.toList.flatMap escape) ++ "\""

/-- The text of a floating number, with `null` for one that is not finite, as
JSON has no literal for it. -/
def floatText (x : Float) : String := (NumberStyle.json.text? x).getD "null"

mutual

/-- The text of a value without blanks.  This is the layout of saved programs
and of log lines, so none of its texts spans two lines: a line end inside a
string is escaped. -/
def compact : Json → String
  | .null => "null"
  | .bool b => if b then "true" else "false"
  | .int n => toString n
  | .float x => floatText x
  | .string s => quote s
  | .array items => "[" ++ compactItems items ++ "]"
  | .object fields => "\x7b" ++ compactFields fields ++ "\x7d"

/-- The items of an array with commas between them. -/
def compactItems : List Json → String
  | [] => ""
  | [item] => item.compact
  | item :: next :: rest => item.compact ++ "," ++ compactItems (next :: rest)

/-- The fields of an object with commas between them. -/
def compactFields : List (String × Json) → String
  | [] => ""
  | [(key, value)] => quote key ++ ":" ++ value.compact
  | (key, value) :: next :: rest =>
    quote key ++ ":" ++ value.compact ++ "," ++ compactFields (next :: rest)

end

/-- A line break and the blanks of a nesting level. -/
def newline (level : Nat) : String := "\n" ++ "".pushn ' ' (2 * level)

mutual

/-- The text of a value at a nesting level, one item or field a line.  An empty
list or object stays on the line on which it starts. -/
def prettyAt (level : Nat) : Json → String
  | .null => "null"
  | .bool b => if b then "true" else "false"
  | .int n => toString n
  | .float x => floatText x
  | .string s => quote s
  | .array [] => "[]"
  | .array (item :: rest) =>
    "[" ++ newline (level + 1) ++ item.prettyAt (level + 1) ++ prettyItems (level + 1) rest ++
      newline level ++ "]"
  | .object [] => "\x7b\x7d"
  | .object ((key, value) :: rest) =>
    "\x7b" ++ newline (level + 1) ++ quote key ++ ": " ++ value.prettyAt (level + 1) ++
      prettyFields (level + 1) rest ++ newline level ++ "\x7d"

/-- The items of an array after the first. -/
def prettyItems (level : Nat) : List Json → String
  | [] => ""
  | item :: rest => "," ++ newline level ++ item.prettyAt level ++ prettyItems level rest

/-- The fields of an object after the first. -/
def prettyFields (level : Nat) : List (String × Json) → String
  | [] => ""
  | (key, value) :: rest =>
    "," ++ newline level ++ quote key ++ ": " ++ value.prettyAt level ++ prettyFields level rest

end

/-- The text of a value over several lines. -/
def pretty (j : Json) : String := j.prettyAt 0

end Json

end StraightLine
