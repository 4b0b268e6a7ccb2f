import StraightLine.Toml.Number

/-!
# TOML: values and tables

The values of a document, and how tables grow as keys are given to them.

## Main definitions

* `Toml.Value` — a value; a table remembers how it came to be.
* `Toml.descend` — follows a path of keys through tables, making those that are missing.
* `Toml.assign` — gives a value to a dotted key.
* `Toml.readValue` — the value at the start of a text.

## Design notes

* **A table may be opened only once.**  `Origin` tells the tables that were written out from those
  that exist only because a longer path leads through them, and of the latter those made by dotted
  keys from those made by headers.
-/

namespace StraightLine.Toml

/-- How a table came to be. -/
inductive Origin where
  /-- By a header of its own; the document itself counts as one. -/
  | header
  /-- By a header of a table inside it. -/
  | implied
  /-- By a dotted key. -/
  | dotted
  /-- In braces. -/
  | braces
  deriving DecidableEq, Repr

/-- A value of a document. -/
inductive Value where
  | string (s : String)
  | integer (n : Int)
  | float (x : Float)
  | boolean (b : Bool)
  /-- A date, a time, or both. -/
  | moment
  | array (items : List Value)
  | table (origin : Origin) (entries : List (String × Value))
  /-- An array whose tables have headers of their own. -/
  | tables (items : List (List (String × Value)))
  deriving Inhabited

/-- The entries of a table in document order. -/
abbrev Entries := List (String × Value)

namespace Entries

/-- The value of a key. -/
def get? (entries : Entries) (key : String) : Option Value :=
  (entries.find? (·.1 == key)).map (·.2)

/-- The entries with the value of a key replaced. -/
def replace (entries : Entries) (key : String) (value : Value) : Entries :=
  entries.map fun entry => if entry.1 == key then (key, value) else entry

/-- The entries without a key. -/
def erase (entries : Entries) (key : String) : Entries := entries.filter (·.1 != key)

end Entries

/-- Whether a path that is written with dots can pass through a table of some
origin when it is given to a table of its kind.  A table in braces is complete
as it stands, and no path leads into it; a table with a header of its own is
reached by further headers and not by dots. -/
def Origin.admits (origin : Origin) (viaDots : Bool) : Bool :=
  match origin with
  | .header => !viaDots
  | .implied | .dotted => true
  | .braces => false

/-- Follows a path of keys from a table, makes the tables that are missing, and
changes the table at its end.  The last member of an array of tables stands for
the array.  There is no way through a value of another kind.  Headers and dotted
keys share this walk, and differ in the tables they may pass through and in the
origin of those they make. -/
def descend {β : Type} (viaDots : Bool) (change : Origin → Entries → Option (Entries × β)) :
    List String → Origin → Entries → Option (Entries × β)
  | [], origin, entries => change origin entries
  | key :: rest, _, entries =>
    match Entries.get? entries key with
    | none => do
      let origin := if viaDots then .dotted else .implied
      let (inner, result) ← descend viaDots change rest origin []
      return (entries ++ [(key, .table origin inner)], result)
    | some (.table origin inner) => do
      guard (origin.admits viaDots)
      let (inner, result) ← descend viaDots change rest origin inner
      return (Entries.replace entries key (.table origin inner), result)
    | some (.tables items) => do
      let last ← items.getLast?
      let (last, result) ← descend viaDots change rest .header last
      return (Entries.replace entries key (.tables (items.dropLast ++ [last])), result)
    | some _ => none

/-- Gives a value to a key that may have dots.  The key must be new, and a
dotted key belongs into a table made by dotted keys, while one without dots
belongs into any other table. -/
def assign (path : List String) (value : Value) (entries : Entries) : Option Entries := do
  let key ← path.getLast?
  let insert (origin : Origin) (entries : Entries) : Option (Entries × Unit) :=
    if (origin == .dotted) == (path.length == 1) then none
    else if (Entries.get? entries key).isSome then none
    else some (entries ++ [(key, value)], ())
  let (entries, _) ← descend true insert path.dropLast .header entries
  return entries

/-! ### Reading -/

/-- A value that is a number, a date or a time. -/
def Number.toValue : Number → Value
  | .integer n => .integer n
  | .float x => .float x
  | .moment => .moment

/-- The items of an array behind its opening bracket, at most `bound` of them.
Lines may end anywhere between the items, and a comma may stand behind the last
one. -/
def readItems (item : Parser Value) : Nat → Parser (List Value)
  | 0, _ => none
  | bound + 1, s =>
    match skipLines s with
    | ']' :: s => some ([], s)
    | s =>
      (item s).bind fun (value, s) =>
        match skipLines s with
        | ',' :: s => (readItems item bound s).map fun (values, s) => (value :: values, s)
        | ']' :: s => some ([value], s)
        | _ => none

/-- A key, an equals sign and a value. -/
def readField (value : Parser Value) : Parser (List String × Value) := fun s => do
  let (path, s) ← readKey s
  let s ← readMark '=' s
  let (value, s) ← value (skipSpace s)
  return ((path, value), s)

/-- The pairs of a table in braces behind the opening one, at most `bound` of
them.  Unlike in an array, no line may end between the pairs and no comma may
stand behind the last. -/
def readFields (value : Parser Value) : Nat → Parser (List (List String × Value))
  | 0, _ => none
  | bound + 1, s =>
    (readField value s).bind fun (pair, s) =>
      match skipSpace s with
      | ',' :: s => (readFields value bound s).map fun (pairs, s) => (pair :: pairs, s)
      | '\x7d' :: s => some ([pair], s)
      | _ => none

/-- The word at the start of a text.  What may follow a value is judged where
the value stands, so a longer word is refused there. -/
def readWord (word : List Char) (value : Value) : Parser Value := fun s =>
  if word.isPrefixOf s then some (value, s.drop word.length) else none

/-- A value with at most the given number of brackets and braces inside each
other.  The first character decides the kind; whatever starts none of the others
has to be a number. -/
def readValueWithin : Nat → Parser Value
  | levels, s =>
    match s with
    | '"' :: _ => (readString s).map fun (text, s) => (.string text, s)
    | '\'' :: _ => (readString s).map fun (text, s) => (.string text, s)
    | 't' :: _ => readWord ['t', 'r', 'u', 'e'] (.boolean true) s
    | 'f' :: _ => readWord ['f', 'a', 'l', 's', 'e'] (.boolean false) s
    | '[' :: s =>
      match levels with
      | 0 => none
      | levels + 1 =>
        (readItems (readValueWithin levels) (s.length + 1) s).map fun (items, s) =>
          (.array items, s)
    | '\x7b' :: s =>
      match levels with
      | 0 => none
      | levels + 1 =>
        match skipSpace s with
        | '\x7d' :: s => some (.table .braces [], s)
        | s => do
          let (pairs, s) ← readFields (readValueWithin levels) (s.length + 1) s
          let entries ← pairs.foldlM (fun entries (path, value) => assign path value entries) []
          return (.table .braces entries, s)
    | s => (readNumber s).map fun (n, s) => (n.toValue, s)

/-- The value at the start of a text. -/
def readValue : Parser Value := readValueWithin nestingLimit

end StraightLine.Toml
