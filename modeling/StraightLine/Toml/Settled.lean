import StraightLine.Toml.Value

/-!
# TOML: dates written as tables

A date can be given as a table: its first key is a reserved one, and the string under that key is
the date.  Whatever the table holds behind it has no meaning.

## Main definitions

* `Toml.Value.settle?` — a value with a date in the place of every table that stands for one.
* `Toml.settleEntries?` — the same for the entries of a table.

## Design notes

* **The reserved key is a promise.**  A table with this key in front and without a date under it has
  no meaning, and neither has what it stands in.
* **The document itself is always a table,** whatever its first key.
-/

namespace StraightLine.Toml

/-- The first key of a table that stands for a date. -/
def momentKey : String := "$__toml_private_datetime"

/-- Whether a value is the string of a date. -/
def Value.isMomentText : Value → Bool
  | .string text => isMoment text
  | _ => false

mutual

/-- A value with a date in the place of every table that stands for one.  Arrays
of tables become plain arrays, as their members need not be tables any more. -/
def Value.settle? : Value → Option Value
  | .array items => (settleItems? items).map .array
  | .table origin entries => settleTable? origin entries
  | .tables items => (settleTables? items).map .array
  | value => some value

/-- A table, or the date that it stands for.  Only the first key is looked at
for that; the reserved key in any other place is a key like others. -/
def settleTable? (origin : Origin) : List (String × Value) → Option Value
  | [] => some (.table origin [])
  | (key, value) :: rest =>
    if key == momentKey then
      if value.isMomentText then some .moment else none
    else do
      let value ← value.settle?
      let rest ← settleEntries? rest
      return .table origin ((key, value) :: rest)

/-- The items of an array with their dates in place. -/
def settleItems? : List Value → Option (List Value)
  | [] => some []
  | item :: rest => do
    let item ← item.settle?
    let rest ← settleItems? rest
    return item :: rest

/-- The entries of a table that stands for no date, with the dates inside them in place. -/
def settleEntries? : List (String × Value) → Option (List (String × Value))
  | [] => some []
  | (key, value) :: rest => do
    let value ← value.settle?
    let rest ← settleEntries? rest
    return (key, value) :: rest

/-- The members of an array of tables, each of which can stand for a date. -/
def settleTables? : List (List (String × Value)) → Option (List Value)
  | [] => some []
  | entries :: rest => do
    let item ← settleTable? .header entries
    let rest ← settleTables? rest
    return item :: rest

end

end StraightLine.Toml
