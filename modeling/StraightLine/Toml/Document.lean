import StraightLine.Toml.Value

/-!
# TOML: documents

A document is a sequence of lines: pairs of key and value, and headers that name the table to which
the pairs behind them belong.

## Main definitions

* `Toml.Builder` — the document so far and the table under construction.
* `Toml.read?` — the entries of a whole document.

## Design notes

* **A table joins the document when it is complete,** that is at the next header or at the end.  A
  table that was so far only implied is taken out when its header comes, and so moves behind the
  entries that are there already.
-/

namespace StraightLine.Toml

/-- Where the table under construction will go. -/
inductive Target where
  /-- It is the document itself. -/
  | root
  | table (path : List String)
  /-- It is one more member of an array of tables. -/
  | member (path : List String)

/-- The document so far and the table under construction.  The table is kept
apart until it is complete, so the pairs that belong to it can not meet those of
the document before. -/
structure Builder where
  document : Entries
  target : Target
  current : Entries

namespace Builder

/-- A document without lines. -/
def start : Builder := ⟨[], .root, []⟩

/-- A pair of key and value in the table under construction. -/
def pair (b : Builder) (path : List String) (value : Value) : Option Builder :=
  (assign path value b.current).map fun entries => { b with current := entries }

/-- The document with the table under construction in its place.  Its header has
left the place free and, for a member, has made the array that it joins. -/
def close (b : Builder) : Option Entries :=
  match b.target with
  | .root => some b.current
  | .table path => do
    let key ← path.getLast?
    let insert (_ : Origin) (entries : Entries) : Option (Entries × Unit) :=
      if (Entries.get? entries key).isSome then none
      else some (entries ++ [(key, .table .header b.current)], ())
    let (document, _) ← descend false insert path.dropLast .header b.document
    return document
  | .member path => do
    let key ← path.getLast?
    let insert (_ : Origin) (entries : Entries) : Option (Entries × Unit) :=
      match Entries.get? entries key with
      | some (.tables items) =>
        some (Entries.replace entries key (.tables (items ++ [b.current])), ())
      | _ => none
    let (document, _) ← descend false insert path.dropLast .header b.document
    return document

/-- The header of a table.  The table of the header before is closed first.  A
table that was so far only implied is taken out with what it holds and goes on
from there; one that is there in any other way can not be opened. -/
def openTable (b : Builder) (path : List String) : Option Builder := do
  let document ← b.close
  let key ← path.getLast?
  let take (_ : Origin) (entries : Entries) : Option (Entries × Entries) :=
    match Entries.get? entries key with
    | none => some (entries, [])
    | some (.table .implied inner) => some (Entries.erase entries key, inner)
    | some _ => none
  let (document, inner) ← descend false take path.dropLast .header document
  return ⟨document, .table path, inner⟩

/-- The header of a member of an array of tables.  The array is made here if it
is missing, still empty, so that the place is taken from the header on. -/
def openMember (b : Builder) (path : List String) : Option Builder := do
  let document ← b.close
  let key ← path.getLast?
  let prepare (_ : Origin) (entries : Entries) : Option (Entries × Unit) :=
    match Entries.get? entries key with
    | none => some (entries ++ [(key, .tables [])], ())
    | some (.tables _) => some (entries, ())
    | some _ => none
  let (document, _) ← descend false prepare path.dropLast .header document
  return ⟨document, .member path, []⟩

end Builder

/-- A key in the brackets of a header, and the end of the line.  Two brackets
must stand side by side; blanks are allowed inside of them and not between. -/
def readHeader (closing : List Char) (s : List Char) : Option (List String × List Char) := do
  let (path, s) ← readKey s
  guard (closing.isPrefixOf s)
  let s ← endOfLine? (s.drop closing.length)
  return (path, s)

/-- The lines of a document, at most `bound` of them.  Each line takes up at
least one character, its end or, for the last line, its first one, so a bound
beyond the length of the text is never used up. -/
def readLines : Nat → Builder → List Char → Option Builder
  | 0, _, _ => none
  | bound + 1, b, s =>
    match skipSpace s with
    | [] => some b
    | '#' :: s => (endOfLine? ('#' :: s)).bind (readLines bound b)
    | '\n' :: s => readLines bound b s
    | '[' :: '[' :: s => do
      let (path, s) ← readHeader [']', ']'] s
      let b ← b.openMember path
      readLines bound b s
    | '[' :: s => do
      let (path, s) ← readHeader [']'] s
      let b ← b.openTable path
      readLines bound b s
    | s => do
      let ((path, value), s) ← readField readValue s
      let b ← b.pair path value
      let s ← endOfLine? s
      readLines bound b s

/-- The entries of a document; nothing if the text is not TOML.  A mark of the
byte order may stand in front.  The last table has no header behind it and is
closed here. -/
def read? (text : String) : Option Entries :=
  let s :=
    match text.toList with
    | '\ufeff' :: s => unifyLineEnds s
    | s => unifyLineEnds s
  (readLines (s.length + 1) .start s).bind Builder.close

end StraightLine.Toml
