/-!
# Paths

Paths as texts, with components between slashes.  Empty components and `.` mean nothing, except that
a relative path can begin with `.`; `..` is a component like any other, since only the file system
knows where it leads.

## Main definitions

* `Path.parent?` — the path without its last component.
* `Path.fileName?` — the last component.
* `Path.join` — a component added at the end.
* `Path.ascending` — a path, its parent, and so on.

## Design notes

* **A parent is a piece of the text it was taken from,** so the spelling inside is kept.
-/

namespace StraightLine.Path

/-- A text, given from its end, without the slashes and the empty components there.  `absolute` says
that a slash stands before the text. -/
def trim (absolute : Bool) : List Char → List Char
  | '/' :: rest => trim absolute rest
  | '.' :: '/' :: rest => trim absolute ('/' :: rest)
  | ['.'] => if absolute then [] else ['.']
  | rest => rest
termination_by rest => rest.length

/-- The path without its last component; the empty path and the root have no parent. -/
def parent? (path : String) : Option String :=
  let (absolute, body) :=
    match path.toList with
    | '/' :: rest => (true, rest)
    | chars => (false, chars)
  match trim absolute body.reverse with
  | [] => none
  | last =>
    let rest := trim absolute (last.dropWhile (· != '/'))
    some ((if absolute then "/" else "") ++ String.ofList rest.reverse)

/-- The last component of a path, if it is a name: `..` is none, and a path
without components has none. -/
def fileName? (path : String) : Option String :=
  let (absolute, body) :=
    match path.toList with
    | '/' :: rest => (true, rest)
    | chars => (false, chars)
  let name := String.ofList ((trim absolute body.reverse).takeWhile (· != '/')).reverse
  if name == "" || name == "." || name == ".." then none else some name

/-- A path with a relative path added at its end.  Nothing is simplified, so
what was written stays visible in messages. -/
def join (path name : String) : String :=
  if path.isEmpty || path.endsWith "/" then path ++ name else path ++ "/" ++ name

/-- At most `bound` members of the sequence path, parent, parent of the parent, … -/
def ascendingWithin : Nat → String → List String
  | 0, _ => []
  | bound + 1, path =>
    match parent? path with
    | none => [path]
    | some parent => path :: ascendingWithin bound parent

/-- A path, its parent, and so on up to a path without parent.  A parent is shorter than its
path. -/
def ascending (path : String) : List String := ascendingWithin (path.length + 1) path

/-- The directory that a path names a file in; `.` for a path with a single component. -/
def directory (path : String) : String :=
  match parent? path with
  | some parent => if parent.isEmpty then "." else parent
  | none => "."

end StraightLine.Path
