import StraightLine.Path

/-!
# Disks

What a program sees of a file system: for every path, a file with its bytes, a directory, something
that keeps its contents to itself, or nothing at all.

## Main definitions

* `DiskEntry` — what a path leads to.
* `Disk` — the view, as a function of the path.
* `Disk.holds`, `Disk.readText` — whether a path leads to something, and a file as text.
* `FileTree`, `FileTree.disk` — a file system in memory, with a current directory.
* `FileTree.append` — a file made longer, and made in the first place where there is none.

## Design notes

* **To be there and to be readable are two things.**  A file that may not be opened is there for
  whoever looks for it and fails only who reads it, so it has an entry of its own, apart from the
  paths that lead nowhere.
* **Paths are resolved from left to right.**  Each component is looked up in a directory that has to
  exist, also before `..`; a slash or a `.` at the end asks for a directory.
* **Paths and names have greatest lengths.**  A path that is too long is refused unseen, a name only
  when its turn comes.
-/

namespace StraightLine

/-- Why a path does not lead to a file with a text.  Each reason has the words
in which it is reported, and reasons that are not known by name bring their own. -/
inductive DiskProblem where
  | notFound
  | notDirectory
  | isDirectory
  | nameTooLong
  | badName
  | denied
  | notText
  /-- Any other reason, in the words of the system. -/
  | other (text : String)
  deriving DecidableEq, Repr

/-- The text of a problem. -/
def DiskProblem.message : DiskProblem → String
  | .notFound => "No such file or directory (os error 2)"
  | .notDirectory => "Not a directory (os error 20)"
  | .isDirectory => "Is a directory (os error 21)"
  | .nameTooLong => "File name too long (os error 36)"
  | .badName => "file name contained an unexpected NUL byte"
  | .denied => "Permission denied (os error 13)"
  | .notText => "stream did not contain valid UTF-8"
  | .other text => text

/-- What a path leads to.  Whether something is there and whether it can be read
are two questions, with an entry for each answer: settings that exist but can
not be read must not be taken for absent ones. -/
inductive DiskEntry where
  | file (bytes : ByteArray)
  | directory
  /-- Something is there, but its contents can not be had. -/
  | unreadable (reason : DiskProblem)
  /-- The path leads nowhere. -/
  | missing (reason : DiskProblem)
  deriving Inhabited

/-- A view of a file system. -/
structure Disk where
  entry : String → DiskEntry

namespace Disk

/-- Whether a path leads to anything.  Nothing is read to find out, so a file
that can not be read is there as well. -/
def holds (disk : Disk) (path : String) : Bool :=
  match disk.entry path with
  | .file _ | .directory | .unreadable _ => true
  | .missing _ => false

/-- The text of the file that a path leads to.  Bytes that are no text are as
unreadable as a directory, each for a reason of its own. -/
def readText (disk : Disk) (path : String) : Except DiskProblem String :=
  match disk.entry path with
  | .file bytes =>
    match String.fromUTF8? bytes with
    | some text => .ok text
    | none => .error .notText
  | .directory => .error .isDirectory
  | .unreadable reason | .missing reason => .error reason

/-- The view of a disk of which only some paths are known; nothing is to be seen elsewhere. -/
def ofEntries (entries : List (String × DiskEntry)) : Disk :=
  ⟨fun path => (entries.lookup path).getD (.missing .notFound)⟩

end Disk

/-- A file system in memory.  Locations are lists of names from the root; every
directory above a file or a listed directory exists too.  Everything in it can
be read. -/
structure FileTree where
  files : List (List String × ByteArray)
  directories : List (List String)
  /-- Where relative paths start. -/
  current : List String

namespace FileTree

/-- The file at a location. -/
def fileAt? (tree : FileTree) (location : List String) : Option ByteArray :=
  (tree.files.find? (·.1 == location)).map (·.2)

/-- Whether there is a directory at a location. -/
def isDirectory (tree : FileTree) (location : List String) : Bool :=
  location.isEmpty || location.isPrefixOf tree.current ||
    tree.directories.any location.isPrefixOf ||
    tree.files.any fun file => location.isPrefixOf file.1 && location != file.1

/-- The greatest length of a path, in bytes. -/
def longestPath : Nat := 4095

/-- The greatest length of a name, in bytes. -/
def longestName : Nat := 255

/-- Where a path starts. -/
def start (tree : FileTree) (path : String) : List String :=
  if path.startsWith "/" then [] else tree.current

/-- The location that components lead to from another one.  The last component
need not exist, so a path may name a file that is to be made; every component
before it has to be a directory. -/
def walk (tree : FileTree) (location : List String) : List String → Except DiskProblem (List String)
  | [] => .ok location
  | name :: rest =>
    -- Also `.` and `..` are looked up in a directory that has to exist.
    if !tree.isDirectory location then
      .error (if (tree.fileAt? location).isSome then .notDirectory else .notFound)
    else if name == "" || name == "." then tree.walk location rest
    else if name == ".." then tree.walk location.dropLast rest
    else if longestName < name.utf8ByteSize then .error .nameTooLong
    else tree.walk (location ++ [name]) rest

/-- The location that a path leads to.  Its last component need not exist. -/
def locate (tree : FileTree) (path : String) : Except DiskProblem (List String) :=
  if path.isEmpty then .error .notFound
  else if path.contains '\x00' then .error .badName
  else if longestPath < path.utf8ByteSize then .error .nameTooLong
  else tree.walk (tree.start path) (path.splitOn "/")

/-- What a path leads to. -/
def entry (tree : FileTree) (path : String) : DiskEntry :=
  match tree.locate path with
  | .error reason => .missing reason
  | .ok location =>
    if tree.isDirectory location then .directory
    else
      match tree.fileAt? location with
      | some bytes => .file bytes
      | none => .missing .notFound

/-- The file system with all directories on the way that components lead from a
location.  A file on the way can not become a directory. -/
def pave (tree : FileTree) (location : List String) : List String → Except DiskProblem FileTree
  | [] => .ok tree
  | name :: rest =>
    if name == "" || name == "." then tree.pave location rest
    else if name == ".." then tree.pave location.dropLast rest
    else if longestName < name.utf8ByteSize then .error .nameTooLong
    else
      let location := location ++ [name]
      if tree.isDirectory location then tree.pave location rest
      else if (tree.fileAt? location).isSome then .error .notDirectory
      else pave { tree with directories := location :: tree.directories } location rest

/-- The file system with bytes added at the end of a file.  The file and the
directories above it are made if they are missing.  It is what becomes of a log
when an invocation writes to it. -/
def append (tree : FileTree) (path : String) (bytes : ByteArray) : Except DiskProblem FileTree := do
  let tree ← tree.pave (tree.start path) ((Path.directory path).splitOn "/")
  let location ← tree.locate path
  if tree.isDirectory location then throw .isDirectory
  let old := (tree.fileAt? location).getD .empty
  let others := tree.files.filter (·.1 != location)
  return { tree with files := (location, old ++ bytes) :: others }

/-- The view of a file system in memory. -/
def disk (tree : FileTree) : Disk := ⟨tree.entry⟩

end FileTree

end StraightLine
