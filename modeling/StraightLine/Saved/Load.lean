import StraightLine.Disk
import StraightLine.Saved.Reader

/-!
# Saved programs: loading

Programs from texts and from files, with the error that names the file.
-/

namespace StraightLine.Saved

/-- Why a program could not be loaded.  A text that is no program is told from a
file that gives no text, and the errors of files name the file. -/
inductive LoadError where
  | invalid (problem : Problem)
  | invalidFile (path : String) (problem : Problem)
  | unreadable (path : String) (reason : DiskProblem)
  deriving DecidableEq

namespace LoadError

/-- The text of a loading error. -/
def message : LoadError → String
  | .invalid problem => "Invalid program: " ++ problem.message
  | .invalidFile path problem => "Invalid program '" ++ path ++ "': " ++ problem.message
  | .unreadable path reason => "Failed to read program '" ++ path ++ "': " ++ reason.message

/-- The text of what lies behind a loading error.  The message of the error
contains it already. -/
def cause : LoadError → String
  | .invalid problem => problem.message
  | .invalidFile _ problem => problem.message
  | .unreadable _ reason => reason.message

end LoadError

/-- The program in a file.  The path is used as it is given: nothing is looked
for elsewhere if there is no such file. -/
def load (disk : Disk) (path : String) : Except LoadError Stmt :=
  match disk.readText path with
  | .error reason => .error (.unreadable path reason)
  | .ok text =>
    match read text with
    | .error problem => .error (.invalidFile path problem)
    | .ok program => .ok program

end StraightLine.Saved
