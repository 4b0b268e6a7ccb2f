import StraightLine.Disk
import StraightLine.Path
import StraightLine.Settings.Reading

/-!
# Settings: discovery

The settings that govern a directory are in the file `sable.toml` of the directory itself or, if it
has none, of the nearest directory above it, as far up as the spelling of its path goes.
-/

namespace StraightLine.Settings

/-- The name of the file that holds settings. -/
def fileName : String := "sable.toml"

/-- Where the settings for a directory can be, the nearest place first.  The
places follow the spelling of the path, component by component: the file system
is not asked what a component stands for, and a relative path ends where it
starts. -/
def candidates (directory : String) : List String :=
  (Path.ascending directory).map (Path.join · fileName)

/-- The file that holds the settings for a directory.  Whatever bears the name
is taken, be it readable or not and be it a file or not: existence decides, and
what comes of reading it is judged later. -/
def find? (disk : Disk) (directory : String) : Option String :=
  (candidates directory).find? disk.holds

/-- Why settings could not be loaded.  Absence is no error and does not occur
here: a project without a file of settings has the standard ones. -/
inductive LoadError where
  | unreadable (path : String) (reason : DiskProblem)
  | invalid (path : String) (reason : Problem)
  deriving DecidableEq

/-- The text of a loading error. -/
def LoadError.message : LoadError → String
  | .unreadable path reason => "Failed to read config file '" ++ path ++ "': " ++ reason.message
  | .invalid path reason => "Invalid TOML in '" ++ path ++ "': " ++ reason.message

/-- The settings in a file. -/
def load (disk : Disk) (path : String) : Except LoadError Loaded :=
  match disk.readText path with
  | .error reason => .error (.unreadable path reason)
  | .ok text =>
    match ofText text with
    | .error reason => .error (.invalid path reason)
    | .ok loaded => .ok loaded

/-- The settings that govern a directory; the standard ones if there is no file.
A file that is found and can not be used is an error, and no file further up is
tried in its place. -/
def loadFor (disk : Disk) (directory : String) : Except LoadError Loaded :=
  match find? disk directory with
  | some path => load disk path
  | none => .ok .standard

/-- The settings that govern a directory; the standard ones if there is no file
or a bad one.  This is for callers that must not fail; commands use `loadFor`,
so that a bad file does not go unnoticed. -/
def loadOrStandard (disk : Disk) (directory : String) : Loaded :=
  match loadFor disk directory with
  | .ok loaded => loaded
  | .error _ => .standard

end StraightLine.Settings
