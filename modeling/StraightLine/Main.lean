import Std.Time.DateTime
import StraightLine.Command.Outcome

/-!
# The program

Carries out what the command line asks for: looks at the paths that matter, works out the outcome,
and writes it to the streams and to the log file.
-/

namespace StraightLine

/-- A number with zeros in front, so that it has at least the given width. -/
def zeroPadded (width n : Nat) : String :=
  let digits := toString n
  "".pushn '0' (width - digits.length) ++ digits

/-- A point in time as logs show it: date and time of day in the zone zero, with microseconds. -/
def timeText (t : Std.Time.Timestamp) : String :=
  let d := Std.Time.PlainDateTime.ofWallTime (t.toWallTime Std.Time.TimeZone.Offset.zero)
  zeroPadded 4 d.year.toInt.toNat ++ "-" ++ zeroPadded 2 d.month.val.toNat ++ "-" ++
    zeroPadded 2 d.day.val.toNat ++ "T" ++ zeroPadded 2 d.hour.val.toNat ++ ":" ++
    zeroPadded 2 d.minute.val.toNat ++ ":" ++ zeroPadded 2 d.second.val.toNat ++ "." ++
    zeroPadded 6 (d.nanosecond.val.toNat / 1000) ++ "Z"

/-- The number by which the system names a problem, if it has one.  Some calls
report it negated, so only the magnitude counts.  The constructors left out
stand for causes that the program does not tell apart. -/
def systemCode? (e : IO.Error) : Option Nat :=
  let plain (code : UInt32) : Nat := code.toInt32.toInt.natAbs
  match e with
  | .noFileOrDirectory _ code _ | .inappropriateType _ code _ | .invalidArgument _ code _
  | .permissionDenied _ code _ | .noSuchThing _ code _ | .otherError code _
  | .illegalOperation code _ => some (plain code)
  | _ => none

/-- A failure to read a file as a disk problem. -/
def DiskProblem.ofError (e : IO.Error) : DiskProblem :=
  match systemCode? e with
  | some 2 => .notFound
  | some 13 => .denied
  | some 20 => .notDirectory
  | some 21 => .isDirectory
  | some 36 => .nameTooLong
  | _ => .other (toString e)

/-- Whether a path leads to anything.  It does if the system can follow it to
its end, which asks for no right to read what is there. -/
def leadsSomewhere (path : String) : IO Bool := do
  try
    let _ ← IO.FS.realPath path
    return true
  catch _ => return false

/-- What a path leads to.  A refusal alone does not tell whether it came from what is at the end of
the path or from a directory on the way, so the path is followed once more. -/
def observe (path : String) : IO DiskEntry := do
  try
    return .file (← IO.FS.readBinFile path)
  catch e =>
    let reason := DiskProblem.ofError e
    match reason with
    | .isDirectory => return .directory
    | .denied | .other _ =>
      return if ← leadsSomewhere path then .unreadable reason else .missing reason
    | _ => return .missing reason

/-- A view of what some paths lead to. -/
def observeAll (paths : List String) : IO Disk := do
  return .ofEntries (← paths.mapM fun path => return (path, ← observe path))

/-- What is known of the terminal, from the environment. -/
def observeTerminal : IO Terminal := do
  let said (name : String) : IO (Option Bool) := return (← IO.getEnv name).map (· != "0")
  let interactive ← (← IO.getStdout).isTty
  let forced := (← said "CLICOLOR_FORCE").getD false
  let wanted := (← said "CLICOLOR").getD true
  return ⟨forced || (wanted && interactive), (← IO.getEnv "NO_COLOR").isSome⟩

/-- Opens the log file of an invocation behind what it holds already.  Its
directory is made with all directories above it, as the pure account of the same
step in `FileTree.append` has it. -/
def openLog (inv : Invocation) : IO (Except DiskProblem (Option IO.FS.Handle)) := do
  match inv.logPath? with
  | none => return .ok none
  | some path =>
    try
      IO.FS.createDirAll (Path.directory path)
      return .ok (some (← IO.FS.Handle.mk path .append))
    catch e => return .error (.ofError e)

/-- Carries out an invocation, once its log file is open.  The paths are looked
at after that and all at once, so the outcome is a function of one view of the
disk. -/
def invoke (inv : Invocation) (time : String) (terminal : Terminal) : IO Outcome := do
  match ← openLog inv with
  | .error reason => return Invocation.withoutLog reason
  | .ok log =>
    let outcome := inv.outcome (← observeAll inv.paths) terminal
    if let some log := log then
      log.putStr (inv.logText time outcome.emissions)
      log.flush
    return outcome

/-- Carries out a command line. -/
def perform (args : List String) : IO Status := do
  let time := timeText (← Std.Time.Timestamp.now)
  let terminal ← observeTerminal
  let (outcome, errors) ←
    match Request.parse args with
    | some (.invoke inv) => do
      let outcome ← invoke inv time terminal
      pure (outcome, inv.errorText time outcome.emissions)
    | some request => pure (request.outcome (.ofEntries []) terminal, "")
    | none => pure (.misused, Request.misuseText)
  IO.eprint errors
  IO.print outcome.output
  return outcome.status

end StraightLine

/-- Runs the command line and ends with the code of its status. -/
def main (args : List String) : IO UInt32 :=
  return (← StraightLine.perform args).code.toUInt32
