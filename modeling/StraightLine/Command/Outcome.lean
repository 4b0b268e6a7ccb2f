import StraightLine.Command.Arguments
import StraightLine.Report.Plain
import StraightLine.Report.Structured
import StraightLine.Saved.Load
import StraightLine.Settings.Discovery

/-!
# Outcomes of commands

What a command prints, what it tells meanwhile, and how it ends, as a value.  A command is a
function of its invocation, of the disk and of the terminal; the outer layer only carries out what
the outcome says.

## Main definitions

* `Emission` — a log event, or text for the user that is no result.
* `Outcome` — the status, the result and the emissions of a command.
* `Request.outcome` — the outcome of a request.
* `Request.effect` — its outcome in a file system, with what becomes of the file system.
* `Invocation.errorText`, `Invocation.logText` — what an outcome writes to the error stream and to a
  log file.

## Design notes

* **Emissions keep their order,** since log events and warnings can share a stream.
* **Loading comes first:** the program, then the settings of its directory.  A command that can not
  load either of them ends there.
* **The log file is there before anything is looked for,** so it can be found in the place of a
  missing program or of missing settings.
-/

namespace StraightLine

/-- Something that a command tells besides its result.  Texts are for the user
and always go to the error stream; events go there only if there is no log file,
and only from the level on that was asked for. -/
inductive Emission where
  | event (e : LogEvent)
  | text (s : String)
  deriving DecidableEq

/-- How a command ends.  The two ways in which no command comes about are kept
apart from its failure, as the exit codes keep them apart. -/
inductive Status where
  | success
  | failure
  /-- There was no command, since the command line is not a valid one. -/
  | misuse
  /-- There was no command, since the log could not be opened. -/
  | aborted
  deriving DecidableEq, Repr

/-- The exit code of a status. -/
def Status.code : Status → UInt8
  | .success => 0
  | .failure => 1
  | .misuse => 2
  | .aborted => 101

/-- What came of a command.  Nothing in it depends on where streams and logs go:
two invocations that differ only in their log options have the same outcome, and
differ in what is written of it. -/
structure Outcome where
  status : Status
  /-- What goes to the output stream. -/
  output : String
  emissions : List Emission
  deriving DecidableEq

/-- What could not be done, and why: every cause is behind the one before.
Failures to load a program repeat the innermost cause, as the error whose text
contains that of its source and then names it again. -/
structure Failure where
  context : String
  causes : List String
  deriving DecidableEq, Repr

namespace Failure

/-- A text whose lines behind the first one are indented.  Causes can have
several lines, as a path can contain line ends. -/
def hang (indent : Nat) (text : String) : String :=
  ("\n".pushn ' ' indent).intercalate (text.splitOn "\n")

/-- The lines of a cause with its number. -/
def numbered (index : Nat) (cause : String) : String :=
  let number := toString index
  "".pushn ' ' (5 - number.length) ++ number ++ ": " ++ hang 7 cause ++ "\n"

/-- The text of a failure.  Causes are numbered if there are several. -/
def text (f : Failure) : String :=
  "Error: " ++ f.context ++ "\n" ++
  match f.causes with
  | [] => ""
  | [cause] => "\nCaused by:\n    " ++ hang 4 cause ++ "\n"
  | causes => "\nCaused by:\n" ++ String.join (causes.mapIdx numbered)

/-- The failure to load a program. -/
def ofProgram (path : String) (reason : Saved.LoadError) : Failure :=
  ⟨"could not load " ++ path, [reason.message, reason.cause]⟩

/-- The failure to load settings. -/
def ofSettings (reason : Settings.LoadError) : Failure :=
  match reason with
  | .unreadable path problem => ⟨"invalid config " ++ path, [reason.message, problem.message]⟩
  | .invalid path _ => ⟨"invalid config " ++ path, [reason.message]⟩

/-- The failure of a run. -/
def ofRun (path : String) (reason : EvalError) : Failure :=
  ⟨"evaluation of " ++ path ++ " failed", [reason.message]⟩

end Failure

namespace Outcome

/-- The outcome of a command that printed a text. -/
def printed (text : String) : Outcome := ⟨.success, text, []⟩

/-- The outcome of a command that failed. -/
def failed (f : Failure) : Outcome := ⟨.failure, "", [.text f.text]⟩

/-- An outcome with what was told before. -/
def after (emitted : List Emission) (o : Outcome) : Outcome :=
  { o with emissions := emitted ++ o.emissions }

end Outcome

/-- What a command on a loaded program comes to.  Only `check` can fail by its
findings, and only `run` by an error; the other two always succeed.  A check
whose findings make it fail prints its report all the same. -/
def Command.outcome (color : Bool) (name : String) (program : Stmt) (settings : Settings) :
    Command → Outcome
  | .check format failOnWarnings =>
    let analysis := program.analyze settings
    { status :=
        if analysis.hasErrors || (failOnWarnings && 0 < analysis.count .warning) then .failure
        else .success
      output :=
        match format with
        | .json => (analysis.toJson name).pretty ++ "\n"
        | .pretty => analysis.report color name
      emissions :=
        (program.analysisEvents settings ++
          [LogEvent.checkFinished analysis.diagnostics.length analysis.resolved]).map .event }
  | .run =>
    let (result, state) := program.execute .withRoot 0
    let outcome : Outcome :=
      match result with
      | .error reason => .failed (.ofRun name reason)
      | .ok completion =>
        match completion.value? with
        | some value => .printed (value.text ++ "\n")
        | none => .printed (styled color [.dimmed] "(no value)" ++ "\n")
    outcome.after ((state.logEvents result).map .event)
  | .fmt indent => .printed (program.textAt (indent.getD settings.indent) 0 ++ "\n")
  | .cfg format =>
    let flow := program.flow
    let text :=
      match format with
      | .json => flow.toJson.pretty ++ "\n"
      | .pretty => flow.report color
    (Outcome.printed text).after (flow.logEvents.map .event)

/-- A warning as the user sees it. -/
def Settings.warningText (color : Bool) (warning : String) : String :=
  styled color [.bold, .yellow] "warning:" ++ " " ++ warning ++ "\n"

/-- The number of statements at the top of a program. -/
def Stmt.width : Stmt → Nat
  | .action _ => 1
  | .block body => body.length

/-- What is known of the terminal. -/
structure Terminal where
  /-- Whether it takes colours. -/
  colors : Bool
  /-- Whether the user has refused colours. -/
  refused : Bool
  deriving DecidableEq, Repr

namespace Invocation

/-- The paths that an invocation looks at: the program and every place where its
settings can be.  All of them are known from the command line alone, so a view
of the disk can be taken before anything is read. -/
def paths (inv : Invocation) : List String :=
  inv.program :: Settings.candidates (Path.directory inv.program)

/-- Whether results are coloured.  The terminal has to take colours, and neither
its user nor the command line may have refused them. -/
def color (inv : Invocation) (terminal : Terminal) : Bool :=
  terminal.colors && !terminal.refused && !inv.noColor

/-- The outcome of an invocation.  The program comes first: settings are not
looked for while there is none, and warnings about them are told only where they
could be loaded.  What was told before a failure stays told. -/
def outcome (inv : Invocation) (disk : Disk) (terminal : Terminal) : Outcome :=
  let color := inv.color terminal
  match Saved.load disk inv.program with
  | .error reason => .failed (.ofProgram inv.program reason)
  | .ok program =>
    let parsed := .event (.programParsed program.width)
    match Settings.loadFor disk (Path.directory inv.program) with
    | .error reason => (Outcome.failed (.ofSettings reason)).after [parsed]
    | .ok loaded =>
      (inv.command.outcome color inv.program program loaded.settings).after
        (parsed :: loaded.warnings.map (fun w => .text (Settings.warningText color w)) ++
          [.event (.programLoaded inv.program)])

/-- Whether an invocation asks for an event to be told. -/
def tells (inv : Invocation) (e : LogEvent) : Bool := inv.logLevel.rank ≤ e.level.rank

/-- The line of an event, if the invocation asks for it.  A log file never has
colours; the error stream has them unless they are refused, whatever the
terminal is. -/
def logLine (inv : Invocation) (time : Option String) (e : LogEvent) : String :=
  if inv.tells e then
    e.line ⟨inv.logJson, inv.logFile.isNone && !inv.noColor⟩ time ++ "\n"
  else ""

/-- What goes to the error stream: all texts, and the events if there is no log file. -/
def errorText (inv : Invocation) (time : Option String) (emissions : List Emission) : String :=
  String.join <| emissions.map fun
    | .text s => s
    | .event e => if inv.logFile.isNone then inv.logLine time e else ""

/-- What goes to the log file, if there is one. -/
def logText (inv : Invocation) (time : Option String) (emissions : List Emission) : String :=
  String.join <| emissions.map fun
    | .text _ => ""
    | .event e => if inv.logFile.isSome then inv.logLine time e else ""

/-- The name of the log file in a directory that is given in its place. -/
def defaultLogName : String := "sable.log"

/-- The path of the log file.  What is given without a name stands for its
parent directory, in which the log gets a name of its own. -/
def logPath? (inv : Invocation) : Option String :=
  inv.logFile.map fun path =>
    Path.join (Path.directory path) ((Path.fileName? path).getD defaultLogName)

/-- The outcome of an invocation whose log file can not be opened. -/
def withoutLog (reason : DiskProblem) : Outcome :=
  ⟨.aborted, "", [.text ("error: the log file can not be opened: " ++ reason.message ++ "\n")]⟩

/-- A file system with a text at the end of the log file, if there is one.  With
the empty text this is the opening of the log, which makes the file and the
directories above it. -/
def addToLog (inv : Invocation) (text : String) (tree : FileTree) : Except DiskProblem FileTree :=
  match inv.logPath? with
  | none => .ok tree
  | some path => tree.append path text.toUTF8

/-- The outcome of an invocation in a file system, and what becomes of the file
system.  The log is opened first and written last, and only the log file and its
directories ever change.  An invocation whose log can not be opened leaves
everything as it was and does nothing else. -/
def effect (inv : Invocation) (tree : FileTree) (terminal : Terminal) (time : Option String) :
    Outcome × FileTree :=
  match inv.addToLog "" tree with
  | .error reason => (withoutLog reason, tree)
  | .ok tree =>
    let outcome := inv.outcome tree.disk terminal
    -- The lines are written at the end, into the file that was there before anything was read.
    match inv.addToLog (inv.logText time outcome.emissions) tree with
    | .error reason => (withoutLog reason, tree)
    | .ok logged => (outcome, logged)

end Invocation

namespace Request

/-- The name of the program on a command line. -/
def programName : String := "sable"

/-- The text that explains the command line. -/
def helpText : String :=
  "Analyze, run and format Sable programs\n\n" ++
  "Usage: " ++ programName ++ " [OPTIONS] <COMMAND>\n\n" ++
  "Commands:\n" ++
  "  check <PROGRAM>  Report unresolved names and unreachable statements\n" ++
  "  run <PROGRAM>    Evaluate a program and print its result\n" ++
  "  fmt <PROGRAM>    Print a program as indented source text\n" ++
  "  cfg <PROGRAM>    Print the control-flow graph and its reachable statements\n\n" ++
  "Options:\n" ++
  "      --log-level <LEVEL>  Set the log level: trace, debug, info, warn, error\n" ++
  "      --log-file <FILE>    Write logs to the specified file\n" ++
  "      --log-json           Output logs in JSON format\n" ++
  "      --no-color           Disable colored output\n" ++
  "  -f, --format <FORMAT>    Format of check and cfg: pretty, json\n" ++
  "      --fail-on-warnings   Let check fail on warnings\n" ++
  "      --indent <N>         Spaces per nesting level of fmt\n" ++
  "  -h, --help               Print help\n" ++
  "  -V, --version            Print version\n"

/-- What the user is told whose command line is not valid. -/
def misuseText : String := "error: invalid command line\n\n" ++ helpText

/-- The outcome of a request. -/
def outcome (disk : Disk) (terminal : Terminal) : Request → Outcome
  | .invoke inv => inv.outcome disk terminal
  | .help => .printed helpText
  | .version => .printed (programName ++ " " ++ programVersion ++ "\n")

/-- The outcome of a request in a file system, and what becomes of the file system. -/
def effect (tree : FileTree) (terminal : Terminal) (time : Option String) :
    Request → Outcome × FileTree
  | .invoke inv => inv.effect tree terminal time
  | request => (request.outcome tree.disk terminal, tree)

end Request

/-- The outcome of a command line that is not a valid one. -/
def Outcome.misused : Outcome := ⟨.misuse, "", []⟩

end StraightLine
