import StraightLine.Analysis
import StraightLine.Evaluation
import StraightLine.Json.Value
import StraightLine.Text.Quoted
import StraightLine.Text.Styled

/-!
# Log

What a run tells about its inner steps: events with a level, a message and named fields, written as
lines of text or as JSON objects.

## Main definitions

* `LogEvent` — the events, with `LogEvent.level`, `LogEvent.message` and `LogEvent.fields`.
* `Resolver.logEvents`, `Flow.logEvents`, `Stmt.analysisEvents`, `Run.logEvents` — the events of the
  passes.
* `LogEvent.line` — an event as a line.

## Design notes

* **The events of a pass are read off its result.**  A resolution keeps the order of misses and
  declarations, a flow graph the order of its vertices and edges, a run the order of its actions; no
  pass writes a log of its own.
-/

namespace StraightLine

/-- The levels of log events, the most talkative one first. -/
inductive LogLevel where
  | trace
  | debug
  | info
  | warn
  | error
  deriving DecidableEq, Repr, Inhabited

namespace LogLevel

/-- All levels. -/
def all : List LogLevel := [.trace, .debug, .info, .warn, .error]

/-- The name of a level on a command line. -/
def name : LogLevel → String
  | .trace => "trace"
  | .debug => "debug"
  | .info => "info"
  | .warn => "warn"
  | .error => "error"

/-- The level with a given name. -/
def ofName? (word : String) : Option LogLevel := all.find? (·.name == word)

/-- The name of a level in a log. -/
def label : LogLevel → String
  | .trace => "TRACE"
  | .debug => "DEBUG"
  | .info => "INFO"
  | .warn => "WARN"
  | .error => "ERROR"

/-- The rank of a level; more important events have a greater one. -/
def rank : LogLevel → Nat
  | .trace => 0
  | .debug => 1
  | .info => 2
  | .warn => 3
  | .error => 4

/-- The colour of a level. -/
def hue : LogLevel → Attribute
  | .trace => .purple
  | .debug => .blue
  | .info => .green
  | .warn => .yellow
  | .error => .red

end LogLevel

/-- The value of a field.  Fields that are names of the program are quoted in a
line of text, since nothing restricts the characters of a name; vertices and
reasons are shown as they are, at the cost of lines that can not always be taken
apart again. -/
inductive LogField where
  | count (n : Nat)
  | flag (b : Bool)
  /-- A text that is shown in quotes. -/
  | word (s : String)
  /-- A text that is shown as it is. -/
  | text (s : String)
  deriving DecidableEq, Repr

/-- What happens in a run.  Each constructor carries only what its line shows,
so two runs with the same events have the same log, times apart. -/
inductive LogEvent where
  | programParsed (statements : Nat)
  | programLoaded (path : String)
  | declared (name : String)
  | unresolved (name : String)
  | resolutionFinished (valid : Bool) (scopes : Nat)
  | vertexAdded (vertex : String)
  | edgeAdded (source target : String)
  | flowBuilt (vertices edges : Nat)
  | analysisFinished (resolved : Bool) (diagnostics : Nat)
  | checkFinished (diagnostics : Nat) (resolved : Bool)
  | evaluationFinished (completion : Completion)
  | evaluationFailed (reason : EvalError)
  deriving DecidableEq

/-- A value as a log shows it, with its kind. -/
def Value.logText : Value → String
  | .int n => "Int(" ++ toString n.toInt ++ ")"
  | .float x => "Float(" ++ (NumberStyle.trace.text? x).getD "" ++ ")"

/-- A completion as a log shows it. -/
def Completion.logText : Completion → String
  | .normal none => "Normal(None)"
  | .normal (some value) => "Normal(Some(" ++ value.logText ++ "))"
  | .returned value => "Return(" ++ value.logText ++ ")"

namespace LogEvent

/-- The level of an event. -/
def level : LogEvent → LogLevel
  | .declared _ | .vertexAdded _ | .edgeAdded .. => .trace
  | .checkFinished .. => .info
  | _ => .debug

/-- The message of an event. -/
def message : LogEvent → String
  | .programParsed _ => "program parsed"
  | .programLoaded _ => "program loaded"
  | .declared _ => "declare"
  | .unresolved _ => "unresolved variable"
  | .resolutionFinished .. => "name resolution finished"
  | .vertexAdded _ => "cfg vertex"
  | .edgeAdded .. => "cfg edge"
  | .flowBuilt .. => "control flow graph built"
  | .analysisFinished .. => "analysis finished"
  | .checkFinished .. => "check finished"
  | .evaluationFinished _ => "evaluation finished"
  | .evaluationFailed _ => "evaluation failed"

/-- The fields of an event. -/
def fields : LogEvent → List (String × LogField)
  | .programParsed statements => [("statements", .count statements)]
  | .programLoaded path => [("program", .text path)]
  | .declared name => [("name", .word name)]
  | .unresolved name => [("name", .word name)]
  | .resolutionFinished valid scopes => [("valid", .flag valid), ("scopes", .count scopes)]
  | .vertexAdded vertex => [("vertex", .text vertex)]
  | .edgeAdded source target => [("from", .text source), ("to", .text target)]
  | .flowBuilt vertices edges => [("vertices", .count vertices), ("edges", .count edges)]
  | .analysisFinished resolved diagnostics =>
    [("resolved", .flag resolved), ("diagnostics", .count diagnostics)]
  | .checkFinished diagnostics resolved =>
    [("diagnostics", .count diagnostics), ("resolved", .flag resolved)]
  | .evaluationFinished completion => [("completion", .text completion.logText)]
  | .evaluationFailed reason => [("err", .text reason.message)]

end LogEvent

/-! ### The events of the passes -/

/-- The events of a resolution. -/
def Resolver.logEvents (r : Resolver) : List LogEvent :=
  r.events.toList.map fun
    | .unresolved read => .unresolved read.name
    | .declared name => .declared name

/-- The events of building a flow graph: every vertex, and behind it the edge
that leads to it.  Vertices are told in the order of discovery, and each has at
most one predecessor, which has been told before. -/
def Flow.logEvents (flow : Flow) : List LogEvent :=
  (flow.vertices.flatMap fun vertex =>
    .vertexAdded vertex.text ::
      (flow.graph.predecessors vertex).map fun source => .edgeAdded source.text vertex.text) ++
    [.flowBuilt flow.graph.vertexCount flow.graph.edgeCount]

/-- The events of an analysis.  Names are always resolved, even where their
check is off, since the summary says whether they all are; the flow graph is
only built where its check is on. -/
def Stmt.analysisEvents (program : Stmt) (settings : Settings) : List LogEvent :=
  let (valid, resolver) := program.resolution
  let analysis := program.analyze settings
  resolver.logEvents ++ [.resolutionFinished valid resolver.scopes.size] ++
    (if settings.unreachable.severity?.isSome then program.flow.logEvents else []) ++
    [.analysisFinished analysis.resolved analysis.diagnostics.length]

/-- The events of an evaluation.  Every assignment declares its target, except
the one that failed where the run failed: an assignment is counted as started
before its expression is evaluated, so the last one of a failed run has made no
binding. -/
def Run.logEvents (outcome : Except EvalError Completion) (run : Run) : List LogEvent :=
  let declared (actions : List Occurrence) : List LogEvent :=
    actions.filterMap fun o => o.action.target?.map .declared
  match outcome with
  | .ok completion => declared run.started.toList ++ [.evaluationFinished completion]
  -- The last action that was started is the one that failed.
  | .error reason => declared run.started.toList.dropLast ++ [.evaluationFailed reason]

/-! ### Lines -/

/-- How log lines are written. -/
structure LogStyle where
  /-- As JSON objects. -/
  json : Bool
  /-- With terminal attributes. -/
  color : Bool
  deriving DecidableEq, Repr

namespace LogField

/-- The value of a field in a line of text. -/
def plain : LogField → String
  | .count n => toString n
  | .flag b => if b then "true" else "false"
  | .word s => quoted s
  | .text s => s

/-- The value of a field in a JSON object. -/
def toJson : LogField → Json
  | .count n => .int n
  | .flag b => .bool b
  | .word s => .string s
  | .text s => .string s

end LogField

namespace LogEvent

/-- An event as a line of text, with the time if there is one. -/
def plainLine (color : Bool) (time : Option String) (e : LogEvent) : String :=
  let label := "".pushn ' ' (5 - e.level.label.length) ++ e.level.label
  let field (f : String × LogField) : String :=
    " " ++ styled color [.italic] f.1 ++ styled color [.dimmed] "=" ++ f.2.plain
  (match time with
    | some time => styled color [.dimmed] time ++ " "
    | none => "") ++
  styled color [e.level.hue] label ++ " " ++ e.message ++ String.join (e.fields.map field)

/-- An event as a JSON object on one line, with the time if there is one. -/
def jsonLine (time : Option String) (e : LogEvent) : String :=
  let time : List (String × Json) :=
    match time with
    | some time => [("timestamp", .string time)]
    | none => []
  (Json.object (time ++
    [("level", .string e.level.label),
      ("fields",
        .object (("message", .string e.message) ::
          e.fields.map fun f => (f.1, f.2.toJson)))])).compact

/-- An event as a line. -/
def line (style : LogStyle) (time : Option String) (e : LogEvent) : String :=
  if style.json then e.jsonLine time else e.plainLine style.color time

end LogEvent

end StraightLine
