import StraightLine.Analysis
import StraightLine.Json.Value

/-!
# Structured reports

Analyses and flow graphs as JSON, for other programs to read.
-/

namespace StraightLine

/-- The version of the report format. -/
def reportVersion : String := "1.0"

/-- The version of the program. -/
def programVersion : String := "0.1.0"

/-- A finding as a JSON object; the suggestion is left out if there is none,
where every other field is always there. -/
def Diagnostic.toJson (d : Diagnostic) : Json :=
  .object <|
    [("code", .string d.check.code), ("name", .string d.check.name),
      ("severity", .string d.severity.name), ("message", .string d.message)] ++
    match d.suggestion with
    | some suggestion => [("suggestion", .string suggestion)]
    | none => []

/-- An analysis of the program with a given name as a JSON object.  The counts
by severity name every severity, also those without findings, so that a reader
need not know which fields to expect. -/
def Analysis.toJson (a : Analysis) (program : String) : Json :=
  .object
    [("version", .string reportVersion),
      ("metadata",
        .object [("sable_version", .string programVersion), ("program", .string program)]),
      ("summary",
        .object
          [("resolved", .bool a.resolved),
            ("total_diagnostics", .int a.diagnostics.length),
            ("by_severity",
              .object (Severity.all.map fun severity =>
                (severity.name, .int (a.count severity))))]),
      ("diagnostics", .array (a.diagnostics.map Diagnostic.toJson))]

/-- A flow graph as a JSON object.  A vertex is given by its text alone, so
equal actions at different places look alike and only the order of the lists
tells them apart. -/
def Flow.toJson (flow : Flow) : Json :=
  let text (vertex : Occurrence) : Json := .string vertex.text
  let reachability := flow.reachability
  .object
    [("start",
        match flow.start with
        | some start => text start
        | none => .null),
      ("vertices", .array (flow.vertices.map text)),
      ("edges",
        .array (flow.edges.map fun edge =>
          .object [("from", text edge.1), ("to", text edge.2)])),
      ("reachable", .array (reachability.reachable.map text)),
      ("unreachable", .array (reachability.unreachable.map text))]

end StraightLine
