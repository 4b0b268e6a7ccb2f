import StraightLine.Analysis
import StraightLine.Text.Styled

/-!
# Plain reports

Analyses and flow graphs as text for a terminal, with or without colour.
-/

namespace StraightLine

/-- The colour of a severity. -/
def Severity.hue : Severity → Attribute
  | .error => .red
  | .warning => .yellow
  | .info => .blue
  | .hint => .cyan

/-- A finding in the program with a given name, and an empty line.  The place of
a finding is the program alone, as programs carry no positions; what the finding
is about stands in its message. -/
def Diagnostic.report (color : Bool) (program : String) (d : Diagnostic) : String :=
  styled color [.bold, d.severity.hue] d.severity.name ++
    "[" ++ styled color [.dimmed] d.check.code ++ "]: " ++ d.message ++ "\n" ++
  "  " ++ styled color [.blue] "-->" ++ " " ++ program ++ " (" ++ d.check.name ++ ")\n" ++
  (match d.suggestion with
    | some suggestion => "  " ++ styled color [.green] "suggestion:" ++ " " ++ suggestion ++ "\n"
    | none => "") ++
  "\n"

/-- The last line of a report.  Only errors and warnings are counted in it, so a
report with nothing but hints ends in a line that says zero twice. -/
def Analysis.verdict (color : Bool) (a : Analysis) : String :=
  if a.diagnostics.isEmpty then styled color [.bold, .green] "ok:" ++ " no issues found\n"
  else
    "Found " ++ toString (a.count .error) ++ " error(s) and " ++ toString (a.count .warning) ++
      " warning(s)\n"

/-- The findings of an analysis of the program with a given name, and the verdict. -/
def Analysis.report (color : Bool) (program : String) (a : Analysis) : String :=
  String.join (a.diagnostics.map (Diagnostic.report color program)) ++ a.verdict color

/-- A flow graph: its start, its edges and its vertices by reachability.  All
headings are there even where nothing stands below them. -/
def Flow.report (color : Bool) (flow : Flow) : String :=
  let heading (text : String) : String := styled color [.bold] text
  let vertex (hue : Attribute) (v : Occurrence) : String :=
    "  " ++ styled color [hue] v.text ++ "\n"
  let reachability := flow.reachability
  heading "start:" ++ " " ++
    (match flow.start with
      | some start => start.text
      | none => "(empty program)") ++ "\n" ++
  heading "edges:" ++ "\n" ++
  String.join (flow.edges.map fun edge =>
    "  " ++ edge.1.text ++ " " ++ styled color [.blue] "->" ++ " " ++ edge.2.text ++ "\n") ++
  heading "reachable:" ++ "\n" ++
  String.join (reachability.reachable.map (vertex .green)) ++
  heading "unreachable:" ++ "\n" ++
  String.join (reachability.unreachable.map (vertex .red))

end StraightLine
