import StraightLine.Proofs.Findings
import StraightLine.Proofs.PrettyText
import StraightLine.Proofs.SourceLines
import StraightLine.Report.Plain
import StraightLine.Report.Structured

/-!
# What reports say

A structured report is JSON, and whoever reads it finds in it what was analysed, whatever strings
the program and its name are made of.  The plain report of the same analysis ends with a verdict
that agrees with it.

## Main definitions

* `Json.valuesAt` — the values that stand under keys inside one another.
* `Diagnostic.ReportedBy`, `Analysis.ReportedBy`, `Flow.ReportedBy` — what a JSON value says of a
  finding, of an analysis and of a flow graph.
* `lastLine?` — the last line of a text.

## Main statements

* `Analysis.parse_toJson`, `Flow.parse_toJson` — structured reports as they are read.
* `Analysis.lastLine?_report` — the verdict of a plain report.
* `reports_read_back` — both kinds of report.

## Design notes

* **All values under a key are listed,** so that a key which occurs once is told apart from one that
  occurs again with another value, and an absent suggestion from an empty one.
* **The verdict is a line.**  Messages and names may hold the words of a verdict, so only the last
  line of a plain report is its verdict.
-/

namespace StraightLine

open Saved

/-! ### Structured reports -/

/-- The values under keys inside one another, with those of a key that occurs
more than once.  A list with one value therefore says that the key occurs once
on the way, and an empty one that it is absent. -/
def Json.valuesAt : List String → Json → List Json
  | [], j => [j]
  | key :: path, .object fields =>
    (fields.filter (·.1 = key)).flatMap fun field => field.2.valuesAt path
  | _ :: _, _ => []

/-- A JSON value tells of a finding.  The suggestion is there exactly if the
finding has one. -/
structure Diagnostic.ReportedBy (d : Diagnostic) (j : Json) : Prop where
  code : j.valuesAt ["code"] = [.string d.check.code]
  name : j.valuesAt ["name"] = [.string d.check.name]
  severity : j.valuesAt ["severity"] = [.string d.severity.name]
  message : j.valuesAt ["message"] = [.string d.message]
  suggestion : j.valuesAt ["suggestion"] = d.suggestion.toList.map .string

/-- A JSON value tells of the analysis of the program with a given name.  It
speaks of what is found under keys and not of the value as a whole, so that it
would hold of a report with further keys as well. -/
structure Analysis.ReportedBy (a : Analysis) (program : String) (j : Json) : Prop where
  program : j.valuesAt ["metadata", "program"] = [.string program]
  resolved : j.valuesAt ["summary", "resolved"] = [.bool a.resolved]
  total : j.valuesAt ["summary", "total_diagnostics"] = [.int a.diagnostics.length]
  bySeverity : ∀ severity : Severity,
    j.valuesAt ["summary", "by_severity", severity.name] = [.int (a.count severity)]
  diagnostics : ∃ items, j.valuesAt ["diagnostics"] = [.array items] ∧
    List.Forall₂ Diagnostic.ReportedBy a.diagnostics items

/-- A JSON value tells of a flow graph.  Vertices are given by their texts, in
the order of the graph, and edges by the texts of their ends. -/
structure Flow.ReportedBy (flow : Flow) (j : Json) : Prop where
  start : j.valuesAt ["start"] = [(flow.start.map fun v => Json.string v.text).getD .null]
  vertices : j.valuesAt ["vertices"] = [.array (flow.vertices.map fun v => .string v.text)]
  edges : j.valuesAt ["edges"] =
    [.array (flow.edges.map fun e =>
      .object [("from", .string e.1.text), ("to", .string e.2.text)])]
  reachable : j.valuesAt ["reachable"] =
    [.array (flow.reachability.reachable.map fun v => .string v.text)]
  unreachable : j.valuesAt ["unreachable"] =
    [.array (flow.reachability.unreachable.map fun v => .string v.text)]

theorem Diagnostic.reportedBy_toJson (d : Diagnostic) : d.ReportedBy d.toJson := by
  obtain ⟨check, severity, message, _ | suggestion⟩ := d <;>
    constructor <;> simp [toJson, Json.valuesAt]

theorem Analysis.reportedBy_toJson (a : Analysis) (program : String) :
    a.ReportedBy program (a.toJson program) where
  program := by simp [toJson, Json.valuesAt]
  resolved := by simp [toJson, Json.valuesAt]
  total := by simp [toJson, Json.valuesAt]
  bySeverity severity := by
    cases severity <;> simp [toJson, Json.valuesAt, Severity.all, Severity.name]
  diagnostics := by
    refine ⟨a.diagnostics.map Diagnostic.toJson, by simp [toJson, Json.valuesAt], ?_⟩
    rw [List.forall₂_map_right_iff, List.forall₂_same]
    exact fun d _ => d.reportedBy_toJson

theorem Flow.reportedBy_toJson (flow : Flow) : flow.ReportedBy flow.toJson where
  start := by cases hstart : flow.start <;> simp [toJson, Json.valuesAt, hstart]
  vertices := by simp [toJson, Json.valuesAt]
  edges := by simp [toJson, Json.valuesAt]
  reachable := by simp [toJson, Json.valuesAt]
  unreachable := by simp [toJson, Json.valuesAt]

theorem Diagnostic.plain_toJson (levels : Nat) (d : Diagnostic) :
    d.toJson.Plain (levels + 1) := by
  refine .object ?_
  rw [List.forall_mem_append]
  constructor
  · simp [Json.Plain.string]
  · cases d.suggestion <;> simp [Json.Plain.string]

/-- An array of strings has one bracket. -/
theorem Json.plain_strings {α : Type} (levels : Nat) (f : α → String) (as : List α) :
    (Json.array (as.map fun a => .string (f a))).Plain (levels + 1) :=
  .array (by simp [Json.Plain.string])

theorem Analysis.plain_toJson (levels : Nat) (a : Analysis) (program : String) :
    (a.toJson program).Plain (levels + 3) := by
  have hmetadata : (Json.object [("sable_version", .string programVersion),
      ("program", .string program)]).Plain (levels + 2) := .object (by simp [Json.Plain.string])
  have hcounts : (Json.object (Severity.all.map fun severity =>
      (severity.name, .int (a.count severity)))).Plain (levels + 1) :=
    .object (by simp [Json.Plain.int])
  have hfindings : (Json.array (a.diagnostics.map Diagnostic.toJson)).Plain (levels + 2) :=
    .array (List.forall_mem_map.2 fun d _ => d.plain_toJson levels)
  refine .object ?_
  simp only [List.forall_mem_cons]
  refine ⟨.string _, hmetadata, .object ?_, hfindings, by simp⟩
  simp only [List.forall_mem_cons]
  exact ⟨.bool _, .int _, hcounts, by simp⟩

theorem Flow.plain_toJson (levels : Nat) (flow : Flow) : flow.toJson.Plain (levels + 3) := by
  have hedges : (Json.array (flow.edges.map fun edge =>
      .object [("from", .string edge.1.text), ("to", .string edge.2.text)])).Plain (levels + 2) :=
    .array (List.forall_mem_map.2 fun edge _ => .object (by simp [Json.Plain.string]))
  refine .object ?_
  simp only [List.forall_mem_cons]
  refine ⟨?start, Json.plain_strings _ _ _, hedges, Json.plain_strings _ _ _,
    Json.plain_strings _ _ _, by simp⟩
  cases flow.start with
  | none => exact .null
  | some start => exact .string _

/-- The structured report of an analysis is read as it was made. -/
theorem Analysis.parse_toJson (a : Analysis) (program : String) :
    Json.parse (a.toJson program).pretty = .ok (a.toJson program) :=
  (a.plain_toJson 124 program).parse_pretty

/-- The structured report of a flow graph is read as it was made. -/
theorem Flow.parse_toJson (flow : Flow) : Json.parse flow.toJson.pretty = .ok flow.toJson :=
  (flow.plain_toJson 124).parse_pretty

/-! ### The verdict of a plain report -/

/-- The last line of a text in which every line has a newline behind it.  What
stands behind the last newline is dropped. -/
def lastLine? (text : String) : Option String := (textLines text).dropLast.getLast?

theorem textLines_append_newline (before after : String) :
    textLines (before ++ "\n" ++ after) = textLines before ++ textLines after := by
  have htext : (before ++ "\n" ++ after).toList = before.toList ++ '\n' :: after.toList := by simp
  rw [textLines, htext, List.splitOn_append_cons_self, List.map_append]
  rfl

theorem textLines_line {line : String} (hline : '\n' ∉ line.toList) :
    textLines (line ++ "\n") = [line, ""] := by
  have htext : (line ++ "\n").toList = line.toList ++ '\n' :: [] := by simp
  rw [textLines, htext, List.splitOn_append_cons_self, List.splitOn_eq_singleton hline]
  simp

theorem lastLine?_line {line : String} (hline : '\n' ∉ line.toList) :
    lastLine? (line ++ "\n") = some line := by
  rw [lastLine?, textLines_line hline]
  rfl

/-- A line behind other lines.  The lines before may hold anything, newlines in
names included. -/
theorem lastLine?_append {line : String} (hline : '\n' ∉ line.toList) (before : String) :
    lastLine? (before ++ "\n" ++ (line ++ "\n")) = some line := by
  rw [lastLine?, textLines_append_newline, textLines_line hline]
  simp

/-- Findings are written in whole lines. -/
theorem Diagnostic.exists_join_report (color : Bool) (program : String) {ds : List Diagnostic}
    (hne : ds ≠ []) : ∃ before, String.join (ds.map (report color program)) = before ++ "\n" := by
  induction ds with
  | nil => exact absurd rfl hne
  | cons d ds ih =>
      rw [List.map_cons, String.join_cons]
      by_cases hds : ds = []
      · exact ⟨_, by rw [hds, List.map_nil, String.join_nil, String.append_empty, report]⟩
      · obtain ⟨before, hbefore⟩ := ih hds
        exact ⟨d.report color program ++ before, by rw [hbefore, String.append_assoc]⟩

namespace Analysis

/-- The verdict of a plain report.  Its two counts are those of the structured
report of the same analysis. -/
def verdictLine (a : Analysis) : String :=
  if a.diagnostics = [] then "ok: no issues found"
  else
    "Found " ++ toString (a.count .error) ++ " error(s) and " ++ toString (a.count .warning) ++
      " warning(s)"

theorem verdict_eq (a : Analysis) : a.verdict false = a.verdictLine ++ "\n" := by
  rw [verdict, verdictLine]
  by_cases hnone : a.diagnostics = []
  · rw [if_pos hnone, hnone]
    rfl
  · rw [if_neg hnone, if_neg (by simpa using hnone)]
    simp [String.append_assoc]

theorem newline_notMem_verdictLine (a : Analysis) : '\n' ∉ a.verdictLine.toList := by
  have hcount := notMem_toString_nat (show '\n'.isDigit = false from rfl)
  rw [verdictLine]
  split
  · decide
  · simp only [String.toList_append, List.mem_append, not_or]
    exact ⟨⟨⟨⟨by decide, hcount _⟩, by decide⟩, hcount _⟩, by decide⟩

/-- A plain report ends with its verdict. -/
theorem lastLine?_report (a : Analysis) (program : String) :
    lastLine? (a.report false program) = some a.verdictLine := by
  rw [report, verdict_eq]
  by_cases hnone : a.diagnostics = []
  · rw [hnone, List.map_nil, String.join_nil, String.empty_append]
    exact lastLine?_line a.newline_notMem_verdictLine
  · obtain ⟨before, hbefore⟩ := Diagnostic.exists_join_report false program hnone
    rw [hbefore]
    exact lastLine?_append a.newline_notMem_verdictLine before

/-- No issues are reported exactly where there are none. -/
theorem verdictLine_eq_ok_iff (a : Analysis) :
    a.verdictLine = "ok: no issues found" ↔ a.diagnostics = [] := by
  rw [verdictLine]
  constructor
  · intro h
    by_contra hne
    have hfirst := congrArg (·.toList.head?) h
    rw [if_neg hne] at hfirst
    simp at hfirst
  · intro h
    rw [if_pos h]

end Analysis

/-! ### Both kinds of report -/

/-- **Structured reports are JSON that tells what was analysed; plain reports agree with them.** -/
theorem reports_read_back :
    (∀ (a : Analysis) (program : String),
      Json.IsText (a.toJson program).pretty ∧
      (∃ j, Json.parse (a.toJson program).pretty = .ok j ∧ a.ReportedBy program j) ∧
      a.diagnostics.length =
        a.count .error + a.count .warning + a.count .info + a.count .hint ∧
      (lastLine? (a.report false program) = some "ok: no issues found" ↔
        a.diagnostics.length = 0) ∧
      (a.diagnostics.length ≠ 0 →
        lastLine? (a.report false program) =
          some ("Found " ++ toString (a.count .error) ++ " error(s) and " ++
            toString (a.count .warning) ++ " warning(s)"))) ∧
    ∀ program : Stmt,
      Json.IsText program.flow.toJson.pretty ∧
      (∃ j, Json.parse program.flow.toJson.pretty = .ok j ∧ program.flow.ReportedBy j) ∧
      program.flow.vertices =
        program.flow.reachability.reachable ++ program.flow.reachability.unreachable := by
  constructor
  · intro a program
    have hparse := a.parse_toJson program
    refine ⟨Json.isText_of_parse hparse, ⟨_, hparse, a.reportedBy_toJson program⟩,
      a.count_add_count.symm, ?_, ?_⟩
    · rw [a.lastLine?_report, Option.some_inj, a.verdictLine_eq_ok_iff, List.length_eq_zero_iff]
    · intro hne
      rw [a.lastLine?_report, Analysis.verdictLine, if_neg (mt List.length_eq_zero_iff.2 hne)]
  · intro program
    have hparse := program.flow.parse_toJson
    refine ⟨Json.isText_of_parse hparse, ⟨_, hparse, program.flow.reportedBy_toJson⟩, ?_⟩
    rw [program.vertices_flow, program.reachable_flow, program.unreachable_flow]
    exact program.live_append_drop.symm

/-- Quotes, backslashes and control characters in a name and in messages, one of which holds the
words of another verdict; of two findings one has a suggestion. -/
theorem reports_read_back_of_escapes :
    let unresolved : Diagnostic :=
      ⟨.unresolvedName, .error, "variable '\x1b\"\\' is read before it is declared", none⟩
    let a : Analysis := ⟨false, [unresolved, .unreachableCode .warning "\nok: no issues found\n"]⟩
    let program := "dead\t\"code\".json"
    a.diagnostics.length ≠ 0 ∧
      (∃ j, Json.parse (a.toJson program).pretty = .ok j ∧ a.ReportedBy program j) ∧
      lastLine? (a.report false program) = some "Found 1 error(s) and 1 warning(s)" := by
  intro unresolved a program
  have hne : a.diagnostics.length ≠ 0 := by decide
  obtain ⟨-, hread, -, -, hverdict⟩ := reports_read_back.1 a program
  exact ⟨hne, hread, (hverdict hne).trans (by decide)⟩

end StraightLine
