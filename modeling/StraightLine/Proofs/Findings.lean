import StraightLine.Analysis
import StraightLine.Proofs.Dependence
import StraightLine.Proofs.FlowShape

/-!
# What an analysis reports

An analysis runs two passes, and a reader of its report sees neither scopes nor a flow graph: only
variables that are read too early and statements that stand behind a return.  Both can be told from
where things stand in the text, and the report is exactly the list of what can be told so.

## Main definitions

* `Stmt.earlyReads` — the reads without an assignment in sight.
* `Stmt.deadActions` — the actions behind a return.
* `Analysis.withCode` — the findings of one check.

## Main statements

* `Stmt.unresolved_eq_earlyReads`, `Stmt.unreachable_eq_deadActions` — what the two passes find.
* `Stmt.withCode_analyze` — the findings of a check depend on the program and on the level of that
  check alone.
* `Stmt.analyze_report` — the whole report.
-/

namespace StraightLine

/-- A check is switched off by one level only. -/
theorem Level.severity?_eq_none_iff {level : Level} : level.severity? = none ↔ level = .off := by
  cases level <;> decide

namespace Analysis

/-- The findings of the check with a given code.  A report does not keep the
findings of its two checks apart in any other way. -/
def withCode (a : Analysis) (code : String) : List Diagnostic :=
  a.diagnostics.filter (·.check.code = code)

/-- The findings of two checks, one after the other, are told apart by their
codes.  Nothing is needed of the checks but that their codes differ. -/
theorem filter_code_append {xs ys : List Diagnostic} {first second : String}
    (hxs : ∀ d ∈ xs, d.check.code = first) (hys : ∀ d ∈ ys, d.check.code = second)
    (hne : first ≠ second) :
    (xs ++ ys).filter (·.check.code = first) = xs ∧
      (xs ++ ys).filter (·.check.code = second) = ys := by
  have hown : ∀ {code : String} {ds : List Diagnostic}, (∀ d ∈ ds, d.check.code = code) →
      ds.filter (·.check.code = code) = ds :=
    fun h => List.filter_eq_self.mpr fun d hd => decide_eq_true (h d hd)
  have hother : ∀ {code code' : String} {ds : List Diagnostic}, code ≠ code' →
      (∀ d ∈ ds, d.check.code = code) → ds.filter (·.check.code = code') = [] :=
    fun hne h => List.filter_eq_nil_iff.mpr fun d hd => by simpa [h d hd] using hne
  rw [List.filter_append, List.filter_append, hown hxs, hother hne.symm hys, hother hne hxs,
    hown hys]
  exact ⟨List.append_nil xs, List.nil_append ys⟩

/-- Every finding has one of the four severities, so counting them by severity counts all. -/
theorem count_add_count (a : Analysis) :
    a.count .error + a.count .warning + a.count .info + a.count .hint = a.diagnostics.length := by
  unfold count
  induction a.diagnostics with
  | nil => rfl
  | cons d rest ih =>
      simp only [List.countP_cons, List.length_cons]
      cases d.severity <;> simp only [beq_iff_eq, reduceCtorEq, if_true, if_false] <;> omega

end Analysis

namespace Stmt

open Occurrence

/-- The reads of a program to whose name no assignment stands earlier in their
block or, before the nested block, in a block around; in text order, repeats
kept.  Neither scopes nor an order of evaluation are mentioned. -/
def earlyReads (program : Stmt) : List PlacedRead :=
  program.reads.filter fun r => ¬ program.AssignedBefore r.place r.read.name

/-- The actions of a program that come after a return, in text order.  A return
in a nested block counts like any other, since it ends the whole run. -/
def deadActions (program : Stmt) : List Occurrence :=
  program.occurrences.filter fun v =>
    ∃ r ∈ program.occurrences, r.action.isReturn = true ∧ r.position < v.position

/-! ## The two passes -/

/-- The first pass records the early reads.  An analysis resolves a program in a
tree with one empty scope, where nothing is visible at the start. -/
theorem unresolvedReads_eq_earlyReads (program : Stmt) :
    program.resolution.2.unresolvedReads = program.earlyReads.map (·.read) := by
  rw [resolution, unresolvedReads_withRoot, missedAt]
  refine congrArg (List.map _) (List.filter_congr fun r _ => ?_)
  rw [misses, decide_not]
  rfl

/-- A program resolves exactly if it has no early read. -/
theorem resolution_iff (program : Stmt) :
    program.resolution.1 = true ↔ program.earlyReads = [] := by
  have hiff : program.resolution.1 = true ↔ program.resolution.2.unresolvedReads = [] :=
    resolves_iff program .withRoot 0
  rw [hiff, unresolvedReads_eq_earlyReads, List.map_eq_nil_iff]

/-- No return stands before an action that is live.  With the converse for the
others below, liveness is a matter of what stands earlier in the text. -/
theorem not_return_before_of_mem_live {program : Stmt} {v r : Occurrence} (hv : v ∈ program.live)
    (hr : r ∈ program.occurrences) (hlt : r.position < v.position) :
    r.action.isReturn = false := by
  rcases upToReturn_cases program.occurrences with
    hnone | ⟨before, first, after, hsplit, hbefore, hfirst⟩
  · exact hnone r hr
  · have hlive : program.live = before ++ [first] := by
      rw [live, hsplit, upToReturn_append_return hbefore hfirst]
    have hend : v.position < (before ++ [first]).length := by
      have hcut : program.occurrences = before ++ [first] ++ after := by
        rw [hsplit, List.append_assoc, List.singleton_append]
      exact (position_of_append hcut).1 v (hlive ▸ hv)
    rw [List.length_append, List.length_singleton] at hend
    rw [hsplit] at hr
    rcases List.mem_append.mp hr with hr | hr
    · exact hbefore r hr
    · have hbehind := (position_of_append hsplit).2 r hr
      omega

/-- A return stands before every action that is not live. -/
theorem return_before_of_mem_drop {program : Stmt} {v : Occurrence}
    (hv : v ∈ program.occurrences.drop program.live.length) :
    ∃ r ∈ program.occurrences, r.action.isReturn = true ∧ r.position < v.position := by
  have hsplit := program.live_append_drop
  rcases upToReturn_cases program.occurrences with
    hnone | ⟨before, first, after, hcut, hbefore, hfirst⟩
  · rw [live, upToReturn_of_forall hnone, List.drop_length] at hv
    cases hv
  · have hlive : first ∈ program.live := by
      rw [live, hcut, upToReturn_append_return hbefore hfirst]
      exact List.mem_append_right _ (List.mem_singleton_self first)
    refine ⟨first, by rw [hcut]; simp, hfirst, ?_⟩
    obtain ⟨hless, hmore⟩ := position_of_append hsplit.symm
    exact Nat.lt_of_lt_of_le (hless first hlive) (hmore v hv)

/-- The second pass finds the dead actions.  The graph lists what a search does
not reach, and that list is compared, order included, with a filter of the text. -/
theorem unreachable_eq_deadActions (program : Stmt) :
    program.flow.reachability.unreachable = program.deadActions := by
  let dead : Occurrence → Bool := fun v =>
    decide (∃ r ∈ program.occurrences, r.action.isReturn = true ∧ r.position < v.position)
  have hlive : program.live.filter dead = [] := by
    refine List.filter_eq_nil_iff.mpr fun v hv hdead => ?_
    obtain ⟨r, hr, hreturn, hlt⟩ := of_decide_eq_true hdead
    rw [not_return_before_of_mem_live hv hr hlt] at hreturn
    cases hreturn
  have hdrop : (program.occurrences.drop program.live.length).filter dead =
      program.occurrences.drop program.live.length :=
    List.filter_eq_self.mpr fun v hv => decide_eq_true (return_before_of_mem_drop hv)
  calc program.flow.reachability.unreachable
      = program.occurrences.drop program.live.length := program.unreachable_flow
    _ = (program.live ++ program.occurrences.drop program.live.length).filter dead := by
        rw [List.filter_append, hlive, hdrop, List.nil_append]
    _ = program.deadActions := by
        rw [live_append_drop]
        rfl

/-! ## The report -/

/-- An action as a program of its own has the text of the action. -/
theorem text_action (a : Action) : (Stmt.action a).text = a.text := by
  rw [text, textAt, margin, Nat.zero_mul]
  exact String.empty_append

/-- The findings of the first check: the early reads, if the check is on. -/
theorem unresolvedFindings_eq (program : Stmt) (level : Level) :
    program.unresolvedFindings level =
      match level.severity? with
      | some severity =>
        program.earlyReads.map fun r => Diagnostic.unresolvedName severity r.read.name
      | none => [] := by
  rw [unresolvedFindings]
  cases level.severity? with
  | none => rfl
  | some severity =>
      show List.map _ (List.map _ _) = _
      rw [unresolvedReads_eq_earlyReads, List.map_map, List.map_map]
      rfl

/-- The findings of the second check: the dead actions, if the check is on. -/
theorem unreachableFindings_eq (program : Stmt) (level : Level) :
    program.unreachableFindings level =
      match level.severity? with
      | some severity =>
        program.deadActions.map fun v => Diagnostic.unreachableCode severity v.text
      | none => [] := by
  rw [unreachableFindings]
  cases level.severity? with
  | none => rfl
  | some severity => rw [unreachable_eq_deadActions]

/-- Findings of the first check have its code. -/
theorem code_of_mem_unresolvedFindings {program : Stmt} {level : Level} :
    ∀ d ∈ program.unresolvedFindings level, d.check.code = "S001" := by
  intro d hd
  rw [unresolvedFindings_eq] at hd
  split at hd
  · obtain ⟨r, -, rfl⟩ := List.mem_map.mp hd
    rfl
  · cases hd

/-- Findings of the second check have its code. -/
theorem code_of_mem_unreachableFindings {program : Stmt} {level : Level} :
    ∀ d ∈ program.unreachableFindings level, d.check.code = "S002" := by
  intro d hd
  rw [unreachableFindings_eq] at hd
  split at hd
  · obtain ⟨v, -, rfl⟩ := List.mem_map.mp hd
    rfl
  · cases hd

/-- Picking out the findings of a check gives what that check found.  So each of
them can be described without the level of the other. -/
theorem withCode_analyze (program : Stmt) (settings : Settings) :
    (program.analyze settings).withCode "S001" =
        program.unresolvedFindings settings.unresolved ∧
      (program.analyze settings).withCode "S002" =
        program.unreachableFindings settings.unreachable :=
  Analysis.filter_code_append code_of_mem_unresolvedFindings code_of_mem_unreachableFindings
    (by decide)

/-- With both checks on, nothing is reported exactly if there is nothing to report. -/
theorem diagnostics_eq_nil_iff (program : Stmt) {settings : Settings}
    (hunresolved : settings.unresolved ≠ .off) (hunreachable : settings.unreachable ≠ .off) :
    (program.analyze settings).diagnostics = [] ↔
      program.earlyReads = [] ∧ program.deadActions = [] := by
  obtain ⟨severity, hseverity⟩ :=
    Option.ne_none_iff_exists'.mp (mt Level.severity?_eq_none_iff.mp hunresolved)
  obtain ⟨severity', hseverity'⟩ :=
    Option.ne_none_iff_exists'.mp (mt Level.severity?_eq_none_iff.mp hunreachable)
  rw [analyze, List.append_eq_nil_iff, unresolvedFindings_eq, unreachableFindings_eq, hseverity,
    hseverity', List.map_eq_nil_iff, List.map_eq_nil_iff]

/-- **An analysis reports exactly the defects of a program.**  Its reads and actions are listed in
text order.  The findings are those of the first check and then those of the second: one for each
read to whose name no assignment stands earlier in sight, and one for each action behind a return,
with the severity that is set for the check, or none if the check is off.  A program resolves if it
has no such read, whatever the settings are; the findings of a check depend on the level of that
check alone; and counting by severity counts all findings.  If both checks are on and nothing is
reported, an assignment in sight precedes every read, and no action comes after a return. -/
theorem analyze_report (program : Stmt) :
    ((program.reads.map (·.read) = program.occurrences.flatMap fun v =>
        v.action.value.reads.map (⟨·, v.position⟩)) ∧
      program.preorder.filterMap (fun p => Flow.vertexOf? p.1 p.2) = program.occurrences) ∧
    (∀ settings,
      (program.analyze settings).diagnostics =
        (program.analyze settings).withCode "S001" ++
          (program.analyze settings).withCode "S002" ∧
      (program.analyze settings).withCode "S001" =
        (match settings.unresolved.severity? with
        | some severity => program.earlyReads.map fun r =>
            { check := .unresolvedName
              severity
              message := "variable '" ++ r.read.name ++ "' is read before it is declared"
              suggestion := some
                ("assign '" ++ r.read.name ++ "' earlier in this block or an enclosing one") }
        | none => []) ∧
      (program.analyze settings).withCode "S002" =
        (match settings.unreachable.severity? with
        | some severity => program.deadActions.map fun v =>
            { check := .unreachableCode
              severity
              message :=
                "unreachable statement `" ++ (Stmt.action v.action).textAt defaultIndent 0 ++ "`"
              suggestion := some "remove it or move it before the return" }
        | none => []) ∧
      ((program.analyze settings).resolved = true ↔
        ∀ r ∈ program.reads, program.AssignedBefore r.place r.read.name) ∧
      (program.analyze settings).count .error + (program.analyze settings).count .warning +
          (program.analyze settings).count .info + (program.analyze settings).count .hint =
        (program.analyze settings).diagnostics.length) ∧
    (∀ settings settings',
      (program.analyze settings).resolved = (program.analyze settings').resolved ∧
      (settings.unresolved = settings'.unresolved →
        (program.analyze settings).withCode "S001" =
          (program.analyze settings').withCode "S001") ∧
      (settings.unreachable = settings'.unreachable →
        (program.analyze settings).withCode "S002" =
          (program.analyze settings').withCode "S002")) ∧
    ∀ settings, settings.unresolved ≠ .off → settings.unreachable ≠ .off →
      ((program.analyze settings).diagnostics = [] ↔
        (∀ r ∈ program.reads, program.AssignedBefore r.place r.read.name) ∧
        ∀ r ∈ program.occurrences, r.action.isReturn = true →
          ∀ v ∈ program.occurrences, v.position ≤ r.position) := by
  -- The lists of defects are empty exactly under the conditions that speak of places.
  have hearly : program.earlyReads = [] ↔
      ∀ r ∈ program.reads, program.AssignedBefore r.place r.read.name := by
    simp [earlyReads]
  have hdead : program.deadActions = [] ↔
      ∀ r ∈ program.occurrences, r.action.isReturn = true →
        ∀ v ∈ program.occurrences, v.position ≤ r.position := by
    simp only [deadActions, List.filter_eq_nil_iff, decide_eq_true_eq, not_exists, not_and,
      Nat.not_lt]
    exact ⟨fun h r hr hreturn v hv => h v hv r hr hreturn,
      fun h v hv r hr hreturn => h r hr hreturn v hv⟩
  refine ⟨⟨map_read_readsAt.1 program 0, program.filterMap_preorder⟩,
    fun settings => ⟨?_, ?_, ?_, ?_, Analysis.count_add_count _⟩,
    fun settings settings' => ⟨rfl, fun hsame => ?_, fun hsame => ?_⟩,
    fun settings hon hon' => ?_⟩
  · rw [(withCode_analyze program settings).1, (withCode_analyze program settings).2]
    rfl
  · rw [(withCode_analyze program settings).1, unresolvedFindings_eq]
    rfl
  · rw [(withCode_analyze program settings).2, unreachableFindings_eq]
    cases settings.unreachable.severity? with
    | none => rfl
    | some severity =>
        refine List.map_congr_left fun v _ => ?_
        rw [Diagnostic.unreachableCode, Occurrence.text, ← text_action]
        rfl
  · rw [← hearly, ← resolution_iff]
    rfl
  · rw [(withCode_analyze program settings).1, (withCode_analyze program settings').1, hsame]
  · rw [(withCode_analyze program settings).2, (withCode_analyze program settings').2, hsame]
  · rw [diagnostics_eq_nil_iff program hon hon', hearly, hdead]

/-- One read too early and one action behind the return; switching the second check off leaves the
finding of the first one, and without the two defects nothing is reported. -/
theorem analyze_report_of_both_defects :
    let program : Stmt := .block [.assign "x" (.variable "y"),
      .ret (.binary .plus (.variable "x") (.literal (.int 1))),
      .assign "z" (.literal (.int 2))]
    let sound : Stmt := .block [.assign "x" (.literal (.int 1)), .ret (.variable "x")]
    let quiet : Settings := { Settings.standard with unreachable := .off }
    (program.analyze .standard).resolved = false ∧
      (program.analyze .standard).withCode "S001" =
        [.unresolvedName .error "y"] ∧
      (program.analyze .standard).withCode "S002" =
        [.unreachableCode .warning "z = 2"] ∧
      (program.analyze quiet).withCode "S001" = [.unresolvedName .error "y"] ∧
      (program.analyze quiet).withCode "S002" = [] ∧
      (sound.analyze .standard).diagnostics = [] := by
  intro program sound quiet
  obtain ⟨-, hreport, hpair, -⟩ := analyze_report program
  obtain ⟨-, -, -, hclean⟩ := analyze_report sound
  obtain ⟨-, hearly, hdead, hresolved, -⟩ := hreport .standard
  have hfirst : (program.analyze .standard).withCode "S001" = [.unresolvedName .error "y"] :=
    hearly.trans (by decide)
  refine ⟨?_, hfirst, hdead.trans (by decide), ?_, (hreport quiet).2.2.1, ?_⟩
  · rw [Bool.eq_false_iff, ne_eq, hresolved]
    decide
  · exact ((hpair quiet .standard).2.1 rfl).trans hfirst
  · exact (hclean .standard (by decide) (by decide)).mpr (by decide)

end Stmt

end StraightLine
