import StraightLine.Command.Outcome
import StraightLine.Proofs.Findings
import StraightLine.Proofs.NameSafety

/-!
# What a clean check says about a run

A check and a run of one file start in the same way: they load the program and the settings of its
directory.  Then they part: a check looks at the program through two passes, and a run evaluates it.
What the passes find is what a run can trip over, so the code of a check says something about the
run.

## Main definitions

* `EvalError.IsArithmetic` — errors that no check can foresee.
* `Settings.Governs`, `Settings.Invalid` — what holds for a directory: some settings, or none.
* `Invocation.Loads` — the program and the settings that an invocation starts with.

## Main statements

* `Settings.governs_iff`, `Settings.invalid_iff` — a directory has one or the other.
* `Invocation.outcome_of_rejected`, `Invocation.Loads.outcome_eq` — the common start.
* `Invocation.Loads.check_code`, `Invocation.Loads.run_outcome` — where the commands part.
* `Stmt.ne_undefinedVariable`, `Stmt.arithmetic_or_complete` — runs of programs without findings.
* `Invocation.clean_check` — the check against the run.

## Design notes

* **The two commands are two invocations.**  They share the file and the disk; terminal, log and
  colours are their own, and so is the format of the check.  An outcome is what comes of an
  invocation whose log, if there is one, could be opened.
* **The levels enter through severities.**  A check at any level that is not off has findings of one
  severity, so the absence of that severity is the absence of defects, whatever the level is.
-/

namespace StraightLine

/-- An error of arithmetic.  All other errors are about names, and those can be
foreseen without knowing any value. -/
def EvalError.IsArithmetic (e : EvalError) : Prop :=
  ∃ op, e = .divisionByZero op ∨ e = .overflow op

theorem EvalError.isArithmetic_of_ne {e : EvalError} (h : ∀ name, e ≠ .undefinedVariable name) :
    e.IsArithmetic := by
  cases e with
  | undefinedVariable name => exact absurd rfl (h name)
  | divisionByZero op => exact ⟨op, Or.inl rfl⟩
  | overflow op => exact ⟨op, Or.inr rfl⟩

/-! ## Files and settings -/

/-- A file with the bytes of a text has that text. -/
theorem Disk.readText_of_entry {disk : Disk} {path text : String}
    (hentry : disk.entry path = .file text.toUTF8) : disk.readText path = .ok text := by
  have hdecode : String.fromUTF8? text.toUTF8 = some text := by
    rw [String.fromUTF8?, String.toUTF8_eq_toByteArray, dif_pos text.isValidUTF8]
    rfl
  simp only [readText, hentry, hdecode]

namespace Settings

/-- The settings that govern a directory: those in the nearest file, or the
standard ones if no file is found.  The standard settings govern only where
there is no file at all; a file without any settings in it is another case, and
gives standard values too. -/
inductive Governs (disk : Disk) (directory : String) : Settings → Prop where
  | standard (hfind : find? disk directory = none) : Governs disk directory .standard
  | written {path text : String} {loaded : Loaded} (hfind : find? disk directory = some path)
      (htext : disk.readText path = .ok text) (hloaded : ofText text = .ok loaded) :
      Governs disk directory loaded.settings

/-- The settings of a directory are invalid: the nearest file can not be read, or its text holds no
settings.  Either way the file is the nearest one and stays so: nothing further up and no standard
takes its place. -/
inductive Invalid (disk : Disk) (directory : String) : Prop where
  | unreadable {path : String} {reason : DiskProblem} (hfind : find? disk directory = some path)
      (htext : disk.readText path = .error reason)
  | problem {path text : String} {reason : Problem} (hfind : find? disk directory = some path)
      (htext : disk.readText path = .ok text) (hreason : ofText text = .error reason)

variable {disk : Disk} {directory : String}

/-- A file that is there but can not be read leaves its directory without settings. -/
theorem invalid_of_unreadable {path : String} {reason : DiskProblem}
    (hfind : find? disk directory = some path) (hentry : disk.entry path = .unreadable reason) :
    Invalid disk directory := by
  have htext : disk.readText path = .error reason := by simp only [Disk.readText, hentry]
  exact .unreadable hfind htext

/-- Settings that govern a directory are loaded for it, and no others.  So
`Governs` describes loading, and does not only follow from it. -/
theorem governs_iff {settings : Settings} :
    Governs disk directory settings ↔
      ∃ loaded, loadFor disk directory = .ok loaded ∧ loaded.settings = settings := by
  constructor
  · rintro (hfind | ⟨hfind, htext, hloaded⟩)
    · exact ⟨.standard, by rw [loadFor, hfind], rfl⟩
    · simp only [loadFor, hfind, load, htext, hloaded]
      exact ⟨_, rfl, rfl⟩
  · rintro ⟨loaded, hload, rfl⟩
    rw [loadFor] at hload
    cases hfind : find? disk directory with
    | none =>
        rw [hfind] at hload
        cases hload
        exact .standard hfind
    | some path =>
        simp only [hfind, load] at hload
        cases htext : disk.readText path with
        | error reason => simp [htext] at hload
        | ok text =>
            cases hloaded : ofText text with
            | error reason => simp [htext, hloaded] at hload
            | ok found =>
                simp only [htext, hloaded, Except.ok.injEq] at hload
                rw [← hload]
                exact .written hfind htext hloaded

/-- Settings that are invalid can not be loaded, and nothing else keeps them from it. -/
theorem invalid_iff :
    Invalid disk directory ↔ ∃ reason, loadFor disk directory = .error reason := by
  constructor
  · rintro (⟨hfind, htext⟩ | ⟨hfind, htext, hreason⟩)
    · simp only [loadFor, hfind, load, htext]
      exact ⟨_, rfl⟩
    · simp only [loadFor, hfind, load, htext, hreason]
      exact ⟨_, rfl⟩
  · rintro ⟨reason, hload⟩
    rw [loadFor] at hload
    cases hfind : find? disk directory with
    | none => simp [hfind] at hload
    | some path =>
        simp only [hfind, load] at hload
        cases htext : disk.readText path with
        | error reason => exact .unreadable hfind htext
        | ok text =>
            cases hloaded : ofText text with
            | error reason => exact .problem hfind htext hloaded
            | ok found => simp [htext, hloaded] at hload

/-- Every directory is governed by some settings, unless they are invalid.
Never both: the nearest file is determined by the disk and the directory. -/
theorem invalid_or_governs (disk : Disk) (directory : String) :
    Invalid disk directory ∨ ∃ settings, Governs disk directory settings := by
  cases hload : loadFor disk directory with
  | error reason => exact Or.inl (invalid_iff.mpr ⟨reason, hload⟩)
  | ok loaded => exact Or.inr ⟨loaded.settings, governs_iff.mpr ⟨loaded, hload, rfl⟩⟩

end Settings

/-! ## Where both commands start -/

namespace Outcome

@[simp] theorem status_after (emitted : List Emission) (o : Outcome) :
    (o.after emitted).status = o.status := rfl

/-- A failure has the code 1 and no result, whatever was told before. -/
theorem code_of_failed {o : Outcome} (h : ∃ emitted f, o = (failed f).after emitted) :
    o.status.code = 1 ∧ o.output = "" := by
  obtain ⟨emitted, f, rfl⟩ := h
  exact ⟨rfl, rfl⟩

end Outcome

namespace Invocation

variable {inv : Invocation} {disk : Disk} {text : String} {program : Stmt} {settings : Settings}

/-- What an invocation loads: the program of its file, and the settings of the
directory.  A check and a run of one file load the same, and this is what
connects them. -/
structure Loads (inv : Invocation) (disk : Disk) (program : Stmt) (settings : Settings) :
    Prop where
  load_eq : Saved.load disk inv.program = .ok program
  governs : Settings.Governs disk (Path.directory inv.program) settings

theorem loads_of_read (hfile : disk.readText inv.program = .ok text)
    (hread : Saved.read text = .ok program)
    (hgoverns : Settings.Governs disk (Path.directory inv.program) settings) :
    inv.Loads disk program settings where
  load_eq := by simp only [Saved.load, hfile, hread]
  governs := hgoverns

/-- Every command fails without a result if the text holds no program or the
settings are invalid.  Which of the two comes first does not matter for that. -/
theorem outcome_of_rejected (terminal : Terminal) (hfile : disk.readText inv.program = .ok text)
    (h : (∃ problem, Saved.read text = .error problem) ∨
      Settings.Invalid disk (Path.directory inv.program)) :
    ∃ emitted f, inv.outcome disk terminal = (Outcome.failed f).after emitted := by
  simp only [outcome, Saved.load, hfile]
  cases hread : Saved.read text with
  | error problem => exact ⟨[], _, rfl⟩
  | ok program =>
      rcases h with ⟨problem, hproblem⟩ | hinvalid
      · rw [hread] at hproblem
        cases hproblem
      · obtain ⟨reason, hload⟩ := Settings.invalid_iff.mp hinvalid
        simp only [hload]
        exact ⟨_, _, rfl⟩

/-- Once all is loaded the command decides; before it, things are only told.
What was told is kept in front of the outcome and changes neither its code nor
its result. -/
theorem Loads.outcome_eq (h : inv.Loads disk program settings) (terminal : Terminal) :
    ∃ emitted, inv.outcome disk terminal =
      (inv.command.outcome (inv.color terminal) inv.program program settings).after emitted := by
  obtain ⟨loaded, hload, rfl⟩ := Settings.governs_iff.mp h.governs
  simp only [outcome, h.load_eq, hload]
  exact ⟨_, rfl⟩

end Invocation

/-! ## Where they part -/

/-- Findings of a severity are counted exactly if there are any. -/
theorem Analysis.count_pos_iff {a : Analysis} {severity : Severity} :
    0 < a.count severity ↔ ∃ d ∈ a.diagnostics, d.severity = severity := by
  rw [count, List.countP_pos_iff]
  simp only [beq_iff_eq]

namespace Command

variable (color : Bool) (name : String) {program : Stmt} (settings : Settings)

/-- A check has code 1 on errors and, if it is told to, on warnings, and else code 0.  Its format
does not matter. -/
theorem check_code (format : ReportFormat) (strict : Bool) :
    let o := (Command.check format strict).outcome color name program settings
    (o.status.code = 1 ↔
      (∃ d ∈ (program.analyze settings).diagnostics, d.severity = .error) ∨
        (strict = true ∧ ∃ d ∈ (program.analyze settings).diagnostics, d.severity = .warning)) ∧
      (o.status.code ≠ 1 → o.status.code = 0) := by
  intro o
  have hstatus : o.status =
      if (∃ d ∈ (program.analyze settings).diagnostics, d.severity = .error) ∨
          (strict = true ∧ ∃ d ∈ (program.analyze settings).diagnostics, d.severity = .warning) then
        .failure
      else .success := by
    simp only [o, outcome, Analysis.hasErrors, Bool.or_eq_true, Bool.and_eq_true,
      decide_eq_true_eq, Analysis.count_pos_iff]
  rw [hstatus]
  split
  · rename_i halarm
    exact ⟨iff_of_true rfl halarm, fun hne => absurd rfl hne⟩
  · rename_i hquiet
    exact ⟨iff_of_false (by decide) hquiet, fun _ => rfl⟩

/-- A run without error has code 0. -/
theorem run_code_of_ok {value : Option Value} (h : (program.evaluate .withRoot 0).1 = .ok value) :
    (Command.run.outcome color name program settings).status.code = 0 := by
  obtain ⟨completion, hok⟩ := Stmt.execute_of_evaluate_ok h
  simp only [outcome, Outcome.status_after, hok]
  cases completion.value? with
  | none => rfl
  | some value => rfl

/-- A run with an error fails, and the error is the reason. -/
theorem run_of_error {e : EvalError} (h : (program.evaluate .withRoot 0).1 = .error e) :
    ∃ emitted, Command.run.outcome color name program settings =
      (Outcome.failed (.ofRun name e)).after emitted := by
  have herror := Stmt.execute_of_evaluate_error h
  simp only [outcome, herror]
  exact ⟨_, rfl⟩

end Command

namespace Invocation.Loads

variable {inv : Invocation} {disk : Disk} {program : Stmt} {settings : Settings}
  {format : ReportFormat} {strict : Bool}

/-- The codes of a check of a file. -/
theorem check_code (h : inv.Loads disk program settings)
    (hcheck : inv.command = .check format strict) (terminal : Terminal) :
    ((inv.outcome disk terminal).status.code = 1 ↔
      (∃ d ∈ (program.analyze settings).diagnostics, d.severity = .error) ∨
        (strict = true ∧ ∃ d ∈ (program.analyze settings).diagnostics, d.severity = .warning)) ∧
      ((inv.outcome disk terminal).status.code ≠ 1 →
        (inv.outcome disk terminal).status.code = 0) := by
  obtain ⟨emitted, houtcome⟩ := h.outcome_eq terminal
  rw [houtcome, hcheck, Outcome.status_after]
  exact Command.check_code (inv.color terminal) inv.program settings format strict

/-- What lets a check fail is absent if the check has code 0: errors always, and
warnings if the check was told to count them. -/
theorem severity_ne_of_check (h : inv.Loads disk program settings)
    (hcheck : inv.command = .check format strict) {terminal : Terminal}
    (hcode : (inv.outcome disk terminal).status.code = 0) :
    ∀ d ∈ (program.analyze settings).diagnostics,
      d.severity ≠ .error ∧ (strict = true → d.severity ≠ .warning) := by
  intro d hd
  have hquiet := mt (h.check_code hcheck terminal).1.mpr (by rw [hcode]; decide)
  constructor
  · intro herror
    exact hquiet (Or.inl ⟨d, hd, herror⟩)
  · intro hstrict hwarning
    exact hquiet (Or.inr ⟨hstrict, d, hd, hwarning⟩)

/-- What a run of a file comes to: code 0 without error, and a failure for the reason of the
error. -/
theorem run_outcome (h : inv.Loads disk program settings) (hrun : inv.command = .run)
    (terminal : Terminal) :
    ((inv.outcome disk terminal).status.code = 0 ↔
        ∃ value, (program.evaluate .withRoot 0).1 = .ok value) ∧
      ∀ e, (program.evaluate .withRoot 0).1 = .error e →
        (inv.outcome disk terminal).status.code = 1 ∧ (inv.outcome disk terminal).output = "" ∧
          .text (Failure.ofRun inv.program e).text ∈ (inv.outcome disk terminal).emissions := by
  obtain ⟨emitted, houtcome⟩ := h.outcome_eq terminal
  rw [houtcome, hrun]
  cases hvalue : (program.evaluate .withRoot 0).1 with
  | ok value =>
      constructor
      · apply iff_of_true _ ⟨value, rfl⟩
        rw [Outcome.status_after, Command.run_code_of_ok _ _ _ hvalue]
      · intro e he
        cases he
  | error e =>
      obtain ⟨emitted', hfailed⟩ :=
        Command.run_of_error (inv.color terminal) inv.program settings hvalue
      rw [hfailed]
      constructor
      · apply iff_of_false (show ¬ (1 : UInt8) = 0 by decide)
        rintro ⟨value, he⟩
        cases he
      · intro e' he
        cases he
        exact ⟨rfl, rfl, by simp [Outcome.after, Outcome.failed]⟩

end Invocation.Loads

/-! ## Programs without findings -/

namespace Stmt

variable {program : Stmt} {settings : Settings} {severity : Severity}

/-- Without a finding of the severity of the first check there is no early read.
The level has to be on, as a check that is off finds nothing in any program. -/
theorem earlyReads_eq_nil (hlevel : settings.unresolved.severity? = some severity)
    (hclean : ∀ d ∈ (program.analyze settings).diagnostics, d.severity ≠ severity) :
    program.earlyReads = [] := by
  apply List.eq_nil_iff_forall_not_mem.mpr
  intro r hr
  apply hclean (.unresolvedName severity r.read.name) _ rfl
  apply List.mem_append_left
  rw [unresolvedFindings_eq, hlevel]
  exact List.mem_map_of_mem hr

/-- Without a finding of the severity of the second check there is no dead action. -/
theorem deadActions_eq_nil (hlevel : settings.unreachable.severity? = some severity)
    (hclean : ∀ d ∈ (program.analyze settings).diagnostics, d.severity ≠ severity) :
    program.deadActions = [] := by
  apply List.eq_nil_iff_forall_not_mem.mpr
  intro v hv
  apply hclean (.unreachableCode severity v.text) _ rfl
  apply List.mem_append_right
  rw [unreachableFindings_eq, hlevel]
  exact List.mem_map_of_mem hv

/-- A program without early reads never fails on a name.  Absence of early reads
means that the program resolves in the tree in which a run of it starts. -/
theorem ne_undefinedVariable (hearly : program.earlyReads = []) (name : String) :
    (program.evaluate .withRoot 0).1 ≠ .error (.undefinedVariable name) := by
  intro herror
  have hdecls : (ScopeTree.withRoot : Declarations).Grown := .root .empty
  have henv : (ScopeTree.withRoot : Environment).Grown := .root .empty
  have haligned : Aligned 0 (ScopeTree.withRoot : Declarations).size 0
      (ScopeTree.withRoot : Environment).size 0 .withRoot .withRoot :=
    .start ⟨hdecls.ranked, Nat.one_pos, rfl⟩ ⟨henv.ranked, Nat.one_pos, rfl⟩ fun _ => rfl
  have hhead : program.resolution.2.unresolved.head? = some name :=
    head?_unresolved_of_execute haligned (execute_of_evaluate_error herror)
  rw [Resolver.unresolved, unresolvedReads_eq_earlyReads, hearly] at hhead
  cases hhead

/-- A run without error starts all actions of a program without dead ones. -/
theorem started_eq_occurrences (hdead : program.deadActions = []) {value : Option Value}
    (h : (program.evaluate .withRoot 0).1 = .ok value) :
    (program.execute .withRoot 0).2.started.toList = program.occurrences := by
  obtain ⟨completion, hok⟩ := execute_of_evaluate_ok h
  have hdrop : program.occurrences.drop program.live.length = [] := by
    rw [← unreachable_flow, unreachable_eq_deadActions, hdead]
  calc (program.execute .withRoot 0).2.started.toList
      = program.live := (started_of_ok hok).1
    _ = program.live ++ program.occurrences.drop program.live.length := by
        rw [hdrop, List.append_nil]
    _ = program.occurrences := program.live_append_drop

/-- A program without defects stops at an error of arithmetic or carries out all
its actions.  The two cases exclude each other, and which of them it is depends
on values. -/
theorem arithmetic_or_complete (hearly : program.earlyReads = [])
    (hdead : program.deadActions = []) :
    (∃ e, (program.evaluate .withRoot 0).1 = .error e ∧ e.IsArithmetic) ∨
      ((∃ value, (program.evaluate .withRoot 0).1 = .ok value) ∧
        (program.execute .withRoot 0).2.started.toList = program.occurrences) := by
  cases hvalue : (program.evaluate .withRoot 0).1 with
  | error e =>
      refine Or.inl ⟨e, rfl, EvalError.isArithmetic_of_ne fun name hname => ?_⟩
      exact ne_undefinedVariable hearly name (hname ▸ hvalue)
  | ok value => exact Or.inr ⟨⟨value, rfl⟩, started_eq_occurrences hdead hvalue⟩

end Stmt

/-! ## The check against the run -/

namespace Invocation

/-- **A clean check speaks for the run.**  Let a check and a run be invoked on one file.  If its
text holds no program or the settings of its directory are invalid, both fail with code 1 and
without a result; otherwise the text holds a program and some settings govern.  Then the run has
code 0 exactly if the evaluation in a fresh environment has no error, and else code 1 and no result.
The check has code 1 exactly if some finding is an error or, with warnings counted, a warning, and
else code 0, in both formats.  If unresolved names are errors and the check has code 0, the run does
not fail on a name.  If the levels are the standard ones and a check that counts warnings has
code 0, the run stops at an error of arithmetic or carries out all actions of the program. -/
theorem clean_check {disk : Disk} {check run : Invocation} {format : ReportFormat} {strict : Bool}
    {text : String} (terminal terminal' : Terminal) (hcheck : check.command = .check format strict)
    (hrun : run.command = .run) (hprogram : run.program = check.program)
    (hfile : disk.readText check.program = .ok text) :
    let directory := Path.directory check.program
    let checked := check.outcome disk terminal
    let ran := run.outcome disk terminal'
    ((∃ problem, Saved.read text = .error problem) ∨ Settings.Invalid disk directory →
      (checked.status.code = 1 ∧ checked.output = "") ∧ ran.status.code = 1 ∧ ran.output = "") ∧
    ((∃ problem, Saved.read text = .error problem) ∨ Settings.Invalid disk directory ∨
      ∃ program settings, Saved.read text = .ok program ∧
        Settings.Governs disk directory settings) ∧
    ∀ program settings, Saved.read text = .ok program → Settings.Governs disk directory settings →
      (ran.status.code = 0 ↔ ∃ value, (program.evaluate .withRoot 0).1 = .ok value) ∧
      (∀ e, (program.evaluate .withRoot 0).1 = .error e →
        ran.status.code = 1 ∧ ran.output = "" ∧
          .text (Failure.ofRun run.program e).text ∈ ran.emissions) ∧
      (checked.status.code = 1 ↔
        (∃ d ∈ (program.analyze settings).diagnostics, d.severity = .error) ∨
          (strict = true ∧
            ∃ d ∈ (program.analyze settings).diagnostics, d.severity = .warning)) ∧
      (checked.status.code ≠ 1 → checked.status.code = 0) ∧
      (settings.unresolved = .error → checked.status.code = 0 →
        ∀ name, (program.evaluate .withRoot 0).1 ≠ .error (.undefinedVariable name)) ∧
      (settings.unresolved = Settings.standard.unresolved →
        settings.unreachable = Settings.standard.unreachable →
        strict = true → checked.status.code = 0 →
        (∃ e, (program.evaluate .withRoot 0).1 = .error e ∧ e.IsArithmetic) ∨
          ((∃ value, (program.evaluate .withRoot 0).1 = .ok value) ∧
            (program.execute .withRoot 0).2.started.toList = program.occurrences)) := by
  intro directory checked ran
  have hfile' : disk.readText run.program = .ok text := hprogram ▸ hfile
  have hdirectory : directory = Path.directory run.program := by rw [hprogram]
  refine ⟨fun h => ⟨?_, ?_⟩, ?_, fun program settings hread hgoverns => ?_⟩
  · exact Outcome.code_of_failed (outcome_of_rejected terminal hfile h)
  · rw [hdirectory] at h
    exact Outcome.code_of_failed (outcome_of_rejected terminal' hfile' h)
  · cases hread : Saved.read text with
    | error problem => exact Or.inl ⟨problem, rfl⟩
    | ok program =>
        rcases Settings.invalid_or_governs disk directory with hinvalid | ⟨settings, hgoverns⟩
        · exact Or.inr (Or.inl hinvalid)
        · exact Or.inr (Or.inr ⟨program, settings, rfl, hgoverns⟩)
  · -- Both commands load the same, since they are given the same path.
    have hloads : check.Loads disk program settings := loads_of_read hfile hread hgoverns
    have hloads' : run.Loads disk program settings :=
      loads_of_read hfile' hread (hdirectory ▸ hgoverns)
    obtain ⟨hran, hfails⟩ := hloads'.run_outcome hrun terminal'
    obtain ⟨hone, hzero⟩ := hloads.check_code hcheck terminal
    have hearly : settings.unresolved = .error → checked.status.code = 0 →
        program.earlyReads = [] := by
      intro hlevel hcode
      have hseverity : settings.unresolved.severity? = some .error := by rw [hlevel]; rfl
      apply Stmt.earlyReads_eq_nil hseverity
      intro d hd
      exact (hloads.severity_ne_of_check hcheck hcode d hd).1
    refine ⟨hran, hfails, hone, hzero, ?_, ?_⟩
    · intro hlevel hcode
      exact Stmt.ne_undefinedVariable (hearly hlevel hcode)
    · intro hlevel hlevel' hstrict hcode
      have hseverity : settings.unreachable.severity? = some .warning := by rw [hlevel']; rfl
      apply Stmt.arithmetic_or_complete (hearly hlevel hcode)
      apply Stmt.deadActions_eq_nil hseverity
      intro d hd
      exact (hloads.severity_ne_of_check hcheck hcode d hd).2 hstrict

/-- A clean program that divides by zero: a check that counts warnings has code 0, so the run, which
fails, fails for arithmetic.  With a dead action the check has code 1 although the run succeeds, and
with settings that can not be parsed, or may not be read, both fail. -/
theorem clean_check_of_division :
    let division := "[\x7b\"assignment\":\x7b\"target\":\"x\"," ++
      "\"value\":\x7b\"literal\":7\x7d\x7d\x7d," ++
      "\x7b\"return\":\x7b\"binary\":\x7b\"op\":\"int_div\",\"left\":\x7b\"variable\":\"x\"\x7d," ++
      "\"right\":\x7b\"literal\":0\x7d\x7d\x7d\x7d]"
    let dead := "[\x7b\"return\":\x7b\"literal\":1\x7d\x7d," ++
      "\x7b\"return\":\x7b\"literal\":2\x7d\x7d]"
    let disk (text : String) := Disk.ofEntries [("p.json", .file text.toUTF8)]
    let broken := Disk.ofEntries [("p.json", .file dead.toUTF8), ("sable.toml", .file "=".toUTF8)]
    let locked := Disk.ofEntries
      [("p.json", .file dead.toUTF8), ("sable.toml", .unreadable .denied)]
    let check : Invocation := ⟨.check .json true, "p.json", .warn, none, false, false⟩
    let run : Invocation := ⟨.run, "p.json", .error, none, false, true⟩
    let terminal : Terminal := ⟨false, false⟩
    (check.outcome (disk division) terminal).status.code = 0 ∧
      (run.outcome (disk division) terminal).status.code = 1 ∧
      (∃ program e, Saved.read division = .ok program ∧
        (program.evaluate .withRoot 0).1 = .error e ∧ e.IsArithmetic) ∧
      (check.outcome (disk dead) terminal).status.code = 1 ∧
      (run.outcome (disk dead) terminal).status.code = 0 ∧
      (check.outcome broken terminal).status.code = 1 ∧
      (run.outcome broken terminal).status.code = 1 ∧
      (check.outcome locked terminal).status.code = 1 ∧
      (run.outcome locked terminal).status.code = 1 := by
  intro division dead disk broken locked check run terminal
  have hcandidates : Settings.candidates (Path.directory "p.json") =
      ["./sable.toml", "sable.toml"] := by decide +kernel
  have hfile : ∀ text, (disk text).readText "p.json" = .ok text :=
    fun _ => Disk.readText_of_entry rfl
  have hgoverns : ∀ text, Settings.Governs (disk text) (Path.directory "p.json") .standard := by
    intro text
    apply Settings.Governs.standard
    rw [Settings.find?, hcandidates]
    rfl
  have hinvalid : Settings.Invalid broken (Path.directory "p.json") := by
    have hfound : Settings.find? broken (Path.directory "p.json") = some "sable.toml" := by
      rw [Settings.find?, hcandidates]
      rfl
    have htext : broken.readText "sable.toml" = .ok "=" := Disk.readText_of_entry rfl
    have hreason : Settings.ofText "=" = .error .notToml := by decide +kernel
    exact .problem hfound htext hreason
  have hunreadable : Settings.Invalid locked (Path.directory "p.json") := by
    have hfound : Settings.find? locked (Path.directory "p.json") = some "sable.toml" := by
      rw [Settings.find?, hcandidates]
      rfl
    exact Settings.invalid_of_unreadable hfound rfl
  -- The first text has no finding.
  -- The characters of a long text are slow to take out of it, so they are taken out of its parts.
  obtain ⟨chars, hchars, hbody⟩ : ∃ chars, division.toList = chars ∧
      Saved.readBody Saved.nestingLimit chars = .ok ([.assign "x" (.literal (.int 7)),
        .ret (.binary .intDiv (.variable "x") (.literal (.int 0)))], []) :=
    ⟨_, by simp only [division, String.toList_append]
           rw [String.toList_ofList, String.toList_ofList, String.toList_ofList,
             String.toList_ofList],
      by decide +kernel⟩
  have hdivision : Saved.read division = .ok (.block [
      .assign "x" (.literal (.int 7)),
      .ret (.binary .intDiv (.variable "x") (.literal (.int 0)))]) := by
    rw [Saved.read, Saved.whole_eq_ok hchars hbody rfl]
    rfl
  have hcheck : check.command = .check .json true := rfl
  have hrun : run.command = .run := rfl
  obtain ⟨-, -, hloaded⟩ := clean_check terminal terminal hcheck hrun rfl (hfile division)
  obtain ⟨-, hfails, hone, hzero, -, hclean⟩ := hloaded _ _ hdivision (hgoverns division)
  have hcode : (check.outcome (disk division) terminal).status.code = 0 :=
    hzero (mt hone.mp (by decide +kernel))
  have hran : (run.outcome (disk division) terminal).status.code = 1 := (hfails _ rfl).1
  -- The second text has a warning.
  have hdead : Saved.read dead = .ok (.block [
      .ret (.literal (.int 1)), .ret (.literal (.int 2))]) := by decide +kernel
  obtain ⟨-, -, hloaded'⟩ := clean_check terminal terminal hcheck hrun rfl (hfile dead)
  obtain ⟨hran', -, hone', -⟩ := hloaded' _ _ hdead (hgoverns dead)
  have hbroken : broken.readText "p.json" = .ok dead := Disk.readText_of_entry rfl
  obtain ⟨hrejected, -⟩ := clean_check terminal terminal hcheck hrun rfl hbroken
  obtain ⟨⟨hfailed, -⟩, hfailed', -⟩ := hrejected (Or.inr hinvalid)
  have hlocked : locked.readText "p.json" = .ok dead := Disk.readText_of_entry rfl
  obtain ⟨hrefused, -⟩ := clean_check terminal terminal hcheck hrun rfl hlocked
  obtain ⟨⟨hdenied, -⟩, hdenied', -⟩ := hrefused (Or.inr hunreadable)
  refine ⟨hcode, hran, ?_, hone'.mpr (by decide +kernel), hran'.mpr ⟨_, rfl⟩, hfailed, hfailed',
    hdenied, hdenied'⟩
  rcases hclean rfl rfl rfl hcode with ⟨e, herror, harithmetic⟩ | ⟨⟨value, hvalue⟩, -⟩
  · exact ⟨_, e, hdivision, herror, harithmetic⟩
  · cases hvalue

end Invocation

end StraightLine
