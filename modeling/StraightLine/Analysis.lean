import StraightLine.Flow
import StraightLine.Resolution
import StraightLine.Settings.Basic

/-!
# Analysis

Checks a program without running it: which variable reads do not resolve, and which statements are
never executed.  All findings of the first check come before those of the second.
-/

namespace StraightLine

/-- The outcome of an analysis. -/
structure Analysis where
  /-- Whether every variable read resolves; this does not depend on the settings. -/
  resolved : Bool
  diagnostics : List Diagnostic
  deriving DecidableEq

namespace Analysis

/-- The number of findings of a severity. -/
def count (a : Analysis) (severity : Severity) : Nat :=
  a.diagnostics.countP (·.severity == severity)

/-- Whether some finding is an error. -/
def hasErrors (a : Analysis) : Bool := 0 < a.count .error

end Analysis

namespace Stmt

/-- The resolution of a program on its own: its verdict and the state it ends in. -/
def resolution (program : Stmt) : Bool × Resolver := program.resolve 0 (.start .withRoot)

/-- The findings of the resolution check: one for every failed read, in text
order.  A check that is switched off has none, although the pass is made. -/
def unresolvedFindings (program : Stmt) (level : Level) : List Diagnostic :=
  match level.severity? with
  | some severity => program.resolution.2.unresolved.map (Diagnostic.unresolvedName severity)
  | none => []

/-- The findings of the reachability check: one for every vertex that the search
does not reach, in text order. -/
def unreachableFindings (program : Stmt) (level : Level) : List Diagnostic :=
  match level.severity? with
  | some severity =>
    program.flow.reachability.unreachable.map fun vertex =>
      Diagnostic.unreachableCode severity vertex.text
  | none => []

/-- The analysis of a program.  The findings of the first check come before
those of the second, whatever their severities are. -/
def analyze (program : Stmt) (settings : Settings) : Analysis :=
  { resolved := program.resolution.1
    diagnostics :=
      program.unresolvedFindings settings.unresolved ++
        program.unreachableFindings settings.unreachable }

end Stmt

end StraightLine
