/-!
# Diagnostics

The findings of an analysis: a check that was not met, how serious that is, and a text.
-/

namespace StraightLine

/-- How serious a finding is. -/
inductive Severity where
  | error
  | warning
  | info
  | hint
  deriving DecidableEq, Repr, Inhabited

namespace Severity

/-- All severities, the most serious one first. -/
def all : List Severity := [.error, .warning, .info, .hint]

/-- The name of a severity. -/
def name : Severity → String
  | .error => "error"
  | .warning => "warning"
  | .info => "info"
  | .hint => "hint"

end Severity

/-- The checks of a program.  Each of them has a code and a name, by which its
findings are known in every report. -/
inductive Check where
  /-- Every variable read has an earlier assignment that is visible from it. -/
  | unresolvedName
  /-- No statement stands behind a return. -/
  | unreachableCode
  deriving DecidableEq, Repr

namespace Check

/-- The code of a check. -/
def code : Check → String
  | .unresolvedName => "S001"
  | .unreachableCode => "S002"

/-- The name of a check. -/
def name : Check → String
  | .unresolvedName => "unresolved-name"
  | .unreachableCode => "unreachable-code"

end Check

/-- A finding.  What a report shows of it is put together from these four parts,
so findings that agree in them are the same. -/
structure Diagnostic where
  check : Check
  severity : Severity
  message : String
  suggestion : Option String
  deriving DecidableEq

namespace Diagnostic

/-- A finding on one line. -/
def text (d : Diagnostic) : String :=
  d.severity.name ++ "[" ++ d.check.code ++ "]: " ++ d.message

/-- A read of a name that is not declared. -/
def unresolvedName (severity : Severity) (name : String) : Diagnostic :=
  { check := .unresolvedName
    severity
    message := "variable '" ++ name ++ "' is read before it is declared"
    suggestion := some ("assign '" ++ name ++ "' earlier in this block or an enclosing one") }

/-- A statement that is never executed, given by its text. -/
def unreachableCode (severity : Severity) (statement : String) : Diagnostic :=
  { check := .unreachableCode
    severity
    message := "unreachable statement `" ++ statement ++ "`"
    suggestion := some "remove it or move it before the return" }

end Diagnostic

end StraightLine
