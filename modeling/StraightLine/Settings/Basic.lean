import StraightLine.Diagnostic
import StraightLine.Layout

/-!
# Settings

What a project can choose: the indentation of source text and the severity of each check, which can
also be switched off.
-/

namespace StraightLine

/-- The level of a check: a severity, or off.  A check that is off is not a
check of least severity: it is not made at all. -/
inductive Level where
  | error
  | warning
  | info
  | hint
  | off
  deriving DecidableEq, Repr, Inhabited

namespace Level

/-- All levels, in the order in which messages list them. -/
def all : List Level := [.error, .warning, .info, .hint, .off]

/-- The name of a level. -/
def name : Level → String
  | .error => "error"
  | .warning => "warning"
  | .info => "info"
  | .hint => "hint"
  | .off => "off"

/-- The level with a given name. -/
def ofName? (word : String) : Option Level := all.find? (·.name == word)

theorem ofName?_name (level : Level) : ofName? level.name = some level := by cases level <;> decide

/-- The severity of the findings of a check, if it is on. -/
def severity? : Level → Option Severity
  | .error => some .error
  | .warning => some .warning
  | .info => some .info
  | .hint => some .hint
  | .off => none

end Level

/-- The settings of a project. -/
structure Settings where
  /-- Spaces per nesting level of source text. -/
  indent : Nat
  /-- The level of unresolved names. -/
  unresolved : Level
  /-- The level of unreachable statements. -/
  unreachable : Level
  deriving DecidableEq, Repr

namespace Settings

/-- The settings of a project that chooses nothing.  Unresolved names are
errors, since a run that reads one fails; unreachable statements are warnings,
since they do no harm. -/
def standard : Settings := ⟨defaultIndent, .error, .warning⟩

instance : Inhabited Settings := ⟨standard⟩

end Settings

end StraightLine
