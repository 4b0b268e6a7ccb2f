import StraightLine.Number.Style
import StraightLine.Text.Quoted

/-!
# Mismatches

How messages describe that a text holds one thing where another was expected.
-/

namespace StraightLine

/-- What a text holds at some place, as far as a message tells it: scalars with
their value, lists and maps by their kind alone. -/
inductive Found where
  | null
  | boolean (b : Bool)
  | integer (n : Int)
  | float (x : Float)
  | string (s : String)
  | sequence
  | map
  deriving DecidableEq

namespace Found

/-- The description of what was found, with numbers in a given style.  The style
is a parameter, as messages about saved programs and about settings write
floating numbers differently. -/
def describe (style : NumberStyle) : Found → String
  | .null => "null"
  | .boolean b => "boolean `" ++ (if b then "true" else "false") ++ "`"
  | .integer n => "integer `" ++ toString n ++ "`"
  | .float x => "floating point `" ++ (style.text? x).getD "null" ++ "`"
  | .string s => "string " ++ quoted s
  | .sequence => "sequence"
  | .map => "map"

end Found

/-- The message for a value of the wrong type. -/
def invalidTypeText (style : NumberStyle) (found : Found) (expected : String) : String :=
  "invalid type: " ++ found.describe style ++ ", expected " ++ expected

/-- The message for a word that is none of the known ones.  The known ones are
listed as they come, at least two of them everywhere in use. -/
def unknownVariantText (word : String) (known : List String) : String :=
  "unknown variant `" ++ word ++ "`, expected one of " ++
    ", ".intercalate (known.map fun k => "`" ++ k ++ "`")

end StraightLine
