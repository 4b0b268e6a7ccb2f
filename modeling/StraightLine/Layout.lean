import StraightLine.Arithmetic
import StraightLine.Stmt

/-!
# Source text

Programs written out with one statement a line, nested blocks indented.  Every binary operation
stands in parentheses, so the text shows the whole tree.
-/

namespace StraightLine

/-- The number of spaces that a nesting level is indented by if nothing else is asked for. -/
def defaultIndent : Nat := 4

/-- The text of an expression. -/
def Expr.text : Expr → String
  | .literal value => value.text
  | .variable name => name
  | .binary op left right => "(" ++ left.text ++ " " ++ op.symbol ++ " " ++ right.text ++ ")"

/-- The text of an action. -/
def Action.text : Action → String
  | .assign target value => target ++ " = " ++ value.text
  | .ret value => "return " ++ value.text

/-- The blanks before a line at a nesting level.  With an indentation of zero
all lines start at the margin. -/
def margin (indent level : Nat) : String := "".pushn ' ' (level * indent)

namespace Stmt

mutual

/-- The text of a statement at a nesting level, each level indented by `indent`
spaces.  There is no newline at the end, whether it is an action or a block. -/
def textAt (indent level : Nat) : Stmt → String
  | .action a => margin indent level ++ a.text
  | .block body =>
    margin indent level ++ "\x7b\n" ++ textOf indent (level + 1) body ++
      (margin indent level ++ "\x7d")

/-- The text of the statements of a block, each on lines of its own. -/
def textOf (indent level : Nat) : List Stmt → String
  | [] => ""
  | s :: rest => s.textAt indent level ++ "\n" ++ textOf indent level rest

end

/-- The text of a program with the default indentation. -/
def text (program : Stmt) : String := program.textAt defaultIndent 0

end Stmt

/-- The text of a vertex of a flow graph. -/
def Occurrence.text (o : Occurrence) : String := o.action.text

end StraightLine
