import StraightLine.Json.Value
import StraightLine.Stmt

/-!
# Saved programs: writing

A program is saved as the JSON array of its statements.  Every statement and every expression is an
object with one field, whose key tells its kind.
-/

namespace StraightLine

/-- The saved form of a value: a number, with a point exactly if it is floating.
This keeps the two kinds apart, as a reader takes a number without point for an
integer where it can. -/
def Value.toJson : Value → Json
  | .int n => .int n.toInt
  | .float x => .float x

/-- The saved form of an expression.  The fields of an operation are written in
the order in which they are evaluated, though a reader takes them in any. -/
def Expr.toJson : Expr → Json
  | .literal value => .object [("literal", value.toJson)]
  | .variable name => .object [("variable", .string name)]
  | .binary op left right =>
    .object [("binary",
      .object [("op", .string op.name), ("left", left.toJson), ("right", right.toJson)])]

/-- The saved form of an action. -/
def Action.toJson : Action → Json
  | .assign target value =>
    .object [("assignment", .object [("target", .string target), ("value", value.toJson)])]
  | .ret value => .object [("return", value.toJson)]

namespace Stmt

mutual

/-- The saved form of a statement. -/
def toJson : Stmt → Json
  | .action a => a.toJson
  | .block body => .object [("block", .array (jsonItems body))]

/-- The saved forms of the statements of a block. -/
def jsonItems : List Stmt → List Json
  | [] => []
  | s :: rest => s.toJson :: jsonItems rest

end

/-- The statements of a block as a saved program.  The block itself leaves no
mark: a program is always one, so only the list of its statements is written. -/
def savedText (body : List Stmt) : String := (Json.array (jsonItems body)).compact

end Stmt

end StraightLine
