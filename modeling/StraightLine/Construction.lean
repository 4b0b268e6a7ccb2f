import StraightLine.Stmt

/-!
# Construction

Programs assembled from parts that may be missing or badly named.  A draft is a tree of such parts;
building it gives the program, or the first defect from left to right.

## Main definitions

* `Construction.Defect` — what can be wrong, with its text.
* `Construction.binary`, `Construction.assign`, … — the checks of single nodes, on parts that were
  themselves built or not.
* `Draft`, `StmtDraft` — whole drafts, with `Draft.build` and `StmtDraft.build`.

## Design notes

* **A defect inside a part comes before its absence:** a part is an `Operand`, either built, absent
  or defective, and a node asks for its parts from left to right.
* The name of an assignment is looked at before its value.
-/

namespace StraightLine

namespace Construction

/-- The kinds of node that have parts or a name. -/
inductive Node where
  | operator (op : Operator)
  | variable
  | assignment
  | ret
  deriving DecidableEq, Repr

/-- The name of a kind of node. -/
def Node.name : Node → String
  | .operator op => op.name
  | .variable => "variable"
  | .assignment => "assignment"
  | .ret => "return"

/-- The places of a part in its node. -/
inductive Place where
  | left
  | right
  | value
  deriving DecidableEq, Repr

/-- The name of a place. -/
def Place.name : Place → String
  | .left => "left"
  | .right => "right"
  | .value => "value"

/-- What can be wrong with a construction.  Both kinds name the node that they
were found at, and a missing part also names its place. -/
inductive Defect where
  /-- A node lacks the part at a place. -/
  | missingOperand (node : Node) (place : Place)
  /-- A variable or the target of an assignment has the empty name. -/
  | emptyIdentifier (node : Node)
  deriving DecidableEq, Repr

/-- The text of a defect. -/
def Defect.message : Defect → String
  | .missingOperand node place =>
    node.name ++ " is missing its " ++ place.name ++ " operand"
  | .emptyIdentifier node => node.name ++ " requires a non-empty identifier"

/-- A part of a node: built, absent, or defective. -/
abbrev Operand := Except Defect (Option Expr)

/-- The part at a place, which must not be absent.  A part that is defective
itself keeps its own defect. -/
def require (node : Node) (place : Place) : Operand → Except Defect Expr
  | .error d => .error d
  | .ok (some e) => .ok e
  | .ok none => .error (.missingOperand node place)

/-- A read of a variable, whose name must not be empty. -/
def reference (name : String) : Except Defect Expr :=
  if name.isEmpty then .error (.emptyIdentifier .variable) else .ok (.variable name)

/-- A binary operation. -/
def binary (op : Operator) (left right : Operand) : Except Defect Expr :=
  match require (.operator op) .left left with
  | .error d => .error d
  | .ok l =>
    match require (.operator op) .right right with
    | .error d => .error d
    | .ok r => .ok (.binary op l r)

/-- An assignment.  The target is checked before the value is looked at, so an
empty target hides whatever is wrong with the value. -/
def assign (target : String) (value : Operand) : Except Defect Stmt :=
  if target.isEmpty then .error (.emptyIdentifier .assignment)
  else
    match require .assignment .value value with
    | .error d => .error d
    | .ok e => .ok (.assign target e)

/-- A return. -/
def ret (value : Operand) : Except Defect Stmt :=
  match require .ret .value value with
  | .error d => .error d
  | .ok e => .ok (.ret e)

end Construction

open Construction

/-- An expression under construction. -/
inductive Draft where
  | absent
  | literal (value : Value)
  | variable (name : String)
  | binary (op : Operator) (left right : Draft)
  deriving DecidableEq, Inhabited

/-- Builds a part: its expression, nothing if it is absent, or its first defect.
That a part is absent is no defect of the part; the node around it makes one of
it. -/
def Draft.build : Draft → Operand
  | .absent => .ok none
  | .literal value => .ok (some (.literal value))
  | .variable name => (reference name).map some
  | .binary op left right => (Construction.binary op left.build right.build).map some

/-- A statement under construction. -/
inductive StmtDraft where
  | assign (target : String) (value : Draft)
  | ret (value : Draft)
  | block (body : List StmtDraft)
  deriving Inhabited

namespace StmtDraft

mutual

/-- Builds a statement, or finds its first defect. -/
def build : StmtDraft → Except Defect Stmt
  | .assign target value => Construction.assign target value.build
  | .ret value => Construction.ret value.build
  | .block body => (buildAll body).map .block

/-- Builds the statements of a block up to the first defect. -/
def buildAll : List StmtDraft → Except Defect (List Stmt)
  | [] => .ok []
  | s :: rest =>
    match s.build with
    | .error d => .error d
    | .ok s => (buildAll rest).map (s :: ·)

end

end StmtDraft

end StraightLine
