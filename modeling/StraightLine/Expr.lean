import StraightLine.Operator
import StraightLine.Value

/-!
# Expressions

Literals, variables and binary operators.  Names are plain strings; that none is empty is a property
(`Expr.Named`) which the reader and the constructors establish, so it can be stated of them.
-/

namespace StraightLine

/-- An expression. -/
inductive Expr where
  | literal (value : Value)
  | variable (name : String)
  | binary (op : Operator) (left right : Expr)
  deriving DecidableEq, Inhabited

namespace Expr

/-- The variable reads of an expression, left to right, repeats kept.  It is the
order in which they are evaluated and checked. -/
def reads : Expr → List String
  | .literal _ => []
  | .variable name => [name]
  | .binary _ left right => left.reads ++ right.reads

@[simp] theorem reads_literal (v : Value) : (Expr.literal v).reads = [] := rfl

@[simp] theorem reads_variable (name : String) : (Expr.variable name).reads = [name] := rfl

@[simp] theorem reads_binary (op : Operator) (l r : Expr) :
    (Expr.binary op l r).reads = l.reads ++ r.reads := rfl

/-- The literals of an expression, left to right. -/
def literals : Expr → List Value
  | .literal value => [value]
  | .variable _ => []
  | .binary _ left right => left.literals ++ right.literals

@[simp] theorem literals_literal (v : Value) : (Expr.literal v).literals = [v] := rfl

@[simp] theorem literals_variable (name : String) : (Expr.variable name).literals = [] := rfl

@[simp] theorem literals_binary (op : Operator) (l r : Expr) :
    (Expr.binary op l r).literals = l.literals ++ r.literals := rfl

/-- No variable has an empty name. -/
def Named (e : Expr) : Prop := ∀ name ∈ e.reads, name ≠ ""

/-- Same shape, operators and names, and literals that agree as numbers.  Two
zeros of different sign agree, and not-a-number does not agree with itself, so
this is coarser than equality in one place and finer in another. -/
def agrees : Expr → Expr → Bool
  | .literal a, .literal b => a.agrees b
  | .variable a, .variable b => a == b
  | .binary op l r, .binary op' l' r' => op == op' && l.agrees l' && r.agrees r'
  | _, _ => false

end Expr

end StraightLine
