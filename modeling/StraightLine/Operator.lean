/-!
# Operators

The seven binary operators, each with the word that names it in saved programs and the symbol that
stands for it in source text.
-/

namespace StraightLine

/-- The binary operators.  `/` divides as floating-point numbers, `//` rounds the quotient down. -/
inductive Operator where
  | plus
  | minus
  | times
  | floatDiv
  | intDiv
  | modulus
  | exponentiation
  deriving DecidableEq, Repr, Inhabited

namespace Operator

/-- Every operator, in the order in which messages list them. -/
def all : List Operator :=
  [.plus, .minus, .times, .floatDiv, .intDiv, .modulus, .exponentiation]

theorem mem_all (op : Operator) : op ∈ all := by cases op <;> decide

/-- The word for an operator, as it stands in saved programs and in messages
about constructions.  The symbol is for source text and evaluation errors. -/
def name : Operator → String
  | .plus => "plus"
  | .minus => "minus"
  | .times => "times"
  | .floatDiv => "float_div"
  | .intDiv => "int_div"
  | .modulus => "modulus"
  | .exponentiation => "exponentiation"

/-- The symbol of an operator. -/
def symbol : Operator → String
  | .plus => "+"
  | .minus => "-"
  | .times => "*"
  | .floatDiv => "/"
  | .intDiv => "//"
  | .modulus => "%"
  | .exponentiation => "**"

/-- The operator that a word names.  It is looked for among all operators by
`name`, so the words are written down once. -/
def ofName? (word : String) : Option Operator :=
  all.find? (·.name == word)

theorem ofName?_name (op : Operator) : ofName? op.name = some op := by cases op <;> decide

theorem eq_name_of_ofName? {word : String} {op : Operator} (h : ofName? word = some op) :
    word = op.name := by
  have := List.find?_some h
  exact (by simpa using this : op.name = word).symm

/-- The operators that refuse a zero divisor.  Both arithmetics ask this before
anything else. -/
def divides : Operator → Bool
  | .floatDiv | .intDiv | .modulus => true
  | _ => false

end Operator

end StraightLine
