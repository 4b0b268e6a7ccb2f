import StraightLine.Proofs.Grammar

/-!
# The form of saved programs

Which JSON values stand for which programs, said without a reader.

## Main definitions

* `OneField`, `RecordOf` — objects with one member, whose key tells the kind of content, and records
  in their two spellings.
* `LiteralOf`, `OperatorOf`, `ExprOf`, `StmtOf`, `BodyOf` — the form of the parts.
* `SpellsProgram` — the texts of programs.

## Design notes

* **Levels count the brackets that may still be opened.**  A relation with a number of levels holds
  only where the read brackets and braces inside one another are at most that many.  What stands
  under an unknown key of a record is not looked at, and its brackets do not count.
* **A record may hold anything besides its fields,** but each field only once, and no key may be
  half of a character.
-/

namespace StraightLine

namespace Numeral

/-- The integer that the digits before the point spell with the sign. -/
def signed (n : Numeral) : Int :=
  if n.negative then -(ofDigits n.whole : Int) else ofDigits n.whole

/-- Written without fraction and exponent, and not as minus zero. -/
def IsInteger (n : Numeral) : Prop :=
  n.fraction = none ∧ n.exponent = none ∧ ¬ (n.negative = true ∧ ofDigits n.whole = 0)

instance (n : Numeral) : Decidable n.IsInteger :=
  inferInstanceAs (Decidable (_ ∧ _ ∧ ¬ (_ ∧ _)))

/-- The binary64 number of a numeral, none if it is out of range: an integer
without sign of 64 bits is rounded as a whole, any other numeral goes by its
significand.  The reader goes one way or the other by the spelling, so the form
of a literal says which. -/
def rounded? (n : Numeral) : Option Float :=
  if n.IsInteger ∧ n.negative = false ∧ ofDigits n.whole < UInt64.size then
    some (ofDigits n.whole).toUInt64.toFloat
  else n.float?

end Numeral

namespace Saved

/-! ### Scalars -/

/-- A name is a string literal that stands for a string which is not empty.  How
it is escaped does not matter, and it has to stand for a string: half a
surrogate pair makes no name. -/
inductive NameOf : Tree → String → Prop where
  | string {ps : List Piece} {name : String} :
      text? ps = some name → name ≠ "" → NameOf (.string ps) name

/-- A literal is a number: a machine integer if it is written as an integer and
fits, else a binary64 number in range.  So the kind of a literal is decided by
how it is written and, for integers, by its size. -/
inductive LiteralOf : Tree → Value → Prop where
  | int {n : Numeral} {w : Int64} :
      n.IsInteger → w.toInt = n.signed → LiteralOf (.number n) (.int w)
  | float {n : Numeral} {x : Float} :
      (n.IsInteger → ∀ w : Int64, w.toInt ≠ n.signed) → n.rounded? = some x →
      LiteralOf (.number n) (.float x)

/-! ### Objects and records -/

/-- An object with one member, whose key is `name`.  Expressions and statements
say in this way what they are. -/
inductive OneField (name : String) : Tree → Tree → Prop where
  | object {key : List Piece} {value : Tree} :
      text? key = some name → OneField name (.object [(key, value)]) value

/-- The values that an object has under a key.  Keys are compared as strings and
not as they are spelled, so an escape in a key makes no difference. -/
def valuesOf (name : String) (members : List (List Piece × Tree)) : List Tree :=
  members.filterMap fun m => if text? m.1 = some name then some m.2 else none

/-- A record with the given fields: an array of their values in order, or an
object that has each field once, among other members.

The object may have its fields in any order.  What stands under another key is
any value at all, but its key must be a string, since it is compared with the
names before it is passed over. -/
inductive RecordOf (names : List String) : Tree → List Tree → Prop where
  | array {values : List Tree} :
      values.length = names.length → RecordOf names (.array values) values
  | object {members : List (List Piece × Tree)} {values : List Tree} :
      (∀ m ∈ members, (text? m.1).isSome) →
      names.map (valuesOf · members) = values.map ([·]) →
      RecordOf names (.object members) values

/-! ### Expressions -/

/-- An operator is its name, or an object that gives `null` to its name. -/
inductive OperatorOf : Nat → Tree → Operator → Prop where
  | bare {levels : Nat} {ps : List Piece} {op : Operator} :
      text? ps = some op.name → OperatorOf levels (.string ps) op
  | object {levels : Nat} {j : Tree} {op : Operator} :
      OneField op.name j .null → OperatorOf (levels + 1) j op

/-- The form of an expression.  Every bracket that is opened takes a level: an
object with one field takes one, and a record inside it a second one. -/
inductive ExprOf : Nat → Tree → Expr → Prop where
  | literal {levels : Nat} {j j₁ : Tree} {value : Value} :
      OneField "literal" j j₁ → LiteralOf j₁ value → ExprOf (levels + 1) j (.literal value)
  | variable {levels : Nat} {j j₁ : Tree} {name : String} :
      OneField "variable" j j₁ → NameOf j₁ name → ExprOf (levels + 1) j (.variable name)
  | binary {levels : Nat} {j j₁ o l r : Tree} {op : Operator} {left right : Expr} :
      OneField "binary" j j₁ → RecordOf ["op", "left", "right"] j₁ [o, l, r] →
      OperatorOf levels o op → ExprOf levels l left → ExprOf levels r right →
      ExprOf (levels + 2) j (.binary op left right)

/-! ### Statements -/

mutual

/-- The form of a statement.  An assignment is a record in an object with one
field, like a binary operation; a return and a block have their content right in
the object. -/
inductive StmtOf : Nat → Tree → Stmt → Prop where
  | assign {levels : Nat} {j j₁ t v : Tree} {target : String} {value : Expr} :
      OneField "assignment" j j₁ → RecordOf ["target", "value"] j₁ [t, v] →
      NameOf t target → ExprOf levels v value → StmtOf (levels + 2) j (.assign target value)
  | ret {levels : Nat} {j j₁ : Tree} {value : Expr} :
      OneField "return" j j₁ → ExprOf levels j₁ value → StmtOf (levels + 1) j (.ret value)
  | block {levels : Nat} {j j₁ : Tree} {body : List Stmt} :
      OneField "block" j j₁ → BodyOf levels j₁ body → StmtOf (levels + 1) j (.block body)

/-- The form of the statements of a block. -/
inductive BodyOf : Nat → Tree → List Stmt → Prop where
  | array {levels : Nat} {items : List Tree} {body : List Stmt} :
      StmtsOf levels items body → BodyOf (levels + 1) (.array items) body

/-- The forms of statements one after the other. -/
inductive StmtsOf : Nat → List Tree → List Stmt → Prop where
  | nil {levels : Nat} : StmtsOf levels [] []
  | cons {levels : Nat} {j : Tree} {js : List Tree} {s : Stmt} {body : List Stmt} :
      StmtOf levels j s → StmtsOf levels js body → StmtsOf levels (j :: js) (s :: body)

end

/-! ### Programs -/

/-- A text spells a program: it is the array of the statements of a block, with at most 127 counted
brackets open at once and nothing but blanks around it. -/
inductive SpellsProgram : String → Stmt → Prop where
  | block {text : String} {j : Tree} {rest : List Char} {body : List Stmt} :
      Spells j text.toList rest → Blanks rest [] → BodyOf 127 j body →
      SpellsProgram text (.block body)

end Saved

end StraightLine
