import StraightLine.Text.Mismatch

/-!
# Problems in saved programs

Why a text is not a saved program.  A problem belongs to one of three categories: the text ends too
early, it is not JSON, or it is JSON of the wrong shape.
-/

namespace StraightLine.Saved

/-- The kinds of problem.  They are what a caller can act on: a text that ends
too early may be completed, one that is malformed may not, and data of the wrong
shape is at least JSON. -/
inductive Category where
  | data
  | malformed
  | endOfText
  deriving DecidableEq, Repr

/-- The shapes that a value of a program can have to have.  They only serve the
messages; which shape is expected where is decided by the readers. -/
inductive Shape where
  | sequence
  | assignment
  | binary
  | string
  | unit
  deriving DecidableEq, Repr

/-- The description of a shape. -/
def Shape.text : Shape → String
  | .sequence => "a sequence"
  | .assignment => "struct Assignment"
  | .binary => "struct Binary"
  | .string => "a string"
  | .unit => "unit"

/-- What is wrong with a text. -/
inductive Problem where
  | endInList
  | endInObject
  | endInString
  | endInValue
  | expectedColon
  | expectedListCommaOrEnd
  | expectedObjectCommaOrEnd
  | expectedWord
  | expectedValue
  | invalidEscape
  | invalidNumber
  | numberOutOfRange
  | controlCharacter
  | keyMustBeString
  | loneSurrogate
  | unpairedSurrogate
  | trailingComma
  | trailingCharacters
  | tooDeep
  | invalidType (found : Found) (expected : Shape)
  | unknownVariant (word : String) (known : List String)
  | bareVariant
  | duplicateField (name : String)
  | missingField (name : String)
  | invalidLength (length : Nat) (expected : Shape) (size : Nat)
  | emptyName
  | notANumber
  deriving DecidableEq

namespace Problem

/-- The category of a problem.  Only the four problems of a text that ends are
in the category of an end; a text that ends inside a word or number is one of
them as well. -/
def category : Problem → Category
  | .endInList | .endInObject | .endInString | .endInValue => .endOfText
  | .expectedColon | .expectedListCommaOrEnd | .expectedObjectCommaOrEnd | .expectedWord
  | .expectedValue | .invalidEscape | .invalidNumber | .numberOutOfRange | .controlCharacter
  | .keyMustBeString | .loneSurrogate | .unpairedSurrogate | .trailingComma | .trailingCharacters
  | .tooDeep => .malformed
  | .invalidType .. | .unknownVariant .. | .bareVariant | .duplicateField _ | .missingField _
  | .invalidLength .. | .emptyName | .notANumber => .data

/-- The text of a problem.  Places are left out: no message says where in the
text the problem is. -/
def message : Problem → String
  | .endInList => "EOF while parsing a list"
  | .endInObject => "EOF while parsing an object"
  | .endInString => "EOF while parsing a string"
  | .endInValue => "EOF while parsing a value"
  | .expectedColon => "expected `:`"
  | .expectedListCommaOrEnd => "expected `,` or `]`"
  | .expectedObjectCommaOrEnd => "expected `,` or `\x7d`"
  | .expectedWord => "expected ident"
  | .expectedValue => "expected value"
  | .invalidEscape => "invalid escape"
  | .invalidNumber => "invalid number"
  | .numberOutOfRange => "number out of range"
  | .controlCharacter => "control character (\\u0000-\\u001F) found while parsing a string"
  | .keyMustBeString => "key must be a string"
  | .loneSurrogate => "lone leading surrogate in hex escape"
  | .unpairedSurrogate => "unexpected end of hex escape"
  | .trailingComma => "trailing comma"
  | .trailingCharacters => "trailing characters"
  | .tooDeep => "recursion limit exceeded"
  | .invalidType found expected => invalidTypeText .json found expected.text
  | .unknownVariant word known => unknownVariantText word known
  | .bareVariant => "invalid type: unit variant, expected newtype variant"
  | .duplicateField name => "duplicate field `" ++ name ++ "`"
  | .missingField name => "missing field `" ++ name ++ "`"
  | .invalidLength length expected size =>
    "invalid length " ++ toString length ++ ", expected " ++ expected.text ++ " with " ++
      toString size ++ " elements"
  | .emptyName => "variable requires a non-empty identifier"
  | .notANumber => "data did not match any variant of untagged enum Value"

end Problem

end StraightLine.Saved
