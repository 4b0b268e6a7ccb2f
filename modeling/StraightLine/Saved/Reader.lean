import StraightLine.Saved.Skip
import StraightLine.Number.Word
import StraightLine.Stmt

/-!
# Saved programs: reading

A saved program is a JSON array of statements.  It is read in one pass from left to right, and the
first problem in the text is the one reported, be it a fault of the JSON or a value of the wrong
shape.

## Main definitions

* `Saved.readLiteral`, `Saved.readExpr`, `Saved.readStmt` — the readers of the parts.
* `Saved.readStmtText`, `Saved.readExprText` — a single statement or expression as a whole text.
* `Saved.read` — a program.

## Design notes

* **One-field objects choose their content.**  A statement or an expression is an object with one
  field, whose key names the kind; an operator may also be written as its bare name.
* **Records have two spellings:** an object with the fields in any order and unknown fields besides,
  or an array with exactly the fields in their order.
* **The nesting limit is the recursion.**  Each brace or bracket that is opened uses up one of the
  `nestingLimit` levels, and the readers are structurally recursive on what is left.
-/

namespace StraightLine.Saved

/-- How many braces and brackets can be open at once.  The outermost bracket,
that of the program, counts. -/
def nestingLimit : Nat := 127

/-- The problem of a value of the wrong shape.  A scalar is read first, which
can fail by itself; then the fault of the scalar is the first in the text and
the one reported.  Lists and objects are named by their kind and not looked
into. -/
def mismatch (expected : Shape) (s : List Char) : Problem :=
  let report {α : Type} (describe : α → Found) : Except Problem (α × List Char) → Problem
    | .error e => e
    | .ok (a, _) => .invalidType (describe a) expected
  let number : ReadNumber → Found
    | .integer n => .integer n
    | .float x => .float x
  match s with
  | 'n' :: s => report (fun _ => .null) (readWord ['u', 'l', 'l'] s)
  | 't' :: s => report (fun _ => .boolean true) (readWord ['r', 'u', 'e'] s)
  | 'f' :: s => report (fun _ => .boolean false) (readWord ['a', 'l', 's', 'e'] s)
  | '"' :: s => report .string (readString s)
  | '[' :: _ => .invalidType .sequence expected
  | '\x7b' :: _ => .invalidType .map expected
  | '-' :: s => report number (readNumber true s)
  | c :: s =>
    if (digit? c).isSome then report number (readNumber false (c :: s)) else .expectedValue
  | [] => .endInValue

/-! ### Scalars -/

/-- A string value. -/
def readStringValue : Reader String := fun s =>
  match skipBlanks s with
  | [] => .error .endInValue
  | '"' :: s => readString s
  | s => .error (mismatch .string s)

/-- A name: a string that is not empty.  Any other text is a name, blanks and
line ends included. -/
def readName : Reader String := fun s =>
  match readStringValue s with
  | .error e => .error e
  | .ok (name, s) => if name.isEmpty then .error .emptyName else .ok (name, s)

/-- The value `null`. -/
def readNull : Reader Unit := fun s =>
  match skipBlanks s with
  | [] => .error .endInValue
  | 'n' :: s => readWord ['u', 'l', 'l'] s
  | s => .error (mismatch .unit s)

/-- A JSON value of any kind at a given number of levels; the result is its
number, if it is one.  Here objects and lists are walked through before they are
refused, so a fault inside of them comes before their being no number. -/
def readAny : Nat → Reader (Option ReadNumber)
  | levels, s =>
    match skipBlanks s with
    | [] => .error .endInValue
    | 'n' :: s => (readWord ['u', 'l', 'l'] s).map fun (_, s) => (none, s)
    | 't' :: s => (readWord ['r', 'u', 'e'] s).map fun (_, s) => (none, s)
    | 'f' :: s => (readWord ['a', 'l', 's', 'e'] s).map fun (_, s) => (none, s)
    | '"' :: s => (readString s).map fun (_, s) => (none, s)
    | '-' :: s => (readNumber true s).map fun (n, s) => (some n, s)
    | '[' :: s =>
      match levels with
      | 0 => .error .tooDeep
      | levels + 1 => (items (readAny levels) s).map fun (_, s) => (none, s)
    | '\x7b' :: s =>
      match levels with
      | 0 => .error .tooDeep
      | levels + 1 =>
        let field (_ : Unit) (_ : String) (s : List Char) : Except Problem (Unit × List Char) :=
          match readColon s with
          | .error e => .error e
          | .ok s => (readAny levels s).map fun (_, s) => ((), s)
        (fields field () s).map fun (_, s) => (none, s)
    | c :: s =>
      if (digit? c).isSome then (readNumber false (c :: s)).map fun (n, s) => (some n, s)
      else .error .expectedValue

/-- The value of a number: an integer that fits a machine integer stays one.  A
greater one is still below the bound of unsigned words, and becomes the floating
number nearest to it. -/
def toValue : ReadNumber → Value
  | .integer n =>
    match Word.ofInt? n with
    | some n => .int n
    | none => .float n.toNat.toUInt64.toFloat
  | .float x => .float x

/-- A literal: any JSON value is read, and then it has to be a number. -/
def readLiteral (levels : Nat) : Reader Value := fun s =>
  match readAny levels s with
  | .error e => .error e
  | .ok (some n, s) => .ok (toValue n, s)
  | .ok (none, _) => .error .notANumber

/-! ### One-field objects -/

/-- The rest of a one-field object after its content: the closing brace. -/
def closeVariant (s : List Char) : Except Problem (List Char) :=
  match skipBlanks s with
  | [] => .error .endInObject
  | '\x7d' :: rest => .ok rest
  | _ => .error .expectedValue

/-- The key of a one-field object after its opening brace, which has to be one of `known`, and the
colon. -/
def readVariant (known : List String) : Reader String := fun s =>
  match skipBlanks s with
  | [] => .error .endInObject
  | '"' :: s =>
    match readString s with
    | .error e => .error e
    | .ok (key, s) =>
      if known.contains key then (readColon s).map fun s => (key, s)
      else .error (.unknownVariant key known)
  | '\x7d' :: _ => .error .expectedValue
  | _ => .error .keyMustBeString

/-- A value that is written as a one-field object, or as the bare name of a
kind.  `content` reads what stands under a key; it is absent where no level is
left for the object.  The key decides before the content is looked at, so an
unknown key is reported whatever follows it, and a second field is a fault of
the closing brace. -/
def readTagged {α : Type} (known : List String) (bare : String → Except Problem α)
    (content : Option (String → Reader α)) : Reader α := fun s =>
  match skipBlanks s with
  | [] => .error .endInValue
  | '"' :: s =>
    match readString s with
    | .error e => .error e
    | .ok (name, s) =>
      if known.contains name then (bare name).map fun a => (a, s)
      else .error (.unknownVariant name known)
  | '\x7b' :: s =>
    match content with
    | none => .error .tooDeep
    | some content =>
      match readVariant known s with
      | .error e => .error e
      | .ok (key, s) =>
        match content key s with
        | .error e => .error e
        | .ok (a, s) => (closeVariant s).map fun s => (a, s)
  | _ => .error .expectedValue

/-- The names of the operators. -/
def operatorNames : List String := Operator.all.map Operator.name

/-- An operator: its name, or an object that gives the value `null` to its name. -/
def readOperator (levels : Nat) : Reader Operator :=
  let named (name : String) : Except Problem Operator :=
    match Operator.ofName? name with
    | some op => .ok op
    | none => .error (.unknownVariant name operatorNames)
  let content (name : String) : Reader Operator := fun s =>
    match readNull s with
    | .error e => .error e
    | .ok (_, s) => (named name).map fun op => (op, s)
  readTagged operatorNames named (if levels = 0 then none else some content)

/-! ### Records -/

/-- A value under a key, or the problem that the key came before.  The
repetition is reported at the key, before its colon and its value are looked at. -/
def readField {α : Type} (name : String) (seen : Option α) (value : Reader α) : Reader α := fun s =>
  match seen with
  | some _ => .error (.duplicateField name)
  | none =>
    match readColon s with
    | .error e => .error e
    | .ok s => value s

/-- A field that has no meaning, which is read over. -/
def skipUnknown (s : List Char) : Except Problem (List Char) :=
  match readColon s with
  | .error e => .error e
  | .ok s => skipValue s

/-- One item of a record written as an array; `length` items have come before.
A list that closes too early is of the wrong length, with a count of what it
has. -/
def readItem {α : Type} (shape : Shape) (size length : Nat) (value : Reader α) : Reader α :=
  fun s =>
    match nextItem (length == 0) s with
    | .error e => .error e
    | .ok (.closed _) => .error (.invalidLength length shape size)
    | .ok (.more s) => value s

/-- A record: what stands after the opening bracket, or after the opening brace.
Both are absent where no level is left.  In that case the bracket itself is one
too many, whatever it opens; a value of another kind is still a mismatch. -/
def readRecord {α : Type} (shape : Shape) (readers : Option (Reader α × Reader α)) : Reader α :=
  fun s =>
    match skipBlanks s with
    | [] => .error .endInValue
    | '[' :: s =>
      match readers with
      | none => .error .tooDeep
      | some (fromArray, _) => fromArray s
    | '\x7b' :: s =>
      match readers with
      | none => .error .tooDeep
      | some (_, fromObject) => fromObject s
    | s => .error (mismatch shape s)

/-- The value of a field that has to be there. -/
def requireField {α : Type} (name : String) : Option α → Except Problem α
  | some a => .ok a
  | none => .error (.missingField name)

/-! ### Expressions -/

/-- The names of the kinds of expression. -/
def exprKinds : List String := ["literal", "variable", "binary"]

/-- The fields of a binary operation found so far.  None is required before the
closing brace, where missing ones are reported in the order of this structure. -/
structure BinaryFields where
  op : Option Operator
  left : Option Expr
  right : Option Expr

/-- The fields of a binary operation; `operator` and `operand` read their values. -/
def readBinaryFields (operator : Reader Operator) (operand : Reader Expr) : Reader Expr := fun s =>
  let field (found : BinaryFields) (key : String) (s : List Char) :
      Except Problem (BinaryFields × List Char) :=
    match key with
    | "op" => (readField key found.op operator s).map fun (a, s) => ({ found with op := some a }, s)
    | "left" =>
      (readField key found.left operand s).map fun (a, s) => ({ found with left := some a }, s)
    | "right" =>
      (readField key found.right operand s).map fun (a, s) => ({ found with right := some a }, s)
    | _ => (skipUnknown s).map fun s => (found, s)
  match fields field ⟨none, none, none⟩ s with
  | .error e => .error e
  | .ok (found, s) => do
    let op ← requireField "op" found.op
    let left ← requireField "left" found.left
    let right ← requireField "right" found.right
    return (.binary op left right, s)

/-- The items of a binary operation written as an array. -/
def readBinaryItems (operator : Reader Operator) (operand : Reader Expr) : Reader Expr :=
  fun s => do
    let (op, s) ← readItem .binary 3 0 operator s
    let (left, s) ← readItem .binary 3 1 operand s
    let (right, s) ← readItem .binary 3 2 operand s
    let s ← closeList s
    return (.binary op left right, s)

mutual

/-- An expression.  The brace of the object takes one level, so a literal or a
name is read with one level less and an operation, which has a record inside,
needs two for itself. -/
def readExpr : Nat → Reader Expr
  | 0 => readTagged exprKinds (fun _ => .error .bareVariant) none
  | levels + 1 =>
    let content (kind : String) : Reader Expr := fun s =>
      match kind with
      | "literal" => (readLiteral levels s).map fun (v, s) => (.literal v, s)
      | "variable" => (readName s).map fun (name, s) => (.variable name, s)
      | _ => readBinary levels s
    readTagged exprKinds (fun _ => .error .bareVariant) (some content)

/-- The content of a binary operation. -/
def readBinary : Nat → Reader Expr
  | 0 => readRecord .binary none
  | levels + 1 =>
    let operand : Reader Expr := readExpr levels
    readRecord .binary
      (some (readBinaryItems (readOperator levels) operand,
        readBinaryFields (readOperator levels) operand))

end

/-! ### Statements -/

/-- The names of the kinds of statement. -/
def stmtKinds : List String := ["assignment", "return", "block"]

/-- The fields of an assignment found so far. -/
structure AssignmentFields where
  target : Option String
  value : Option Expr

/-- The fields of an assignment. -/
def readAssignmentFields (value : Reader Expr) : Reader Action := fun s =>
  let field (found : AssignmentFields) (key : String) (s : List Char) :
      Except Problem (AssignmentFields × List Char) :=
    match key with
    | "target" =>
      (readField key found.target readName s).map fun (a, s) => ({ found with target := some a }, s)
    | "value" =>
      (readField key found.value value s).map fun (a, s) => ({ found with value := some a }, s)
    | _ => (skipUnknown s).map fun s => (found, s)
  match fields field ⟨none, none⟩ s with
  | .error e => .error e
  | .ok (found, s) => do
    let target ← requireField "target" found.target
    let value ← requireField "value" found.value
    return (.assign target value, s)

/-- The items of an assignment written as an array. -/
def readAssignmentItems (value : Reader Expr) : Reader Action := fun s => do
  let (target, s) ← readItem .assignment 2 0 readName s
  let (value, s) ← readItem .assignment 2 1 value s
  let s ← closeList s
  return (.assign target value, s)

/-- The content of an assignment. -/
def readAssignment : Nat → Reader Action
  | 0 => readRecord .assignment none
  | levels + 1 =>
    readRecord .assignment
      (some (readAssignmentItems (readExpr levels), readAssignmentFields (readExpr levels)))

/-- A list of values; `item` reads one of them and is absent where no level is left. -/
def readList {α : Type} (item : Option (Reader α)) : Reader (List α) := fun s =>
  match skipBlanks s with
  | [] => .error .endInValue
  | '[' :: s =>
    match item with
    | none => .error .tooDeep
    | some item => items item s
  | s => .error (mismatch .sequence s)

mutual

/-- A statement.  One brace is taken by its object and, for a block, one bracket
by its list; the readers of statements and bodies call each other with one level
less each, which is all that makes them total. -/
def readStmt : Nat → Reader Stmt
  | 0 => readTagged stmtKinds (fun _ => .error .bareVariant) none
  | levels + 1 =>
    let content (kind : String) : Reader Stmt := fun s =>
      match kind with
      | "assignment" => (readAssignment levels s).map fun (a, s) => (.action a, s)
      | "return" => (readExpr levels s).map fun (e, s) => (.ret e, s)
      | _ => (readBody levels s).map fun (body, s) => (.block body, s)
    readTagged stmtKinds (fun _ => .error .bareVariant) (some content)

/-- The list of statements of a block. -/
def readBody : Nat → Reader (List Stmt)
  | 0 => readList none
  | levels + 1 =>
    let item : Reader Stmt := readStmt levels
    readList (some item)

end

/-! ### Whole texts -/

/-- A text that holds one value and nothing but blanks after it.  Blanks in
front are the business of the reader. -/
def whole {α : Type} (reader : Reader α) (text : String) : Except Problem α :=
  match reader text.toList with
  | .error e => .error e
  | .ok (a, rest) => if (skipBlanks rest).isEmpty then .ok a else .error .trailingCharacters

/-- A text is read by way of its characters.  Whoever has them once need not take them out of the
text again. -/
theorem whole_eq_ok {α : Type} {reader : Reader α} {text : String} {chars rest : List Char} {a : α}
    (hchars : text.toList = chars) (hread : reader chars = .ok (a, rest))
    (hrest : skipBlanks rest = []) : whole reader text = .ok a := by
  rw [whole, hchars, hread]
  simp only [hrest, List.isEmpty_nil, if_true]

/-- The expression that a text holds. -/
def readExprText (text : String) : Except Problem Expr := whole (readExpr nestingLimit) text

/-- The statement that a text holds. -/
def readStmtText (text : String) : Except Problem Stmt := whole (readStmt nestingLimit) text

/-- The program that a text holds: always a block.  A text that starts with
anything but a bracket is no program, even if it holds a single statement. -/
def read (text : String) : Except Problem Stmt := (whole (readBody nestingLimit) text).map .block

end StraightLine.Saved
