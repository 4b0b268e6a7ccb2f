import StraightLine.Proofs.Reading

/-!
# The texts that are read as programs

The reader of saved programs takes exactly the texts that spell a program, and returns that program.

## Main statements

* `reads_readExpr`, `reads_readBody` — expressions and the bodies of blocks, at every number of
  levels.
* `Reads.whole_eq_ok_iff` — whole texts.
* `read_eq_ok_iff` — programs.

## Design notes

* **The induction is on the levels.**  Every bracket that is read takes one level, so a reader at
  one level follows from the readers one level below; sound and complete go through together.
-/

namespace StraightLine.Saved

variable {s s₁ rest : List Char}

/-! ### Binary operations -/

section Binary

variable {operator : Reader Operator} {operand : Reader Expr} {Op : Tree → Operator → Prop}
  {Operand : Tree → Expr → Prop}

/-- What a member of a binary operation adds to the fields found so far.  A
field that was found before refuses a second one, whatever its value is. -/
def BinaryStep (Op : Tree → Operator → Prop) (Operand : Tree → Expr → Prop) (found : BinaryFields)
    (name : String) (j : Tree) (found' : BinaryFields) : Prop :=
  if name = "op" then found.op = none ∧ ∃ op, Op j op ∧ found' = { found with op := some op }
  else if name = "left" then
    found.left = none ∧ ∃ e, Operand j e ∧ found' = { found with left := some e }
  else if name = "right" then
    found.right = none ∧ ∃ e, Operand j e ∧ found' = { found with right := some e }
  else found' = found

/-- The fields that the members of an object fill.  The members come in any
order and mixed with others; seen field by field, each of the three is filled or
kept for itself. -/
theorem folds_binaryStep_iff {ms : List (List Piece × Tree)} {found found' : BinaryFields} :
    Folds (BinaryStep Op Operand) found ms found' ↔
      (∀ m ∈ ms, (text? m.1).isSome) ∧
        Filled Op found.op (valuesOf "op" ms) found'.op ∧
        Filled Operand found.left (valuesOf "left" ms) found'.left ∧
        Filled Operand found.right (valuesOf "right" ms) found'.right := by
  induction ms generalizing found with
  | nil =>
    constructor
    · rintro ⟨⟩
      exact ⟨by simp, .kept _, .kept _, .kept _⟩
    · obtain ⟨op, left, right⟩ := found
      obtain ⟨op', left', right'⟩ := found'
      rintro ⟨-, ⟨⟩, ⟨⟩, ⟨⟩⟩
      exact .nil _
  | cons m ms ih =>
    obtain ⟨key, j⟩ := m
    cases hkey : text? key with
    | none => exact ⟨fun h => absurd (isSome_text?_of_folds h) (not_isSome_text? hkey),
        fun h => absurd h.1 (not_isSome_text? hkey)⟩
    | some name =>
      rw [folds_cons_iff hkey]
      simp only [ih, valuesOf_cons hkey, BinaryStep, List.forall_mem_cons, hkey, Option.isSome_some,
        true_and]
      by_cases hop : name = "op"
      · subst hop
        simp only [String.reduceEq, if_true, if_false, filled_cons_iff]
        grind
      by_cases hleft : name = "left"
      · subst hleft
        simp only [String.reduceEq, if_true, if_false, filled_cons_iff]
        grind
      by_cases hright : name = "right"
      · subst hright
        simp only [String.reduceEq, if_true, if_false, filled_cons_iff]
        grind
      · simp [hop, hleft, hright]

/-- The reader of a member of a binary operation, with the readers of operator
and operands as parameters.  So the induction on levels enters through these and
the reader of the record is looked at once. -/
def binaryField (operator : Reader Operator) (operand : Reader Expr) (found : BinaryFields)
    (key : String) : Reader BinaryFields := fun s =>
  match key with
  | "op" => (readField key found.op operator s).map fun (a, s) => ({ found with op := some a }, s)
  | "left" =>
    (readField key found.left operand s).map fun (a, s) => ({ found with left := some a }, s)
  | "right" =>
    (readField key found.right operand s).map fun (a, s) => ({ found with right := some a }, s)
  | _ => (skipUnknown s).map fun s => (found, s)

theorem readsField_binaryField (hop : Reads operator Op) (hoperand : Reads operand Operand) :
    ReadsField (binaryField operator operand) (BinaryStep Op Operand) := by
  intro found key s found' rest hn
  unfold binaryField
  split
  · simp only [BinaryStep, if_true]
    exact hop.readField_map_eq_ok_iff hn fun op => { found with op := some op }
  · simp only [BinaryStep, String.reduceEq, if_true, if_false]
    exact hoperand.readField_map_eq_ok_iff hn fun e => { found with left := some e }
  · simp only [BinaryStep, String.reduceEq, if_true, if_false]
    exact hoperand.readField_map_eq_ok_iff hn fun e => { found with right := some e }
  · rename_i h₁ h₂ h₃
    simp only [BinaryStep, if_neg h₁, if_neg h₂, if_neg h₃]
    exact skipUnknown_map_eq_ok_iff hn

/-- The parts of a binary operation. -/
inductive BinaryFrom (Op : Tree → Operator → Prop) (Operand : Tree → Expr → Prop) :
    List Tree → Expr → Prop where
  | parts {o l r : Tree} {op : Operator} {left right : Expr} :
      Op o op → Operand l left → Operand r right →
      BinaryFrom Op Operand [o, l, r] (.binary op left right)

/-- The binary operation whose fields have all been found. -/
def completeBinary (found : BinaryFields) : Except Problem Expr := do
  let op ← requireField "op" found.op
  let left ← requireField "left" found.left
  let right ← requireField "right" found.right
  return .binary op left right

theorem completeBinary_eq_ok_iff {found : BinaryFields} {e : Expr} :
    completeBinary found = .ok e ↔
      ∃ op left right, found = ⟨some op, some left, some right⟩ ∧ e = .binary op left right := by
  obtain ⟨_ | op, _ | left, _ | right⟩ := found
  case some.some.some =>
    constructor
    · intro h
      cases h
      exact ⟨op, left, right, rfl, rfl⟩
    · rintro ⟨op, left, right, ⟨⟩, rfl⟩
      rfl
  all_goals
    constructor
    · intro h
      cases h
    · rintro ⟨op, left, right, ⟨⟩, -⟩

theorem readBinaryFields_eq (operator : Reader Operator) (operand : Reader Expr) (s : List Char) :
    readBinaryFields operator operand s =
      (fields (binaryField operator operand) ⟨none, none, none⟩ s).bind fun p =>
        (completeBinary p.1).map fun e => (e, p.2) := by
  unfold readBinaryFields
  extract_lets field
  have hfield : field = binaryField operator operand := rfl
  rw [hfield]
  cases fields (binaryField operator operand) ⟨none, none, none⟩ s with
  | error e => rfl
  | ok p =>
    obtain ⟨⟨_ | op, _ | left, _ | right⟩, r⟩ := p <;> rfl

theorem readBinaryFields_eq_ok_iff (hop : Reads operator Op) (hoperand : Reads operand Operand)
    {e : Expr} :
    readBinaryFields operator operand s = .ok (e, rest) ↔ ∃ ms values,
      Listed (Member Spells) '\x7d' true ms s rest ∧
        RecordOf ["op", "left", "right"] (.object ms) values ∧ BinaryFrom Op Operand values e := by
  have hfields {found : BinaryFields} {r : List Char} :
      fields (binaryField operator operand) ⟨none, none, none⟩ s = .ok (found, r) ↔ _ :=
    (readsField_binaryField hop hoperand).fields_eq_ok_iff
  simp only [folds_binaryStep_iff] at hfields
  rw [readBinaryFields_eq]
  constructor
  · intro h
    obtain ⟨⟨found, r⟩, hf, h⟩ := Except.bind_eq_ok_iff.1 h
    obtain ⟨e', he, heq⟩ := Except.map_eq_ok_iff.1 h
    obtain ⟨rfl, rfl⟩ := by simpa using heq
    obtain ⟨op, left, right, rfl, rfl⟩ := completeBinary_eq_ok_iff.1 he
    simp only [hfields, filled_none_some_iff] at hf
    obtain ⟨ms, hl, hkeys, ⟨o, hov, ho⟩, ⟨l, hlv, hleft⟩, r, hrv, hright⟩ := hf
    exact ⟨ms, [o, l, r], hl, .object hkeys (by simp [hov, hlv, hrv]), .parts ho hleft hright⟩
  · rintro ⟨ms, _, hl, hrec, @⟨o, l, r, op, left, right, ho, hleft, hright⟩⟩
    cases hrec with
    | object hkeys hvalues =>
      simp only [List.map_cons, List.map_nil, List.cons.injEq, and_true] at hvalues
      obtain ⟨hov, hlv, hrv⟩ := hvalues
      have hf : fields (binaryField operator operand) ⟨none, none, none⟩ s =
          .ok (⟨some op, some left, some right⟩, rest) :=
        hfields.2 ⟨ms, hl, hkeys, filled_none_some_iff.2 ⟨o, hov, ho⟩,
          filled_none_some_iff.2 ⟨l, hlv, hleft⟩, filled_none_some_iff.2 ⟨r, hrv, hright⟩⟩
      rw [hf]
      rfl

theorem readBinaryItems_eq_ok_iff (hop : Reads operator Op) (hoperand : Reads operand Operand)
    {e : Expr} :
    readBinaryItems operator operand s = .ok (e, rest) ↔ ∃ js values,
      Listed Spells ']' true js s rest ∧
        RecordOf ["op", "left", "right"] (.array js) values ∧ BinaryFrom Op Operand values e := by
  constructor
  · intro h
    obtain ⟨⟨op, s₁⟩, ho, h⟩ := Except.bind_eq_ok_iff.1 h
    obtain ⟨⟨left, s₂⟩, hl, h⟩ := Except.bind_eq_ok_iff.1 h
    obtain ⟨⟨right, s₃⟩, hr, h⟩ := Except.bind_eq_ok_iff.1 h
    obtain ⟨s₄, hclose, h⟩ := Except.bind_eq_ok_iff.1 h
    cases h
    -- An item stops at the punctuation behind it, so the items are settled from the last one on.
    have he := closeList_eq_ok_iff.1 hclose
    obtain ⟨t₂, jr, hb₂, hjr, hright⟩ :=
      (hoperand.readItem_next_eq_ok_iff .binary 3 1 (he.stops (by decide))).1 hr
    obtain ⟨t₁, jl, hb₁, hjl, hleft⟩ :=
      (hoperand.readItem_next_eq_ok_iff .binary 3 0 (hb₂.stops (by decide))).1 hl
    obtain ⟨jo, hjo, hop'⟩ := (hop.readItem_first_eq_ok_iff .binary 3 (hb₁.stops (by decide))).1 ho
    exact ⟨[jo, jl, jr], _,
      .first hjo (.next hb₁ hjl (.next hb₂ hjr (.closed he))), .array rfl, .parts hop' hleft hright⟩
  · rintro ⟨js, values, hl, hrec, hparts⟩
    cases hrec
    cases hparts with
    | parts hop' hleft hright =>
    cases hl with
    | first hjo hl =>
    cases hl with
    | next hb₁ hjl hl =>
    cases hl with
    | next hb₂ hjr hl =>
    cases hl with
    | closed he =>
    have ho := (hop.readItem_first_eq_ok_iff .binary 3 (hb₁.stops (by decide))).2 ⟨_, hjo, hop'⟩
    have hl := (hoperand.readItem_next_eq_ok_iff .binary 3 0 (hb₂.stops (by decide))).2
      ⟨_, _, hb₁, hjl, hleft⟩
    have hr := (hoperand.readItem_next_eq_ok_iff .binary 3 1 (he.stops (by decide))).2
      ⟨_, _, hb₂, hjr, hright⟩
    simp only [readBinaryItems, ho, hl, hr, closeList_eq_ok_iff.2 he, bind, Except.bind]
    rfl

end Binary

/-! ### Expressions -/

/-- What is read is turned into something else. -/
theorem Reads.map {α β : Type} {reader : Reader α} {Result : Tree → α → Prop}
    (h : Reads reader Result) (f : α → β) :
    Reads (fun s => (reader s).map fun (a, s) => (f a, s)) fun j b =>
      ∃ a, Result j a ∧ b = f a := by
  intro s b rest hn
  rw [Except.map_eq_ok_iff]
  constructor
  · rintro ⟨⟨a, r⟩, hr, heq⟩
    obtain ⟨rfl, rfl⟩ := by simpa using heq
    obtain ⟨j, hj, ha⟩ := (h hn).1 hr
    exact ⟨j, hj, a, ha, rfl⟩
  · rintro ⟨j, hj, a, ha, rfl⟩
    exact ⟨(a, rest), (h hn).2 ⟨j, hj, ha⟩, rfl⟩

/-- The content of a binary operation.  It is the relation between `ExprOf` at
two numbers of levels: the operands are expressions one level below. -/
def BinaryOf : Nat → Tree → Expr → Prop
  | 0, _, _ => False
  | levels + 1, j, e => ∃ values, RecordOf ["op", "left", "right"] j values ∧
      BinaryFrom (OperatorOf levels) (ExprOf levels) values e

theorem reads_readBinary_zero : Reads (readBinary 0) (BinaryOf 0) := by
  intro s e rest _
  rw [readBinary]
  constructor
  · intro h
    exact absurd h readRecord_none_ne_ok
  · rintro ⟨j, -, ⟨⟩⟩

theorem reads_readBinary_succ {levels : Nat} (h : Reads (readExpr levels) (ExprOf levels)) :
    Reads (readBinary (levels + 1)) (BinaryOf (levels + 1)) := by
  have hop := reads_readOperator levels
  rw [readBinary]
  exact reads_readRecord (readBinaryItems_eq_ok_iff hop h) (readBinaryFields_eq_ok_iff hop h)

/-- What stands under the key of an expression.  Any other key does not occur,
since the names are checked before the content is read. -/
def ContentOfExpr (levels : Nat) (kind : String) (j : Tree) (e : Expr) : Prop :=
  if kind = "literal" then ∃ value, LiteralOf j value ∧ e = .literal value
  else if kind = "variable" then ∃ name, NameOf j name ∧ e = .variable name
  else BinaryOf levels j e

/-- The reader of what stands under the key of an expression. -/
def readExprContent (levels : Nat) (kind : String) : Reader Expr := fun s =>
  match kind with
  | "literal" => (readLiteral levels s).map fun (v, s) => (.literal v, s)
  | "variable" => (readName s).map fun (name, s) => (.variable name, s)
  | _ => readBinary levels s

theorem reads_readExprContent {levels : Nat} (h : Reads (readBinary levels) (BinaryOf levels))
    (kind : String) : Reads (readExprContent levels kind) (ContentOfExpr levels kind) := by
  intro s e rest hn
  unfold readExprContent
  split
  · simp only [ContentOfExpr, if_true]
    exact (reads_readLiteral levels).map Expr.literal hn
  · simp only [ContentOfExpr, String.reduceEq, if_true, if_false]
    exact reads_readName.map Expr.variable hn
  · rename_i h₁ h₂
    simp only [ContentOfExpr, if_neg h₁, if_neg h₂]
    exact h hn

theorem readExpr_zero : readExpr 0 = readTagged exprKinds (fun _ => .error .bareVariant) none := by
  rw [readExpr]

theorem readExpr_succ (levels : Nat) :
    readExpr (levels + 1) =
      readTagged exprKinds (fun _ => .error .bareVariant) (some (readExprContent levels)) := by
  rw [readExpr]
  rfl

/-- The form of an expression, by its key and its content.  The constructors of
`ExprOf` and the cases of the reader are brought into one shape here, and
compared key by key afterwards. -/
theorem exprOf_succ_iff {levels : Nat} {j : Tree} {e : Expr} :
    ExprOf (levels + 1) j e ↔
      ∃ kind ∈ exprKinds, ∃ v, OneField kind j v ∧ ContentOfExpr levels kind v e := by
  simp only [exprKinds, List.exists_mem_cons_iff, List.not_mem_nil, false_and, exists_false,
    or_false, ContentOfExpr, String.reduceEq, if_true, if_false]
  constructor
  · intro h
    cases h with
    | literal hf hv => exact .inl ⟨_, hf, _, hv, rfl⟩
    | «variable» hf hv => exact .inr (.inl ⟨_, hf, _, hv, rfl⟩)
    | binary hf hrec ho hl hr => exact .inr (.inr ⟨_, hf, _, hrec, .parts ho hl hr⟩)
  · rintro (⟨v, hf, value, hv, rfl⟩ | ⟨v, hf, name, hv, rfl⟩ | ⟨v, hf, hbinary⟩)
    · exact .literal hf hv
    · exact .variable hf hv
    · cases levels with
      | zero => cases hbinary
      | succ levels =>
        obtain ⟨_, hrec, ⟨ho, hl, hr⟩⟩ := hbinary
        exact .binary hf hrec ho hl hr

theorem not_exprOf_zero {j : Tree} {e : Expr} : ¬ ExprOf 0 j e := by
  rintro ⟨⟩

theorem reads_readExpr_succ {levels : Nat} (h : Reads (readBinary levels) (BinaryOf levels)) :
    Reads (readExpr (levels + 1)) (ExprOf (levels + 1)) := by
  rw [readExpr_succ]
  have hcontent : ∀ c ∈ some (readExprContent levels), ∀ kind ∈ exprKinds,
      Reads (c kind) (ContentOfExpr levels kind) := by
    rintro _ ⟨⟩ kind -
    exact reads_readExprContent h kind
  refine (reads_readTagged_object hcontent).congr fun j e => ?_
  rw [exprOf_succ_iff]
  simp

/-- Expressions and the contents of binary operations are read level by level.
Neither alone is inductive: an expression has a binary operation as content one
level below, and that one has expressions as operands. -/
theorem reads_readExpr_and_readBinary (levels : Nat) :
    Reads (readExpr levels) (ExprOf levels) ∧ Reads (readBinary levels) (BinaryOf levels) := by
  induction levels with
  | zero =>
    refine ⟨?_, reads_readBinary_zero⟩
    rw [readExpr_zero]
    exact reads_readTagged_none.congr fun j e => ⟨False.elim, not_exprOf_zero⟩
  | succ levels ih => exact ⟨reads_readExpr_succ ih.2, reads_readBinary_succ ih.1⟩

theorem reads_readExpr (levels : Nat) : Reads (readExpr levels) (ExprOf levels) :=
  (reads_readExpr_and_readBinary levels).1

/-! ### Assignments -/

section Assignment

variable {value : Reader Expr} {OfValue : Tree → Expr → Prop}

/-- What a member of an assignment adds to the fields found so far, as
`BinaryStep` does for binary operations. -/
def AssignmentStep (OfValue : Tree → Expr → Prop) (found : AssignmentFields) (name : String)
    (j : Tree) (found' : AssignmentFields) : Prop :=
  if name = "target" then
    found.target = none ∧ ∃ target, NameOf j target ∧ found' = { found with target := some target }
  else if name = "value" then
    found.value = none ∧ ∃ e, OfValue j e ∧ found' = { found with value := some e }
  else found' = found

theorem folds_assignmentStep_iff {ms : List (List Piece × Tree)} {found found' : AssignmentFields} :
    Folds (AssignmentStep OfValue) found ms found' ↔
      (∀ m ∈ ms, (text? m.1).isSome) ∧
        Filled NameOf found.target (valuesOf "target" ms) found'.target ∧
        Filled OfValue found.value (valuesOf "value" ms) found'.value := by
  induction ms generalizing found with
  | nil =>
    constructor
    · rintro ⟨⟩
      exact ⟨by simp, .kept _, .kept _⟩
    · obtain ⟨target, value⟩ := found
      obtain ⟨target', value'⟩ := found'
      rintro ⟨-, ⟨⟩, ⟨⟩⟩
      exact .nil _
  | cons m ms ih =>
    obtain ⟨key, j⟩ := m
    cases hkey : text? key with
    | none => exact ⟨fun h => absurd (isSome_text?_of_folds h) (not_isSome_text? hkey),
        fun h => absurd h.1 (not_isSome_text? hkey)⟩
    | some name =>
      rw [folds_cons_iff hkey]
      simp only [ih, valuesOf_cons hkey, AssignmentStep, List.forall_mem_cons, hkey,
        Option.isSome_some, true_and]
      by_cases htarget : name = "target"
      · subst htarget
        simp only [String.reduceEq, if_true, if_false, filled_cons_iff]
        grind
      by_cases hvalue : name = "value"
      · subst hvalue
        simp only [String.reduceEq, if_true, if_false, filled_cons_iff]
        grind
      · simp [htarget, hvalue]

/-- The reader of a member of an assignment. -/
def assignmentField (value : Reader Expr) (found : AssignmentFields) (key : String) :
    Reader AssignmentFields := fun s =>
  match key with
  | "target" =>
    (readField key found.target readName s).map fun (a, s) => ({ found with target := some a }, s)
  | "value" =>
    (readField key found.value value s).map fun (a, s) => ({ found with value := some a }, s)
  | _ => (skipUnknown s).map fun s => (found, s)

theorem readsField_assignmentField (hvalue : Reads value OfValue) :
    ReadsField (assignmentField value) (AssignmentStep OfValue) := by
  intro found key s found' rest hn
  unfold assignmentField
  split
  · simp only [AssignmentStep, if_true]
    exact reads_readName.readField_map_eq_ok_iff hn fun name => { found with target := some name }
  · simp only [AssignmentStep, String.reduceEq, if_true, if_false]
    exact hvalue.readField_map_eq_ok_iff hn fun e => { found with value := some e }
  · rename_i h₁ h₂
    simp only [AssignmentStep, if_neg h₁, if_neg h₂]
    exact skipUnknown_map_eq_ok_iff hn

/-- The parts of an assignment. -/
inductive AssignmentFrom (OfValue : Tree → Expr → Prop) : List Tree → Action → Prop where
  | parts {t v : Tree} {target : String} {e : Expr} :
      NameOf t target → OfValue v e → AssignmentFrom OfValue [t, v] (.assign target e)

/-- The assignment whose fields have all been found. -/
def completeAssignment (found : AssignmentFields) : Except Problem Action := do
  let target ← requireField "target" found.target
  let value ← requireField "value" found.value
  return .assign target value

theorem completeAssignment_eq_ok_iff {found : AssignmentFields} {a : Action} :
    completeAssignment found = .ok a ↔
      ∃ target e, found = ⟨some target, some e⟩ ∧ a = .assign target e := by
  obtain ⟨_ | target, _ | e⟩ := found
  case some.some =>
    constructor
    · intro h
      cases h
      exact ⟨target, e, rfl, rfl⟩
    · rintro ⟨target, e, ⟨⟩, rfl⟩
      rfl
  all_goals
    constructor
    · intro h
      cases h
    · rintro ⟨target, e, ⟨⟩, -⟩

theorem readAssignmentFields_eq (value : Reader Expr) (s : List Char) :
    readAssignmentFields value s =
      (fields (assignmentField value) ⟨none, none⟩ s).bind fun p =>
        (completeAssignment p.1).map fun a => (a, p.2) := by
  unfold readAssignmentFields
  extract_lets field
  have hfield : field = assignmentField value := rfl
  rw [hfield]
  cases fields (assignmentField value) ⟨none, none⟩ s with
  | error e => rfl
  | ok p => obtain ⟨⟨_ | target, _ | e⟩, r⟩ := p <;> rfl

theorem readAssignmentFields_eq_ok_iff (hvalue : Reads value OfValue) {a : Action} :
    readAssignmentFields value s = .ok (a, rest) ↔ ∃ ms values,
      Listed (Member Spells) '\x7d' true ms s rest ∧
        RecordOf ["target", "value"] (.object ms) values ∧ AssignmentFrom OfValue values a := by
  have hfields {found : AssignmentFields} {r : List Char} :
      fields (assignmentField value) ⟨none, none⟩ s = .ok (found, r) ↔ _ :=
    (readsField_assignmentField hvalue).fields_eq_ok_iff
  simp only [folds_assignmentStep_iff] at hfields
  rw [readAssignmentFields_eq]
  constructor
  · intro h
    obtain ⟨⟨found, r⟩, hf, h⟩ := Except.bind_eq_ok_iff.1 h
    obtain ⟨a', ha, heq⟩ := Except.map_eq_ok_iff.1 h
    obtain ⟨rfl, rfl⟩ := by simpa using heq
    obtain ⟨target, e, rfl, rfl⟩ := completeAssignment_eq_ok_iff.1 ha
    simp only [hfields, filled_none_some_iff] at hf
    obtain ⟨ms, hl, hkeys, ⟨t, htv, htarget⟩, v, hvv, he⟩ := hf
    exact ⟨ms, [t, v], hl, .object hkeys (by simp [htv, hvv]), .parts htarget he⟩
  · rintro ⟨ms, _, hl, hrec, @⟨t, v, target, e, htarget, he⟩⟩
    cases hrec with
    | object hkeys hvalues =>
      simp only [List.map_cons, List.map_nil, List.cons.injEq, and_true] at hvalues
      obtain ⟨htv, hvv⟩ := hvalues
      have hf : fields (assignmentField value) ⟨none, none⟩ s =
          .ok (⟨some target, some e⟩, rest) :=
        hfields.2 ⟨ms, hl, hkeys, filled_none_some_iff.2 ⟨t, htv, htarget⟩,
          filled_none_some_iff.2 ⟨v, hvv, he⟩⟩
      rw [hf]
      rfl

theorem readAssignmentItems_eq_ok_iff (hvalue : Reads value OfValue) {a : Action} :
    readAssignmentItems value s = .ok (a, rest) ↔ ∃ js values,
      Listed Spells ']' true js s rest ∧
        RecordOf ["target", "value"] (.array js) values ∧ AssignmentFrom OfValue values a := by
  constructor
  · intro h
    obtain ⟨⟨target, s₁⟩, ht, h⟩ := Except.bind_eq_ok_iff.1 h
    obtain ⟨⟨e, s₂⟩, hv, h⟩ := Except.bind_eq_ok_iff.1 h
    obtain ⟨s₃, hclose, h⟩ := Except.bind_eq_ok_iff.1 h
    cases h
    have he := closeList_eq_ok_iff.1 hclose
    obtain ⟨t₁, jv, hb₁, hjv, hexpr⟩ :=
      (hvalue.readItem_next_eq_ok_iff .assignment 2 0 (he.stops (by decide))).1 hv
    obtain ⟨jt, hjt, htarget⟩ :=
      (reads_readName.readItem_first_eq_ok_iff .assignment 2 (hb₁.stops (by decide))).1 ht
    exact ⟨[jt, jv], _, .first hjt (.next hb₁ hjv (.closed he)), .array rfl, .parts htarget hexpr⟩
  · rintro ⟨js, values, hl, hrec, hparts⟩
    cases hrec
    cases hparts with
    | parts htarget hexpr =>
    cases hl with
    | first hjt hl =>
    cases hl with
    | next hb₁ hjv hl =>
    cases hl with
    | closed he =>
    have ht := (reads_readName.readItem_first_eq_ok_iff .assignment 2 (hb₁.stops (by decide))).2
      ⟨_, hjt, htarget⟩
    have hv := (hvalue.readItem_next_eq_ok_iff .assignment 2 0 (he.stops (by decide))).2
      ⟨_, _, hb₁, hjv, hexpr⟩
    simp only [readAssignmentItems, ht, hv, closeList_eq_ok_iff.2 he, bind, Except.bind]
    rfl

end Assignment

/-- The content of an assignment. -/
def AssignmentOf : Nat → Tree → Action → Prop
  | 0, _, _ => False
  | levels + 1, j, a => ∃ values, RecordOf ["target", "value"] j values ∧
      AssignmentFrom (ExprOf levels) values a

theorem reads_readAssignment (levels : Nat) :
    Reads (readAssignment levels) (AssignmentOf levels) := by
  cases levels with
  | zero =>
    intro s a rest _
    constructor
    · intro h
      exact absurd h readRecord_none_ne_ok
    · rintro ⟨j, -, ⟨⟩⟩
  | succ levels =>
    have hvalue := reads_readExpr levels
    exact reads_readRecord (readAssignmentItems_eq_ok_iff hvalue)
      (readAssignmentFields_eq_ok_iff hvalue)

/-! ### Statements -/

theorem reads_readList {α : Type} {item : Reader α} {Result : Tree → α → Prop}
    (h : Reads item Result) :
    Reads (readList (some item)) fun j as => ∃ js, j = .array js ∧ List.Forall₂ Result js as := by
  intro s as rest _
  have hb := blanks_skipBlanks s
  constructor
  · intro hr
    unfold readList at hr
    split at hr
    · cases hr
    · rename_i hs
      obtain ⟨js, hl, hjs⟩ := h.items_eq_ok_iff.1 hr
      exact ⟨_, .array (hs ▸ hb) hl, js, rfl, hjs⟩
    · cases hr
  · rintro ⟨_, hj, js, rfl, hjs⟩
    cases hj with
    | array hb hl =>
      simp only [readList, (skipBlanks_eq_cons_iff rfl).2 hb, h.items_eq_ok_iff.2 ⟨js, hl, hjs⟩]

theorem readList_none_ne_ok {α : Type} {as : List α} : readList none s ≠ .ok (as, rest) := by
  intro h
  unfold readList at h
  split at h <;> cases h

/-- Statements that stand in a row have their forms in a row.  Lists are read
for any kind of item, and give their result in this shape. -/
theorem stmtsOf_iff_forall₂ {levels : Nat} {js : List Tree} {body : List Stmt} :
    StmtsOf levels js body ↔ List.Forall₂ (StmtOf levels) js body := by
  constructor
  · intro h
    induction js generalizing body with
    | nil =>
      cases h
      exact .nil
    | cons j js ih =>
      cases h with
      | cons hs hbody => exact .cons hs (ih hbody)
  · intro h
    induction h with
    | nil => exact .nil
    | cons hs _ ih => exact .cons hs ih

theorem reads_readBody_zero : Reads (readBody 0) (BodyOf 0) := by
  intro s body rest _
  rw [readBody]
  constructor
  · intro h
    exact absurd h readList_none_ne_ok
  · rintro ⟨j, -, ⟨⟩⟩

theorem reads_readBody_succ {levels : Nat} (h : Reads (readStmt levels) (StmtOf levels)) :
    Reads (readBody (levels + 1)) (BodyOf (levels + 1)) := by
  rw [readBody]
  refine (reads_readList h).congr fun j body => ?_
  constructor
  · rintro ⟨js, rfl, hjs⟩
    exact .array (stmtsOf_iff_forall₂.2 hjs)
  · rintro ⟨hjs⟩
    exact ⟨_, rfl, stmtsOf_iff_forall₂.1 hjs⟩

/-- What stands under the key of a statement. -/
def ContentOfStmt (levels : Nat) (kind : String) (j : Tree) (s : Stmt) : Prop :=
  if kind = "assignment" then ∃ a, AssignmentOf levels j a ∧ s = .action a
  else if kind = "return" then ∃ e, ExprOf levels j e ∧ s = .ret e
  else ∃ body, BodyOf levels j body ∧ s = .block body

/-- The reader of what stands under the key of a statement. -/
def readStmtContent (levels : Nat) (kind : String) : Reader Stmt := fun s =>
  match kind with
  | "assignment" => (readAssignment levels s).map fun (a, s) => (.action a, s)
  | "return" => (readExpr levels s).map fun (e, s) => (.ret e, s)
  | _ => (readBody levels s).map fun (body, s) => (.block body, s)

theorem reads_readStmtContent {levels : Nat} (h : Reads (readBody levels) (BodyOf levels))
    (kind : String) : Reads (readStmtContent levels kind) (ContentOfStmt levels kind) := by
  intro s e rest hn
  unfold readStmtContent
  split
  · simp only [ContentOfStmt, if_true]
    exact (reads_readAssignment levels).map Stmt.action hn
  · simp only [ContentOfStmt, String.reduceEq, if_true, if_false]
    exact (reads_readExpr levels).map Stmt.ret hn
  · rename_i h₁ h₂
    simp only [ContentOfStmt, if_neg h₁, if_neg h₂]
    exact h.map Stmt.block hn

theorem readStmt_zero : readStmt 0 = readTagged stmtKinds (fun _ => .error .bareVariant) none := by
  rw [readStmt]

theorem readStmt_succ (levels : Nat) :
    readStmt (levels + 1) =
      readTagged stmtKinds (fun _ => .error .bareVariant) (some (readStmtContent levels)) := by
  rw [readStmt]
  rfl

theorem not_stmtOf_zero {j : Tree} {s : Stmt} : ¬ StmtOf 0 j s := by
  rintro ⟨⟩

theorem stmtOf_succ_iff {levels : Nat} {j : Tree} {s : Stmt} :
    StmtOf (levels + 1) j s ↔
      ∃ kind ∈ stmtKinds, ∃ v, OneField kind j v ∧ ContentOfStmt levels kind v s := by
  simp only [stmtKinds, List.exists_mem_cons_iff, List.not_mem_nil, false_and, exists_false,
    or_false, ContentOfStmt, String.reduceEq, if_true, if_false]
  constructor
  · intro h
    cases h with
    | assign hf hrec ht hv => exact .inl ⟨_, hf, _, ⟨_, hrec, .parts ht hv⟩, rfl⟩
    | ret hf he => exact .inr (.inl ⟨_, hf, _, he, rfl⟩)
    | block hf hbody => exact .inr (.inr ⟨_, hf, _, hbody, rfl⟩)
  · rintro (⟨v, hf, a, ha, rfl⟩ | ⟨v, hf, e, he, rfl⟩ | ⟨v, hf, body, hbody, rfl⟩)
    · cases levels with
      | zero => cases ha
      | succ levels =>
        obtain ⟨_, hrec, ⟨ht, hv⟩⟩ := ha
        exact .assign hf hrec ht hv
    · exact .ret hf he
    · exact .block hf hbody

theorem reads_readStmt_succ {levels : Nat} (h : Reads (readBody levels) (BodyOf levels)) :
    Reads (readStmt (levels + 1)) (StmtOf (levels + 1)) := by
  rw [readStmt_succ]
  have hcontent : ∀ c ∈ some (readStmtContent levels), ∀ kind ∈ stmtKinds,
      Reads (c kind) (ContentOfStmt levels kind) := by
    rintro _ ⟨⟩ kind -
    exact reads_readStmtContent h kind
  refine (reads_readTagged_object hcontent).congr fun j e => ?_
  rw [stmtOf_succ_iff]
  simp

/-- Statements and the bodies of blocks are read level by level, each with the
other one level below. -/
theorem reads_readStmt_and_readBody (levels : Nat) :
    Reads (readStmt levels) (StmtOf levels) ∧ Reads (readBody levels) (BodyOf levels) := by
  induction levels with
  | zero =>
    refine ⟨?_, reads_readBody_zero⟩
    rw [readStmt_zero]
    exact reads_readTagged_none.congr fun j s => ⟨False.elim, not_stmtOf_zero⟩
  | succ levels ih => exact ⟨reads_readStmt_succ ih.2, reads_readBody_succ ih.1⟩

theorem reads_readBody (levels : Nat) : Reads (readBody levels) (BodyOf levels) :=
  (reads_readStmt_and_readBody levels).2

/-! ### Programs -/

/-- A whole text is read as the value it spells.  The end of the text stops a
number, so nothing is to be assumed of the text. -/
theorem Reads.whole_eq_ok_iff {α : Type} {reader : Reader α} {Result : Tree → α → Prop}
    {text : String} {a : α} (h : Reads reader Result) :
    whole reader text = .ok a ↔
      ∃ j rest, Spells j text.toList rest ∧ Blanks rest [] ∧ Result j a := by
  constructor
  · intro hw
    unfold whole at hw
    split at hw
    · cases hw
    · rename_i a' r hr
      split at hw
      · rename_i hend
        cases hw
        have hb := blanks_skipBlanks r
        rw [List.isEmpty_iff.1 hend] at hb
        obtain ⟨j, hj, ha⟩ := (h hb.stops_of_end).1 hr
        exact ⟨j, r, hj, hb, ha⟩
      · cases hw
  · rintro ⟨j, r, hj, hb, ha⟩
    have hend : skipBlanks r = [] := hb.skipBlanks_eq
    simp only [whole, (h hb.stops_of_end).2 ⟨j, hj, ha⟩, hend, List.isEmpty_nil, if_true]

/-- **Exactly the texts of programs are read,** each as the program that it
spells.  Accepted and refused texts are told apart by the grammar and the form
alone, and no text spells two programs. -/
theorem read_eq_ok_iff (text : String) (p : Stmt) : read text = .ok p ↔ SpellsProgram text p := by
  rw [read, Except.map_eq_ok_iff]
  simp only [(reads_readBody nestingLimit).whole_eq_ok_iff]
  constructor
  · rintro ⟨body, ⟨j, rest, hj, hb, hbody⟩, rfl⟩
    exact .block hj hb hbody
  · rintro ⟨hj, hb, hbody⟩
    exact ⟨_, ⟨_, _, hj, hb, hbody⟩, rfl⟩

end StraightLine.Saved
