import StraightLine.Proofs.Brackets
import StraightLine.Proofs.Writing

/-!
# Reading undoes writing

A program that is saved and read again is the same program: the same statements in the same order,
with the same operators, names and literals, each literal of its own kind.

## Main definitions

* `Stmt.FloatsReadBack` — every floating literal is read back from its own text.

## Main statements

* `Expr.exists_written`, `Stmt.exists_written` — the saved text of a part spells a value which has
  the form of that part at every level from its depth on.
* `read_savedText` — the round trip.

## Design notes

* **The value in between stays unnamed.**  A floating literal is known only by being read back, so
  the numeral that its text spells is not computed here; it comes from the hypothesis.
* **Only finite literals qualify.**  A number that is not finite is written `null`, which is read
  back as no number at all.
-/

namespace StraightLine

/-- The number is read back from its own text, alone.  It is a condition that
can be tested for each literal; the theorem carries it from the literal to the
program. -/
def ReadsBack (x : Float) : Prop :=
  Saved.whole (Saved.readLiteral Saved.nestingLimit) (Json.floatText x) = .ok (.float x)

instance (x : Float) : Decidable (ReadsBack x) := inferInstanceAs (Decidable (_ = _))

/-- Every floating literal of the expression is read back from its own text. -/
def Expr.FloatsReadBack (e : Expr) : Prop := ∀ x, Value.float x ∈ e.literals → ReadsBack x

/-- Every floating literal of the statement is read back from its own text. -/
def Stmt.FloatsReadBack (s : Stmt) : Prop := ∀ a ∈ s.actions, a.value.FloatsReadBack

open Saved

/-! ### Objects and records as they are written -/

/-- An object with one field, as it is written. -/
def Saved.Tree.tagged (name : String) (j : Tree) : Tree := .object [(piecesOf name, j)]

namespace Saved

theorem oneField_tagged (name : String) (j : Tree) : OneField name (.tagged name j) j :=
  .object (text?_piecesOf name)

theorem depth_tagged (name : String) (j : Tree) : (Tree.tagged name j).depth = j.depth + 1 := by
  simp [Tree.tagged, Tree.depth, Tree.depthOfMembers]

theorem written_tagged {name : String} {j : Tree} {value : Json}
    (h : WrittenBy Spells j value.compact.toList) :
    WrittenBy Spells (.tagged name j) (Json.object [(name, value)]).compact.toList :=
  written_object [(name, j, value)] (by simpa using h)

end Saved

/-! ### Literals -/

/-- The text of a literal spells a value that has the form of the literal.  For
a floating number that value comes out of `ReadsBack`, and no digit of it is
looked at. -/
theorem Value.exists_written (v : Value) (hf : ∀ x, v = .float x → ReadsBack x) :
    ∃ j, WrittenBy Spells j v.toJson.compact.toList ∧ j.depth = 0 ∧ LiteralOf j v := by
  cases v with
  | int w =>
    obtain ⟨n, hint, hsigned, hw⟩ := written_int w.toInt
    exact ⟨.number n, hw, rfl, .int hint hsigned.symm⟩
  | float x =>
    obtain ⟨j, rest, hj, hb, hl⟩ := (reads_readLiteral nestingLimit).whole_eq_ok_iff.1 (hf x rfl)
    obtain ⟨n, rfl⟩ : ∃ n, j = .number n := by cases hl; exact ⟨_, rfl⟩
    exact ⟨.number n, written_of_spells hj hb, rfl, hl⟩

/-! ### Expressions -/

/-- The text of an expression spells a value that has the form of the expression
at every number of levels from its depth on.  The levels are part of the
statement, since operands are written before it is known how deep they will
stand. -/
theorem Expr.exists_written (e : Expr) (hn : e.Named) (hf : e.FloatsReadBack) :
    ∃ j, WrittenBy Spells j e.toJson.compact.toList ∧
      ∀ levels, j.depth ≤ levels → ExprOf levels j e := by
  induction e with
  | literal v =>
    obtain ⟨j, hw, hd, hl⟩ := v.exists_written fun x hx => hf x (by simp [hx])
    refine ⟨.tagged "literal" j, written_tagged hw, fun levels hle => ?_⟩
    rw [depth_tagged] at hle
    obtain ⟨levels, rfl⟩ := Nat.exists_eq_add_of_le' (by omega : 1 ≤ levels)
    exact .literal (oneField_tagged _ _) hl
  | «variable» name =>
    refine ⟨.tagged "variable" (.string (piecesOf name)), written_tagged (written_quote name),
      fun levels hle => ?_⟩
    rw [depth_tagged] at hle
    obtain ⟨levels, rfl⟩ := Nat.exists_eq_add_of_le' (by omega : 1 ≤ levels)
    exact .variable (oneField_tagged _ _) (.string (text?_piecesOf name) (hn name (by simp)))
  | binary op left right ihl ihr =>
    obtain ⟨jl, hwl, hl⟩ := ihl (fun name h => hn name (by simp [h])) fun x h => hf x (by simp [h])
    obtain ⟨jr, hwr, hr⟩ := ihr (fun name h => hn name (by simp [h])) fun x h => hf x (by simp [h])
    let record : Tree := .object [(piecesOf "op", .string (piecesOf op.name)),
      (piecesOf "left", jl), (piecesOf "right", jr)]
    have hw := written_object [("op", .string (piecesOf op.name), .string op.name),
      ("left", jl, left.toJson), ("right", jr, right.toJson)]
      (by simpa using ⟨written_quote op.name, hwl, hwr⟩)
    refine ⟨.tagged "binary" record, written_tagged hw, fun levels hle => ?_⟩
    rw [depth_tagged] at hle
    simp only [record, Tree.depth, Tree.depthOfMembers] at hle
    obtain ⟨levels, rfl⟩ := Nat.exists_eq_add_of_le' (by omega : 2 ≤ levels)
    have hrec : RecordOf ["op", "left", "right"] record [.string (piecesOf op.name), jl, jr] :=
      .object (by simp) (by simp [valuesOf])
    exact .binary (oneField_tagged _ _) hrec (.bare (text?_piecesOf op.name)) (hl levels (by omega))
      (hr levels (by omega))

/-! ### Statements -/

theorem Action.exists_written (a : Action) (hn : a.Named) (hf : a.value.FloatsReadBack) :
    ∃ j, WrittenBy Spells j a.toJson.compact.toList ∧
      ∀ levels, j.depth ≤ levels → StmtOf levels j (.action a) := by
  obtain ⟨hvalue, htarget⟩ := hn
  obtain ⟨j, hw, he⟩ := a.value.exists_written hvalue hf
  cases a with
  | assign target value =>
    let record : Tree := .object [(piecesOf "target", .string (piecesOf target)),
      (piecesOf "value", j)]
    have hrecord := written_object [("target", .string (piecesOf target), .string target),
      ("value", j, value.toJson)] (by simpa using ⟨written_quote target, hw⟩)
    refine ⟨.tagged "assignment" record, written_tagged hrecord, fun levels hle => ?_⟩
    rw [depth_tagged] at hle
    simp only [record, Tree.depth, Tree.depthOfMembers] at hle
    obtain ⟨levels, rfl⟩ := Nat.exists_eq_add_of_le' (by omega : 2 ≤ levels)
    have hrec : RecordOf ["target", "value"] record [.string (piecesOf target), j] :=
      .object (by simp) (by simp [valuesOf])
    exact .assign (oneField_tagged _ _) hrec (.string (text?_piecesOf target) (htarget target rfl))
      (he levels (by omega))
  | ret value =>
    refine ⟨.tagged "return" j, written_tagged hw, fun levels hle => ?_⟩
    rw [depth_tagged] at hle
    obtain ⟨levels, rfl⟩ := Nat.exists_eq_add_of_le' (by omega : 1 ≤ levels)
    exact .ret (oneField_tagged _ _) (he levels (by omega))

/-- The statements of a block keep what is asked of all its actions.  Every
condition on programs here is of this kind, so one lemma takes them all apart. -/
theorem Stmt.forall_actions_cons {P : Action → Prop} {s : Stmt} {rest : List Stmt} :
    (∀ a ∈ (Stmt.block (s :: rest)).actions, P a) ↔
      (∀ a ∈ s.actions, P a) ∧ ∀ a ∈ (Stmt.block rest).actions, P a := by
  simp [or_imp, forall_and]

/-- The same for statements and for the statements of a block, which are written
in a row. -/
theorem Stmt.exists_written :
    (∀ s : Stmt, s.Named → s.FloatsReadBack → ∃ j,
      WrittenBy Spells j s.toJson.compact.toList ∧ ∀ levels, j.depth ≤ levels → StmtOf levels j s) ∧
    (∀ body : List Stmt, (Stmt.block body).Named → (Stmt.block body).FloatsReadBack → ∃ js,
      List.Forall₂ (fun j item => WrittenBy Spells j item.compact.toList) js
        (Stmt.jsonItems body) ∧
      ∀ levels, Tree.depthOfItems js ≤ levels → StmtsOf levels js body) := by
  refine Stmt.induction ?action ?block ?nil ?cons
  case action =>
    intro a hn hf
    exact a.exists_written (hn a (by simp)) (hf a (by simp))
  case block =>
    intro body ih hn hf
    obtain ⟨js, hw, hs⟩ := ih hn hf
    refine ⟨.tagged "block" (.array js), written_tagged (written_array hw), fun levels hle => ?_⟩
    rw [depth_tagged, Tree.depth] at hle
    obtain ⟨levels, rfl⟩ := Nat.exists_eq_add_of_le' (by omega : 2 ≤ levels)
    exact .block (oneField_tagged _ _) (.array (hs levels (by omega)))
  case nil =>
    intro _ _
    exact ⟨[], .nil, fun levels _ => .nil⟩
  case cons =>
    intro s rest ihs ihrest hn hf
    obtain ⟨hns, hnrest⟩ := Stmt.forall_actions_cons.1 hn
    obtain ⟨hfs, hfrest⟩ := Stmt.forall_actions_cons.1 hf
    obtain ⟨j, hw, hj⟩ := ihs hns hfs
    obtain ⟨js, hws, hjs⟩ := ihrest hnrest hfrest
    refine ⟨j :: js, .cons hw hws, fun levels hle => ?_⟩
    rw [Tree.depthOfItems] at hle
    exact .cons (hj levels (by omega)) (hjs levels (by omega))

/-- **Reading undoes writing.**  A program without empty names, whose floating literals are each
read back from their own text, and whose saved text has at most 127 brackets open at once, is read
back from its saved text. -/
theorem Saved.read_savedText {body : List Stmt} (hnames : (Stmt.block body).Named)
    (hfloats : (Stmt.block body).FloatsReadBack)
    (hbrackets : openBrackets false 0 (Stmt.savedText body).toList ≤ 127) :
    read (Stmt.savedText body) = .ok (.block body) := by
  obtain ⟨js, hw, hbody⟩ := Stmt.exists_written.2 body hnames hfloats
  obtain ⟨rest, hs, hb⟩ := written_array hw []
  rw [List.append_nil] at hs
  have hdepth : 0 + (Tree.array js).depth ≤ 127 := by
    rw [Stmt.savedText, hs.openBrackets_eq] at hbrackets
    exact (Nat.le_max_left _ _).trans hbrackets
  rw [Tree.depth] at hdepth
  have hform : BodyOf nestingLimit (.array js) body := .array (hbody 126 (by omega))
  have hwhole : whole (readBody nestingLimit) (Stmt.savedText body) = .ok body :=
    (reads_readBody nestingLimit).whole_eq_ok_iff.2 ⟨_, _, hs, hb, hform⟩
  rw [read, hwhole]
  rfl

/-- Names with quotes, backslashes, control characters and a character of two code units, the ends
of the machine integers, a negative zero beside a fraction, and an empty block. -/
theorem Saved.read_savedText_of_escapes :
    let body : List Stmt := [
      .assign "\"\\\n\x01\u007f😀" (.literal (.int Int64.minValue)),
      .block [],
      .block [.ret (.binary .floatDiv (.literal (.float 0.5)) (.variable "é/"))],
      .assign "x" (.binary .plus (.literal (.int Int64.maxValue)) (.literal (.float (-0.0))))]
    (Stmt.block body).Named ∧ (Stmt.block body).FloatsReadBack ∧
      openBrackets false 0 (Stmt.savedText body).toList ≤ 127 ∧
      read (Stmt.savedText body) = .ok (.block body) := by
  intro body
  have hnames : (Stmt.block body).Named := by
    simp [body, Stmt.Named, Action.Named, Expr.Named, Action.value, Action.target?]
  have hhalf : ReadsBack 0.5 := by decide +kernel
  have hzero : ReadsBack (-0.0) := by decide +kernel
  have hfloats : (Stmt.block body).FloatsReadBack := by
    simp [body, Stmt.FloatsReadBack, Expr.FloatsReadBack, Action.value, hhalf, hzero]
  have hbrackets : openBrackets false 0 (Stmt.savedText body).toList ≤ 127 := by
    -- The characters of a long text are slow to take out of it, so they are taken out of its parts.
    simp only [body, Stmt.savedText, Stmt.jsonItems, Stmt.toJson, Action.toJson, Expr.toJson,
      Value.toJson, Json.compact, Json.compactItems, Json.compactFields, String.toList_append,
      toList_quote]
    decide +kernel
  exact ⟨hnames, hfloats, hbrackets, read_savedText hnames hfloats hbrackets⟩

end StraightLine
