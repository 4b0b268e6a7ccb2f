import StraightLine.Proofs.CutShort
import StraightLine.Proofs.RoundTrip
import StraightLine.Proofs.WrittenBrackets

/-!
# Saved programs that are cut short

The beginning of a saved program is no saved program.  Wherever the text ends before its end, the
end of the text is what is reported: never another fault, and never another program.

## Main definitions

* `Stmt.IntegerLiterals` — all literals are integers.

## Main statements

* `Expr.takes_savedText`, `Stmt.takes_savedText` — the parts of a program, at enough levels.
* `Saved.read_truncated` — programs.

## Design notes

* **The levels come from the text.**  A reader that has no level left refuses a bracket, so there
  have to be as many levels as brackets lie inside one another.
* **Only integers are followed into numbers.**  The beginning of a number with a fraction or an
  exponent may be out of range where the number is not.
-/

namespace StraightLine

open Saved

/-- All literals of the expression are integers.  Of a floating literal the
beginning may be out of range, and then another problem is reported. -/
def Expr.IntegerLiterals (e : Expr) : Prop := ∀ v ∈ e.literals, v.kind = .int

/-- All literals of the statement are integers. -/
def Stmt.IntegerLiterals (s : Stmt) : Prop := ∀ a ∈ s.actions, a.value.IntegerLiterals

/-! ### Compact texts -/

theorem Json.toList_array (items : List Json) :
    (Json.array items).compact.toList =
      '[' :: (separated true (items.map (·.compact.toList)) ++ [']']) := by
  simp [Json.compact, toList_compactItems, commaSeparated_eq]

theorem Json.toList_object (fields : List (String × Json)) :
    (Json.object fields).compact.toList = '\x7b' ::
      (separated true ((fields.map fun f => (f.1, f.2.compact.toList)).map memberText) ++
        ['\x7d']) := by
  have hfield : fieldText = memberText ∘ fun f : String × Json => (f.1, f.2.compact.toList) := by
    funext f
    simp [fieldText, memberText, keyText, toList_quote_eq]
  simp [Json.compact, toList_compactFields, commaSeparated_eq, hfield]

theorem Json.toList_tagged (name : String) (value : Json) :
    (Json.object [(name, value)]).compact.toList =
      '\x7b' :: (keyText name ++ (value.compact.toList ++ ['\x7d'])) := by
  rw [toList_object]
  simp [separated, opening, memberText]

/-! ### Expressions -/

theorem takes_readOperator (levels : Nat) (op : Operator) :
    Takes (readOperator levels) (Json.quote op.name).toList op := by
  rw [readOperator_eq]
  exact takes_readTagged_bare (mem_operatorNames op) (namedOperator_eq_ok_iff.mpr rfl)

/-- A binary operation, from the texts of its operands.  It is a record that was
written as an object, with its fields in order. -/
theorem takes_readBinary {levels : Nat} (op : Operator) {left right : Expr} {l r : List Char}
    (hleft : Takes (readExpr levels) l left) (hright : Takes (readExpr levels) r right) :
    Takes (readBinary (levels + 1))
      ('\x7b' :: (separated true
        ([("op", (Json.quote op.name).toList), ("left", l), ("right", r)].map memberText) ++
          ['\x7d']))
      (.binary op left right) := by
  have hop : Takes (binaryField (readOperator levels) (readExpr levels) ⟨none, none, none⟩ "op")
      (':' :: (Json.quote op.name).toList) ⟨some op, none, none⟩ :=
    (takes_readField "op" (takes_readOperator levels op)).map
      fun op => BinaryFields.mk (some op) none none
  have hl : Takes (binaryField (readOperator levels) (readExpr levels) ⟨some op, none, none⟩ "left")
      (':' :: l) ⟨some op, some left, none⟩ :=
    (takes_readField "left" hleft).map
      fun left => BinaryFields.mk (some op) (some left) none
  have hr : Takes (binaryField (readOperator levels) (readExpr levels)
      ⟨some op, some left, none⟩ "right") (':' :: r) ⟨some op, some left, some right⟩ :=
    (takes_readField "right" hright).map
      fun right => BinaryFields.mk (some op) (some left) (some right)
  have hmembers := Members.cons hop (.cons hl (.cons hr (.nil _)))
  exact hmembers.takes_readRecord (readBinaryFields_eq _ _) rfl

/-- **An expression that is saved is taken as a whole** or missed, where there
are enough levels.  The levels are those of the JSON value, one for each
bracket, and are used up as the reader goes down. -/
theorem Expr.takes_savedText (e : Expr) (hn : e.Named) (hi : e.IntegerLiterals) :
    ∀ levels, e.toJson.depth ≤ levels → Takes (readExpr levels) e.toJson.compact.toList e := by
  induction e with
  | literal v =>
      intro levels hdepth
      cases v with
      | float x => cases hi (.float x) (by simp)
      | int w =>
          simp only [toJson, Json.depth, Json.depthOfFields] at hdepth
          obtain ⟨levels, rfl⟩ := Nat.exists_eq_add_of_le' (show 1 ≤ levels by omega)
          rw [readExpr_succ, toJson, Json.toList_tagged]
          exact takes_readTagged (by decide) ((takesBefore_readLiteral levels w).map Expr.literal)
  | «variable» name =>
      intro levels hdepth
      simp only [toJson, Json.depth, Json.depthOfFields] at hdepth
      obtain ⟨levels, rfl⟩ := Nat.exists_eq_add_of_le' (show 1 ≤ levels by omega)
      rw [readExpr_succ, toJson, Json.toList_tagged]
      have hname := (takes_readName (hn name (by simp))).map Expr.variable
      exact takes_readTagged (by decide) hname.before
  | binary op left right ihl ihr =>
      intro levels hdepth
      simp only [toJson, Json.depth, Json.depthOfFields] at hdepth
      obtain ⟨levels, rfl⟩ := Nat.exists_eq_add_of_le' (show 2 ≤ levels by omega)
      have hleft := ihl (fun name h => hn name (by simp [h])) (fun v h => hi v (by simp [h]))
        levels (by omega)
      have hright := ihr (fun name h => hn name (by simp [h])) (fun v h => hi v (by simp [h]))
        levels (by omega)
      have hrecord : TakesBefore (readExprContent (levels + 1) "binary") _ _ :=
        (takes_readBinary op hleft hright).before
      rw [readExpr_succ, toJson, Json.toList_tagged, Json.toList_object]
      exact takes_readTagged (by decide) hrecord

/-! ### Statements -/

/-- An assignment, from the text of its value. -/
theorem takes_readAssignment {levels : Nat} {target : String} {value : Expr} {text : List Char}
    (htarget : target ≠ "") (hvalue : Takes (readExpr levels) text value) :
    Takes (readAssignment (levels + 1))
      ('\x7b' :: (separated true
        ([("target", (Json.quote target).toList), ("value", text)].map memberText) ++ ['\x7d']))
      (.assign target value) := by
  have ht : Takes (assignmentField (readExpr levels) ⟨none, none⟩ "target")
      (':' :: (Json.quote target).toList) ⟨some target, none⟩ :=
    (takes_readField "target" (takes_readName htarget)).map
      fun target => AssignmentFields.mk (some target) none
  have hv : Takes (assignmentField (readExpr levels) ⟨some target, none⟩ "value")
      (':' :: text) ⟨some target, some value⟩ :=
    (takes_readField "value" hvalue).map
      fun value => AssignmentFields.mk (some target) (some value)
  have hmembers := Members.cons ht (.cons hv (.nil _))
  exact hmembers.takes_readRecord (readAssignmentFields_eq _) rfl

theorem Action.takes_savedText (a : Action) (hn : a.Named) (hi : a.value.IntegerLiterals) :
    ∀ levels, a.toJson.depth ≤ levels →
      Takes (readStmt levels) a.toJson.compact.toList (.action a) := by
  obtain ⟨hvalue, htarget⟩ := hn
  intro levels hdepth
  cases a with
  | assign target value =>
      simp only [toJson, Json.depth, Json.depthOfFields] at hdepth
      obtain ⟨levels, rfl⟩ := Nat.exists_eq_add_of_le' (show 2 ≤ levels by omega)
      have htakes := value.takes_savedText hvalue hi levels (by omega)
      have hrecord : TakesBefore (readStmtContent (levels + 1) "assignment") _ _ :=
        ((takes_readAssignment (htarget target rfl) htakes).map Stmt.action).before
      rw [readStmt_succ, toJson, Json.toList_tagged, Json.toList_object]
      exact takes_readTagged (by decide) hrecord
  | ret value =>
      simp only [toJson, Json.depth, Json.depthOfFields] at hdepth
      obtain ⟨levels, rfl⟩ := Nat.exists_eq_add_of_le' (show 1 ≤ levels by omega)
      have htakes := value.takes_savedText hvalue hi levels (by omega)
      have hcontent : TakesBefore (readStmtContent levels "return") _ _ :=
        (htakes.map Stmt.ret).before
      rw [readStmt_succ, toJson, Json.toList_tagged]
      exact takes_readTagged (by decide) hcontent

/-- The statements of a body are objects, with enough levels for the deepest of
them.  Statements and lists of them go through one induction, since the body of
a block is a list. -/
theorem Stmt.takes_savedText :
    (∀ s : Stmt, s.Named → s.IntegerLiterals →
      ∀ levels, s.toJson.depth ≤ levels → TakesObject (readStmt levels) s.toJson.compact.toList s) ∧
    (∀ body : List Stmt, (Stmt.block body).Named → (Stmt.block body).IntegerLiterals →
      ∀ levels, Json.depthOfItems (Stmt.jsonItems body) ≤ levels →
        List.Forall₂ (TakesObject (readStmt levels))
          ((Stmt.jsonItems body).map (·.compact.toList)) body) := by
  refine Stmt.induction ?action ?block ?nil ?cons
  case action =>
      intro a hn hi levels hdepth
      have htakes := a.takes_savedText (hn a (by simp)) (hi a (by simp)) levels hdepth
      refine ⟨htakes, ?_⟩
      cases a with
      | assign target value => exact ⟨_, Json.toList_tagged _ _⟩
      | ret value => exact ⟨_, Json.toList_tagged _ _⟩
  case block =>
      intro body ih hn hi levels hdepth
      simp only [toJson, Json.depth, Json.depthOfFields] at hdepth
      obtain ⟨levels, rfl⟩ := Nat.exists_eq_add_of_le' (show 2 ≤ levels by omega)
      have hlist := takes_readList (ih hn hi levels (by omega))
      have hcontent : TakesBefore (readStmtContent (levels + 1) "block") _ _ :=
        (hlist.map Stmt.block).before
      rw [readStmt_succ, toJson, Json.toList_tagged, Json.toList_array]
      exact ⟨takes_readTagged (by decide) hcontent, _, rfl⟩
  case nil =>
      intro _ _ levels _
      exact .nil
  case cons =>
      intro s rest ihs ihrest hn hi levels hdepth
      obtain ⟨hns, hnrest⟩ := Stmt.forall_actions_cons.1 hn
      obtain ⟨his, hirest⟩ := Stmt.forall_actions_cons.1 hi
      simp only [jsonItems, Json.depthOfItems] at hdepth
      exact .cons (ihs hns his levels (by omega)) (ihrest hnrest hirest levels (by omega))

/-! ### Programs -/

/-- **The beginning of a saved program is no saved program.**  Wherever the text of a program
without empty names and floating literals is cut off, the end of the text is what is reported. -/
theorem Saved.read_truncated {body : List Stmt} (hnames : (Stmt.block body).Named)
    (hints : (Stmt.block body).IntegerLiterals)
    (hbrackets : openBrackets false 0 (Stmt.savedText body).toList ≤ 127) {text : String}
    (hcut : text.toList <+: (Stmt.savedText body).toList) (hne : text ≠ Stmt.savedText body) :
    ∃ p, read text = .error p ∧ p.category = .endOfText := by
  have hopens := Json.opens_compact (.array (Stmt.jsonItems body)) 0 []
  rw [List.append_nil, ← Stmt.savedText] at hopens
  have hdepth : Json.depthOfItems (Stmt.jsonItems body) ≤ 126 := by
    rw [hopens, Json.depth] at hbrackets
    omega
  have htakes := takes_readList (Stmt.takes_savedText.2 body hnames hints 126 hdepth)
  rw [← Json.toList_array, ← Stmt.savedText] at htakes
  obtain ⟨p, hread, hp⟩ := htakes.endsEarly_of_ne hcut fun h => hne (String.toList_injective h)
  refine ⟨p, ?_, hp⟩
  have hbody : readBody nestingLimit text.toList = .error p := hread
  rw [read, whole, hbody]
  rfl

/-- Nothing at all, and cuts inside a key, behind a colon, inside an escape, inside a number and in
front of the last bracket. -/
theorem Saved.read_truncated_of_cuts :
    let body : List Stmt := [.assign "\x01" (.literal (.int (-120)))]
    let texts : List String := ["", "[\x7b\"assi", "[\x7b\"assignment\":",
      "[\x7b\"assignment\":\x7b\"target\":\"\\u00",
      "[\x7b\"assignment\":\x7b\"target\":\"\\u0001\",\"value\":\x7b\"literal\":-12",
      "[\x7b\"assignment\":\x7b\"target\":\"\\u0001\",\"value\":\x7b\"literal\":-120\x7d\x7d\x7d"]
    (Stmt.block body).Named ∧ (Stmt.block body).IntegerLiterals ∧
      openBrackets false 0 (Stmt.savedText body).toList ≤ 127 ∧
      ∀ text ∈ texts, text.toList <+: (Stmt.savedText body).toList ∧ text ≠ Stmt.savedText body ∧
        ∃ p, read text = .error p ∧ p.category = .endOfText := by
  intro body texts
  have hnames : (Stmt.block body).Named := by
    simp [body, Stmt.Named, Action.Named, Expr.Named, Action.value, Action.target?]
  have hints : (Stmt.block body).IntegerLiterals := by
    simp [body, Stmt.IntegerLiterals, Expr.IntegerLiterals, Action.value, Value.kind]
  have hbrackets : openBrackets false 0 (Stmt.savedText body).toList ≤ 127 := by decide +kernel
  have hcuts : ∀ text ∈ texts,
      text.toList <+: (Stmt.savedText body).toList ∧ text ≠ Stmt.savedText body := by
    decide +kernel
  refine ⟨hnames, hints, hbrackets, fun text htext => ?_⟩
  obtain ⟨hcut, hne⟩ := hcuts text htext
  exact ⟨hcut, hne, read_truncated hnames hints hbrackets hcut hne⟩

end StraightLine
