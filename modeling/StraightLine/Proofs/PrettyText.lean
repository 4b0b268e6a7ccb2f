import StraightLine.Proofs.JsonReading
import StraightLine.Proofs.NumberText
import StraightLine.Proofs.Writing

/-!
# JSON texts over several lines

The text of a value over several lines is read as that value, whatever strings it holds.

## Main definitions

* `Json.Plain` — values without floating numbers and with a bound on the brackets inside one
  another.
* `Saved.onLine` — a text on a line of its own.

## Main statements

* `Json.Plain.writtenAs` — the text of a value spells a tree that stands for the value.
* `Json.Plain.parse_pretty` — the value is read from its text.

## Design notes

* **Lines are items.**  A line break and the blanks behind it belong to the item or field on the
  line, so that an array over several lines is a compact one with longer items, and only the last
  line break stands before the closing bracket.
-/

namespace StraightLine

/-- A value without floating numbers, in which at most the given number of
brackets lie inside one another.  Reports are of this kind: they hold strings,
truth values and counts. -/
inductive Json.Plain : Nat → Json → Prop where
  | null {levels : Nat} : Plain levels .null
  | bool {levels : Nat} (b : Bool) : Plain levels (.bool b)
  | int {levels : Nat} (n : Int) : Plain levels (.int n)
  | string {levels : Nat} (s : String) : Plain levels (.string s)
  | array {levels : Nat} {items : List Json} :
      (∀ item ∈ items, Plain levels item) → Plain (levels + 1) (.array items)
  | object {levels : Nat} {fields : List (String × Json)} :
      (∀ field ∈ fields, Plain levels field.2) → Plain (levels + 1) (.object fields)

namespace Saved

/-! ### Lines -/

/-- A text on a line of its own at a nesting level.  The line break stands in
front of the text, so that it is a blank before a value. -/
def onLine (level : Nat) (text : List Char) : List Char := (Json.newline level).toList ++ text

/-- Only blanks stand before the text of a line. -/
theorem blanks_onLine (level : Nat) (text : List Char) : Blanks (onLine level text) text := by
  have hspaces : ∀ n, Blanks (List.replicate n ' ' ++ text) text := by
    intro n
    induction n with
    | zero => exact .refl _
    | succ n ih => exact .blank rfl ih
  have htext : onLine level text = '\n' :: (List.replicate (2 * level) ' ' ++ text) := by
    simp [onLine, Json.newline, toList_pushn]
  rw [htext]
  exact .blank rfl (hspaces _)

theorem onLine_append (level : Nat) (text text' : List Char) :
    onLine level text ++ text' = onLine level (text ++ text') := List.append_assoc ..

/-- A value on a line of its own. -/
def itemLine (level : Nat) (j : Json) : List Char := onLine level (j.prettyAt level).toList

/-- A field on a line of its own. -/
def fieldLine (level : Nat) (f : String × Json) : List Char :=
  onLine level ((Json.quote f.1).toList ++ ':' :: ' ' :: (f.2.prettyAt level).toList)

theorem toList_prettyItems (level : Nat) (item : Json) (items : List Json) :
    itemLine level item ++ (Json.prettyItems level items).toList =
      commaSeparated ((item :: items).map (itemLine level)) := by
  induction items generalizing item with
  | nil => simp [Json.prettyItems, commaSeparated]
  | cons next items ih =>
      rw [List.map_cons, List.map_cons, commaSeparated, ← List.map_cons, ← ih, Json.prettyItems]
      simp [itemLine, onLine]

theorem toList_prettyFields (level : Nat) (f : String × Json) (fields : List (String × Json)) :
    fieldLine level f ++ (Json.prettyFields level fields).toList =
      commaSeparated ((f :: fields).map (fieldLine level)) := by
  induction fields generalizing f with
  | nil => simp [Json.prettyFields, commaSeparated]
  | cons next fields ih =>
      rw [List.map_cons, List.map_cons, commaSeparated, ← List.map_cons, ← ih, Json.prettyFields]
      simp [fieldLine, onLine]

/-- An array is its items on their lines, and a line for the closing bracket if
there are any.  What stands before the bracket is given up to blanks, and an
empty array is not a case of its own afterwards. -/
theorem toList_prettyAt_array (level : Nat) (items : List Json) :
    ∃ tail, ((Json.array items).prettyAt level).toList =
        '[' :: (commaSeparated (items.map (itemLine (level + 1))) ++ tail) ∧
      ∀ rest, Blanks (tail ++ rest) (']' :: rest) := by
  cases items with
  | nil => exact ⟨[']'], by rw [Json.prettyAt]; rfl, fun _ => .refl _⟩
  | cons item items =>
      refine ⟨onLine level [']'], ?_, ?_⟩
      · rw [← toList_prettyItems, Json.prettyAt]
        simp [itemLine, onLine]
      · intro rest
        rw [onLine_append]
        exact blanks_onLine level _

/-- An object is its fields on their lines, and a line for the closing brace if there are any. -/
theorem toList_prettyAt_object (level : Nat) (fields : List (String × Json)) :
    ∃ tail, ((Json.object fields).prettyAt level).toList =
        '\x7b' :: (commaSeparated (fields.map (fieldLine (level + 1))) ++ tail) ∧
      ∀ rest, Blanks (tail ++ rest) ('\x7d' :: rest) := by
  cases fields with
  | nil => exact ⟨['\x7d'], by rw [Json.prettyAt]; rfl, fun _ => .refl _⟩
  | cons f fields =>
      refine ⟨onLine level ['\x7d'], ?_, ?_⟩
      · rw [← toList_prettyFields, Json.prettyAt]
        simp [fieldLine, onLine]
      · intro rest
        rw [onLine_append]
        exact blanks_onLine level _

/-! ### Items and fields -/

/-- What a value of a given number of levels is written as at a nesting level.
Levels count brackets and the nesting level counts blanks: the one falls and the
other rises on the way inside. -/
def WrittenAs (levels level : Nat) (j : Json) : Prop :=
  ∃ t, JsonOf levels t j ∧ WrittenBy Spells t (j.prettyAt level).toList

theorem written_itemLine {t : Tree} {j : Json} {level : Nat}
    (h : WrittenBy Spells t (j.prettyAt level).toList) :
    WrittenBy Spells t (itemLine level j) := by
  intro rest
  obtain ⟨u, hu, hb⟩ := h rest
  rw [itemLine, onLine_append]
  exact ⟨u, .of_blanks (blanks_onLine level _) hu, hb⟩

theorem written_fieldLine {t : Tree} {f : String × Json} {level : Nat}
    (h : WrittenBy Spells t (f.2.prettyAt level).toList) :
    WrittenBy (Member Spells) (piecesOf f.1, t) (fieldLine level f) := by
  intro rest
  obtain ⟨u, hu, hb⟩ := h rest
  have htext : fieldLine level f ++ rest = onLine level ('"' :: (f.1.toList.flatMap Json.escape ++
      '"' :: ':' :: ' ' :: ((f.2.prettyAt level).toList ++ rest))) := by
    simp [fieldLine, onLine, toList_quote]
  rw [htext]
  exact ⟨u, .keyed (blanks_onLine level _) (pieces_escape f.1.toList) (.refl _)
    (.of_blanks (.blank rfl (.refl _)) hu), hb⟩

theorem exists_items {levels level : Nat} {items : List Json}
    (h : ∀ item ∈ items, WrittenAs levels level item) :
    ∃ ts, ItemsOf levels ts items ∧
      List.Forall₂ (WrittenBy Spells) ts (items.map (itemLine level)) := by
  induction items with
  | nil => exact ⟨[], .nil, .nil⟩
  | cons item items ih =>
      obtain ⟨t, ht, hw⟩ := h item List.mem_cons_self
      obtain ⟨ts, hts, hws⟩ := ih fun item' hmem => h item' (List.mem_cons_of_mem _ hmem)
      exact ⟨t :: ts, .cons ht hts, .cons (written_itemLine hw) hws⟩

theorem exists_members {levels level : Nat} {fields : List (String × Json)}
    (h : ∀ f ∈ fields, WrittenAs levels level f.2) :
    ∃ ms, FieldsOf levels ms fields ∧
      List.Forall₂ (WrittenBy (Member Spells)) ms (fields.map (fieldLine level)) := by
  induction fields with
  | nil => exact ⟨[], .nil, .nil⟩
  | cons f fields ih =>
      obtain ⟨t, ht, hw⟩ := h f List.mem_cons_self
      obtain ⟨ms, hms, hws⟩ := ih fun f' hmem => h f' (List.mem_cons_of_mem _ hmem)
      exact ⟨(piecesOf f.1, t) :: ms, .cons (text?_piecesOf f.1) ht hms,
        .cons (written_fieldLine hw) hws⟩

/-! ### Values -/

theorem writtenAs_array {levels level : Nat} {items : List Json}
    (h : ∀ item ∈ items, WrittenAs levels (level + 1) item) :
    WrittenAs (levels + 1) level (.array items) := by
  obtain ⟨ts, hts, hws⟩ := exists_items h
  refine ⟨.array ts, .array hts, fun rest => ?_⟩
  obtain ⟨tail, htext, htail⟩ := toList_prettyAt_array level items
  rw [htext, List.cons_append, List.append_assoc]
  exact ⟨rest, .array (.refl _) (listed_of_written hws (htail rest)), .refl _⟩

theorem writtenAs_object {levels level : Nat} {fields : List (String × Json)}
    (h : ∀ f ∈ fields, WrittenAs levels (level + 1) f.2) :
    WrittenAs (levels + 1) level (.object fields) := by
  obtain ⟨ms, hms, hws⟩ := exists_members h
  refine ⟨.object ms, .object hms, fun rest => ?_⟩
  obtain ⟨tail, htext, htail⟩ := toList_prettyAt_object level fields
  rw [htext, List.cons_append, List.append_assoc]
  exact ⟨rest, .object (.refl _) (listed_of_written hws (htail rest)), .refl _⟩

theorem writtenAs_null (levels level : Nat) : WrittenAs levels level .null := by
  refine ⟨_, .scalar .null, fun rest => ⟨rest, ?_, .refl _⟩⟩
  rw [Json.prettyAt]
  exact .null (.refl _)

theorem writtenAs_bool (levels level : Nat) (b : Bool) : WrittenAs levels level (.bool b) := by
  refine ⟨_, .scalar (.boolean b), fun rest => ⟨rest, ?_, .refl _⟩⟩
  rw [Json.prettyAt]
  cases b with
  | true => exact .yes (.refl _)
  | false => exact .no (.refl _)

theorem writtenAs_string (levels level : Nat) (s : String) :
    WrittenAs levels level (.string s) := by
  refine ⟨_, .scalar (.string (text?_piecesOf s)), ?_⟩
  rw [Json.prettyAt]
  exact written_quote s

theorem writtenAs_int (levels level : Nat) (i : Int) : WrittenAs levels level (.int i) := by
  obtain ⟨n, hint, rfl, hw⟩ := written_int i
  have hj : n.toJson? = some (.int n.signed) := if_pos hint
  exact ⟨_, .scalar (.number hj), by rwa [Json.prettyAt]⟩

end Saved

open Saved

namespace Json.Plain

variable {levels : Nat} {j : Json}

/-- The text of a value spells a tree that stands for the value.  By induction
on `Plain`, whose levels are those that reading asks for. -/
theorem writtenAs (h : j.Plain levels) (level : Nat) : WrittenAs levels level j := by
  induction h generalizing level with
  | null => exact writtenAs_null _ level
  | bool b => exact writtenAs_bool _ level b
  | int n => exact writtenAs_int _ level n
  | string s => exact writtenAs_string _ level s
  | array _ ih => exact writtenAs_array fun item hmem => ih item hmem (level + 1)
  | object _ ih => exact writtenAs_object fun f hmem => ih f hmem (level + 1)

/-- **A value without floating numbers is read from its text over several lines.** -/
theorem parse_pretty (h : j.Plain nestingLimit) : parse j.pretty = .ok j := by
  obtain ⟨t, ht, hw⟩ := h.writtenAs 0
  obtain ⟨rest, hspells, hblanks⟩ := hw []
  rw [List.append_nil] at hspells
  exact parse_eq_ok_iff.2 ⟨t, rest, hspells, hblanks, ht⟩

end Json.Plain

end StraightLine
