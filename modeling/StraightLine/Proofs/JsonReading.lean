import StraightLine.Json.Value
import StraightLine.Proofs.Acceptance

/-!
# Reading JSON values

A reader of JSON values of any kind, and the proof that it takes exactly the values of the grammar.

## Main definitions

* `Saved.ScalarOf`, `Saved.JsonOf` — which values the trees of the grammar stand for.
* `Saved.readJson`, `Json.parse` — the reader, and the value of a whole text.
* `Json.IsText` — a text is JSON.

## Main statements

* `Saved.reads_readJson` — the reader takes what the grammar spells, at every number of levels.
* `Json.parse_eq_ok_iff` — whole texts.

## Design notes

* **Integers are kept exactly,** of any size, and only numbers with a fraction or an exponent are
  rounded.  A count in a report is read as the number that was counted.
* **The levels are those of saved programs.**  The reader is recursive on the brackets that may
  still be opened, so scalars are read apart, at no level.
-/

namespace StraightLine

/-- The value of a numeral; none if it is out of range.  An integer is never out
of range here. -/
def Numeral.toJson? (n : Numeral) : Option Json :=
  if n.IsInteger then some (.int n.signed) else n.float?.map .float

namespace Saved

variable {s s₁ rest : List Char}

/-! ### Readers -/

/-- A value without parts.  A bracket is refused for its depth, as this reader
has no level left for it. -/
def readScalar : Reader Json := fun s =>
  match skipBlanks s with
  | [] => .error .endInValue
  | 'n' :: s => (readWord ['u', 'l', 'l'] s).map fun (_, s) => (.null, s)
  | 't' :: s => (readWord ['r', 'u', 'e'] s).map fun (_, s) => (.bool true, s)
  | 'f' :: s => (readWord ['a', 'l', 's', 'e'] s).map fun (_, s) => (.bool false, s)
  | '"' :: s => (readString s).map fun (text, s) => (.string text, s)
  | '-' :: s => readNumeral Numeral.toJson? true s
  | '[' :: _ => .error .tooDeep
  | '\x7b' :: _ => .error .tooDeep
  | c :: s =>
    if (digit? c).isSome then readNumeral Numeral.toJson? false (c :: s)
    else .error .expectedValue

/-- A field of an object behind its key, with the fields before it. -/
def collectField (value : Reader Json) (found : List (String × Json)) (key : String) :
    Reader (List (String × Json)) := fun s =>
  match readColon s with
  | .error e => .error e
  | .ok s => (value s).map fun (j, s) => (found ++ [(key, j)], s)

/-- A value with brackets inside one another up to a number of levels.  The
recursion is on the levels, so it ends without a measure on texts. -/
def readJson : Nat → Reader Json
  | 0, s => readScalar s
  | levels + 1, s =>
    match skipBlanks s with
    | '[' :: s => (items (readJson levels) s).map fun (js, s) => (.array js, s)
    | '\x7b' :: s =>
      (fields (collectField (readJson levels)) [] s).map fun (fs, s) => (.object fs, s)
    | _ => readScalar s

/-! ### Values of the grammar -/

/-- A value without parts. -/
inductive ScalarOf : Tree → Json → Prop where
  | null : ScalarOf .null .null
  | boolean (b : Bool) : ScalarOf (.boolean b) (.bool b)
  | number {n : Numeral} {j : Json} : n.toJson? = some j → ScalarOf (.number n) j
  | string {ps : List Piece} {text : String} :
      text? ps = some text → ScalarOf (.string ps) (.string text)

mutual

/-- The value of a tree in which brackets lie inside one another up to a number
of levels.  A key or a string that stands for no characters has no value, and
neither has a number out of range, although the grammar spells them all. -/
inductive JsonOf : Nat → Tree → Json → Prop where
  | scalar {levels : Nat} {t : Tree} {j : Json} : ScalarOf t j → JsonOf levels t j
  | array {levels : Nat} {ts : List Tree} {js : List Json} :
      ItemsOf levels ts js → JsonOf (levels + 1) (.array ts) (.array js)
  | object {levels : Nat} {ms : List (List Piece × Tree)} {fs : List (String × Json)} :
      FieldsOf levels ms fs → JsonOf (levels + 1) (.object ms) (.object fs)

/-- The values of items. -/
inductive ItemsOf : Nat → List Tree → List Json → Prop where
  | nil {levels : Nat} : ItemsOf levels [] []
  | cons {levels : Nat} {t : Tree} {j : Json} {ts : List Tree} {js : List Json} :
      JsonOf levels t j → ItemsOf levels ts js → ItemsOf levels (t :: ts) (j :: js)

/-- The fields of members. -/
inductive FieldsOf : Nat → List (List Piece × Tree) → List (String × Json) → Prop where
  | nil {levels : Nat} : FieldsOf levels [] []
  | cons {levels : Nat} {key : List Piece} {name : String} {t : Tree} {j : Json}
      {ms : List (List Piece × Tree)} {fs : List (String × Json)} :
      text? key = some name → JsonOf levels t j → FieldsOf levels ms fs →
      FieldsOf levels ((key, t) :: ms) ((name, j) :: fs)

end

/-- Items have their values in a row. -/
theorem itemsOf_iff_forall₂ {levels : Nat} {ts : List Tree} {js : List Json} :
    ItemsOf levels ts js ↔ List.Forall₂ (JsonOf levels) ts js := by
  constructor
  · intro h
    induction ts generalizing js with
    | nil =>
        cases h
        exact .nil
    | cons t ts ih =>
        cases h with
        | cons ht hts => exact .cons ht (ih hts)
  · intro h
    induction h with
    | nil => exact .nil
    | cons ht _ ih => exact .cons ht ih

/-! ### Scalars -/

/-- A word that is read for a value. -/
theorem blanks_of_map_readWord {w s₂ : List Char} {c : Char} {j j' : Json}
    (hb : Blanks s (c :: s₁))
    (h : (readWord w s₁).map (fun p => (j', p.2)) = .ok (j, s₂)) :
    j = j' ∧ Blanks s (c :: (w ++ s₂)) := by
  obtain ⟨⟨_, r⟩, hw, heq⟩ := Except.map_eq_ok_iff.1 h
  obtain ⟨rfl, rfl⟩ := by simpa using heq
  rw [readWord_eq_ok_iff.1 hw] at hb
  exact ⟨rfl, hb⟩

theorem scalar_of_readScalar {j : Json} (hn : Stops rest) (h : readScalar s = .ok (j, rest)) :
    ∃ t, Spells t s rest ∧ ScalarOf t j := by
  have hb := blanks_skipBlanks s
  unfold readScalar at h
  split at h
  case h_2 hs =>
    obtain ⟨rfl, hb⟩ := blanks_of_map_readWord (hs ▸ hb) h
    exact ⟨_, .null hb, .null⟩
  case h_3 hs =>
    obtain ⟨rfl, hb⟩ := blanks_of_map_readWord (hs ▸ hb) h
    exact ⟨_, .yes hb, .boolean true⟩
  case h_4 hs =>
    obtain ⟨rfl, hb⟩ := blanks_of_map_readWord (hs ▸ hb) h
    exact ⟨_, .no hb, .boolean false⟩
  case h_5 hs =>
    obtain ⟨⟨text, r⟩, hr, heq⟩ := Except.map_eq_ok_iff.1 h
    obtain ⟨rfl, rfl⟩ := by simpa using heq
    obtain ⟨ps, hp, htext⟩ := readString_eq_ok_iff.1 hr
    exact ⟨_, .string (hs ▸ hb) hp, .string htext⟩
  case h_6 hs =>
    obtain ⟨n, hneg, hu, hv⟩ := (readNumeral_eq_ok_iff Numeral.toJson? hn).1 h
    exact ⟨_, .number (hs ▸ hb) (.minus hneg hu), .number hv⟩
  case h_9 hs =>
    split at h
    · obtain ⟨n, hneg, hu, hv⟩ := (readNumeral_eq_ok_iff Numeral.toJson? hn).1 h
      exact ⟨_, .number (hs ▸ hb) (.plain hneg hu), .number hv⟩
    · cases h
  all_goals cases h

/-- A number is read after its sign, or from its first digit on. -/
theorem NumeralText.readScalar_eq {n : Numeral} {j : Json} (h : NumeralText n s₁ rest)
    (hb : Blanks s s₁) (hn : Stops rest) (hj : n.toJson? = some j) :
    readScalar s = .ok (j, rest) := by
  cases h with
  | minus hneg hu =>
      have hr := (readNumeral_eq_ok_iff Numeral.toJson? hn).2 ⟨n, hneg, hu, hj⟩
      simp only [readScalar, (skipBlanks_eq_cons_iff rfl).2 hb, hr]
  | plain hneg hu =>
      have hr := (readNumeral_eq_ok_iff Numeral.toJson? hn).2 ⟨n, hneg, hu, hj⟩
      obtain ⟨hd, -⟩ := hu
      obtain ⟨c, t, rfl, hc⟩ := hd.head
      rw [readScalar, hb.skipBlanks_eq, skipBlanks_cons (isBlank_of_digit hc)]
      split
      case h_9 heq =>
        obtain ⟨rfl, rfl⟩ := List.cons.inj heq
        rw [if_pos hc, hr]
      case h_1 heq => cases heq
      all_goals
        rename_i heq
        obtain ⟨rfl, rfl⟩ := List.cons.inj heq
        exact absurd hc (by decide)

theorem reads_readScalar : Reads readScalar ScalarOf := by
  intro s j rest hn
  refine ⟨scalar_of_readScalar hn, ?_⟩
  rintro ⟨t, hs, hj⟩
  cases hj with
  | null =>
      cases hs with
      | null hb => simp [readScalar, (skipBlanks_eq_cons_iff rfl).2 hb, readWord, Except.map]
  | boolean b =>
      cases hs with
      | yes hb | no hb =>
          simp [readScalar, (skipBlanks_eq_cons_iff rfl).2 hb, readWord, Except.map]
  | number hv =>
      cases hs with
      | number hb hnum => exact hnum.readScalar_eq hb hn hv
  | string htext =>
      cases hs with
      | string hb hp =>
          simp only [readScalar, (skipBlanks_eq_cons_iff rfl).2 hb,
            readString_eq_ok_iff.2 ⟨_, hp, htext⟩]
          rfl

/-! ### Values with parts -/

/-- What a field adds to the fields before it. -/
def FieldStep (levels : Nat) (found : List (String × Json)) (name : String) (t : Tree)
    (found' : List (String × Json)) : Prop :=
  ∃ j, JsonOf levels t j ∧ found' = found ++ [(name, j)]

theorem readsField_collectField {levels : Nat} {value : Reader Json}
    (h : Reads value (JsonOf levels)) : ReadsField (collectField value) (FieldStep levels) := by
  intro found key s found' rest hn
  rw [collectField]
  constructor
  · intro hr
    split at hr
    · cases hr
    · rename_i hc
      obtain ⟨⟨j, r⟩, hv, heq⟩ := Except.map_eq_ok_iff.1 hr
      obtain ⟨rfl, rfl⟩ := by simpa using heq
      obtain ⟨t, ht, hj⟩ := (h hn).1 hv
      exact ⟨_, t, readColon_eq_ok_iff.1 hc, ht, j, hj, rfl⟩
  · rintro ⟨s₁, t, hc, ht, j, hj, rfl⟩
    simp only [readColon_eq_ok_iff.2 hc, (h hn).2 ⟨t, ht, hj⟩]
    rfl

/-- All members of an object give its fields, in order and with repeats.  There
is no field that is refused because it was found before. -/
theorem folds_fieldStep_iff {levels : Nat} {ms : List (List Piece × Tree)}
    {found found' : List (String × Json)} :
    Folds (FieldStep levels) found ms found' ↔
      ∃ fs, FieldsOf levels ms fs ∧ found' = found ++ fs := by
  induction ms generalizing found with
  | nil =>
      constructor
      · rintro ⟨⟩
        exact ⟨[], .nil, by simp⟩
      · rintro ⟨fs, ⟨⟩, rfl⟩
        simpa using Folds.nil found
  | cons m ms ih =>
      constructor
      · rintro (_ | ⟨hkey, ⟨j, hj, rfl⟩, hms⟩)
        obtain ⟨fs, hfs, rfl⟩ := ih.1 hms
        exact ⟨_, .cons hkey hj hfs, by simp⟩
      · rintro ⟨_, ⟨⟩ | ⟨hkey, hj, hfs⟩, rfl⟩
        exact .cons hkey ⟨_, hj, rfl⟩ (ih.2 ⟨_, hfs, by simp⟩)

theorem reads_readJson_zero : Reads (readJson 0) (JsonOf 0) := by
  have hread : readJson 0 = readScalar := by
    funext s
    rw [readJson]
  rw [hread]
  refine reads_readScalar.congr fun t j => ⟨.scalar, ?_⟩
  rintro ⟨h⟩
  exact h

/-- A scalar is read at any level, since it starts with neither a bracket nor a brace. -/
theorem readJson_of_readScalar {j : Json} (levels : Nat) (h : readScalar s = .ok (j, rest)) :
    readJson levels s = .ok (j, rest) := by
  cases levels with
  | zero => rwa [readJson]
  | succ levels =>
      rw [readJson]
      split
      · rename_i hs
        rw [readScalar, hs] at h
        cases h
      · rename_i hs
        rw [readScalar, hs] at h
        cases h
      · exact h

theorem reads_readJson_succ {levels : Nat} (h : Reads (readJson levels) (JsonOf levels)) :
    Reads (readJson (levels + 1)) (JsonOf (levels + 1)) := by
  intro s j rest hn
  have hb := blanks_skipBlanks s
  have hfield := readsField_collectField h
  constructor
  · intro hr
    rw [readJson] at hr
    -- A bracket takes one level for the values inside it; whatever else stands here is a scalar.
    split at hr
    case h_1 hs =>
      obtain ⟨⟨js, r⟩, hitems, heq⟩ := Except.map_eq_ok_iff.1 hr
      obtain ⟨rfl, rfl⟩ := by simpa using heq
      obtain ⟨ts, hl, hts⟩ := h.items_eq_ok_iff.1 hitems
      exact ⟨_, .array (hs ▸ hb) hl, .array (itemsOf_iff_forall₂.2 hts)⟩
    case h_2 hs =>
      obtain ⟨⟨fs, r⟩, hf, heq⟩ := Except.map_eq_ok_iff.1 hr
      obtain ⟨rfl, rfl⟩ := by simpa using heq
      obtain ⟨ms, hl, hms⟩ := hfield.fields_eq_ok_iff.1 hf
      obtain ⟨fs, hfs, rfl⟩ := folds_fieldStep_iff.1 hms
      exact ⟨_, .object (hs ▸ hb) hl, .object hfs⟩
    case h_3 =>
      obtain ⟨t, ht, hj⟩ := scalar_of_readScalar hn hr
      exact ⟨t, ht, .scalar hj⟩
  · rintro ⟨t, ht, hj⟩
    cases hj with
    | scalar hj => exact readJson_of_readScalar _ ((reads_readScalar hn).2 ⟨t, ht, hj⟩)
    | array hts =>
        cases ht with
        | array hb hl =>
            have hitems := h.items_eq_ok_iff.2 ⟨_, hl, itemsOf_iff_forall₂.1 hts⟩
            simp only [readJson, (skipBlanks_eq_cons_iff rfl).2 hb, hitems]
            rfl
    | object hfs =>
        cases ht with
        | object hb hl =>
            have hf := hfield.fields_eq_ok_iff.2
              ⟨_, hl, folds_fieldStep_iff.2 ⟨_, hfs, (List.nil_append _).symm⟩⟩
            simp only [readJson, (skipBlanks_eq_cons_iff rfl).2 hb, hf]
            rfl

/-- Values are read level by level, by the lemmas on lists and objects of any
items.  Nothing about the grammar has to be proved again for this reader. -/
theorem reads_readJson (levels : Nat) : Reads (readJson levels) (JsonOf levels) := by
  induction levels with
  | zero => exact reads_readJson_zero
  | succ levels ih => exact reads_readJson_succ ih

end Saved

/-! ### Whole texts -/

namespace Json

/-- The value that a text holds. -/
def parse (text : String) : Except Saved.Problem Json :=
  Saved.whole (Saved.readJson Saved.nestingLimit) text

/-- A text is JSON: it spells a value, with nothing but blanks around it.  This
is a property of the text and no reader is mentioned in it. -/
def IsText (text : String) : Prop :=
  ∃ t rest, Saved.Spells t text.toList rest ∧ Saved.Blanks rest []

/-- A text is read as the value of the tree that it spells. -/
theorem parse_eq_ok_iff {text : String} {j : Json} :
    parse text = .ok j ↔
      ∃ t rest, Saved.Spells t text.toList rest ∧ Saved.Blanks rest [] ∧
        Saved.JsonOf Saved.nestingLimit t j :=
  (Saved.reads_readJson Saved.nestingLimit).whole_eq_ok_iff

/-- Only JSON is read. -/
theorem isText_of_parse {text : String} {j : Json} (h : parse text = .ok j) : IsText text := by
  obtain ⟨t, rest, hspells, hblanks, -⟩ := parse_eq_ok_iff.1 h
  exact ⟨t, rest, hspells, hblanks⟩

end Json

end StraightLine
