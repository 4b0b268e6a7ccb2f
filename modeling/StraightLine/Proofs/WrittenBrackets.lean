import StraightLine.Proofs.Brackets
import StraightLine.Proofs.NumberText
import StraightLine.Proofs.Writing

/-!
# The brackets of compact texts

The compact text of a JSON value opens as many brackets at once as lie inside one another in the
value, whatever its strings and numbers are.

## Main definitions

* `Saved.Opens` — a text opens brackets up to a given number, and closes them all.
* `Json.depth` — how many brackets lie inside one another in a value.

## Main statements

* `NumberStyle.isNumberChar_finiteText` — the characters that finite numbers are written with.
* `Json.opens_compact` — the brackets of a compact text.

## Design notes

* **No grammar is needed.**  A floating number could be followed through the grammar only by reading
  its text; for its brackets it is enough that there are none among its characters.
-/

namespace StraightLine

namespace Saved

/-! ### Texts that open brackets -/

/-- Behind any number of open brackets the text opens up to `d` more, and closes
them all.  Stated with any text behind it, so that the pieces of a text can be
put together one after the other (`Opens.append`). -/
def Opens (d : Nat) (text : List Char) : Prop :=
  ∀ n rest, openBrackets false n (text ++ rest) = max (n + d) (openBrackets false n rest)

namespace Opens

variable {d d' : Nat} {text text' : List Char}

theorem of_flat (h : ∀ c ∈ text, Flat c) : Opens 0 text := by
  intro n rest
  induction text with
  | nil => rw [List.nil_append, Nat.add_zero, Nat.max_eq_right (le_openBrackets ..)]
  | cons c text ih =>
      rw [List.cons_append, openBrackets_cons_of_flat (h c List.mem_cons_self)]
      exact ih fun c hc => h c (List.mem_cons_of_mem _ hc)

theorem append (h : Opens d text) (h' : Opens d' text') : Opens (max d d') (text ++ text') := by
  intro n rest
  rw [List.append_assoc, h, h']
  omega

theorem quote (s : String) : Opens 0 (Json.quote s).toList := by
  intro n rest
  obtain ⟨left, hspells, hblanks⟩ := written_quote s rest
  rw [hspells.openBrackets_eq, hblanks.openBrackets_eq]
  rfl

/-- A comma behind a text. -/
theorem separated {text : String} (h : Opens d text.toList) : Opens d (text ++ ",").toList := by
  have hcomma : Opens 0 ",".toList := of_flat (by simp [Flat])
  have happend := h.append hcomma
  rwa [Nat.max_zero, ← String.toList_append] at happend

/-- A key in front of a text. -/
theorem keyed {text : String} (h : Opens d text.toList) (key : String) :
    Opens d (Json.quote key ++ ":" ++ text).toList := by
  have hcolon : Opens 0 ":".toList := of_flat (by simp [Flat])
  have happend := ((quote key).append hcolon).append h
  rwa [Nat.max_zero, Nat.zero_max, ← String.toList_append, ← String.toList_append] at happend

/-- A bracket and its partner add one to what is opened between them.  They need
not be of the same kind for the count. -/
theorem enclosed {opening closing : Char} (ho : opening = '[' ∨ opening = '\x7b')
    (hc : closing = ']' ∨ closing = '\x7d') (h : Opens d text) :
    Opens (d + 1) (opening :: (text ++ [closing])) := by
  intro n rest
  rw [List.cons_append, List.append_assoc, openBrackets_open ho (.refl _), h, List.singleton_append,
    openBrackets_close hc (.refl _)]
  omega

end Opens

theorem flat_of_isNumeric {c : Char} (h : isNumeric c = true) : Flat c := by
  refine ⟨?_, ?_, ?_, ?_, ?_⟩ <;> rintro rfl <;> cases h

end Saved

/-! ### The characters of numbers -/

namespace NumberStyle

/-- The characters that finite numbers are written with.  What number they make
is not asked; none of them is a bracket or a quote. -/
def IsNumberChar (c : Char) : Prop := isNumeric c = true ∨ c = 'e' ∨ c = '+'

theorem IsNumberChar.flat {c : Char} (h : IsNumberChar c) : Saved.Flat c := by
  rcases h with h | rfl | rfl
  · exact Saved.flat_of_isNumeric h
  · decide
  · decide

theorem isNumberChar_toString_nat (n : Nat) : ∀ c ∈ (toString n).toList, IsNumberChar c := by
  intro c hc
  exact Or.inl (isNumeric_of_isDigit (isDigit_of_mem_toString_nat hc))

theorem isNumberChar_toString_int (n : Int) : ∀ c ∈ (toString n).toList, IsNumberChar c := by
  intro c hc
  rw [toList_toString_int] at hc
  rcases List.mem_append.mp hc with hc | hc
  · exact Or.inl (isNumeric_of_mem_signText hc)
  · exact Or.inl (isNumeric_of_isDigit (Nat.isDigit_of_mem_toDigits (by decide) (by decide) hc))

theorem isNumberChar_scientificText (s : NumberStyle) (d : Decimal) :
    ∀ c ∈ (s.scientificText d).toList, IsNumberChar c := by
  unfold scientificText
  extract_lets chars fraction mark
  have hchars : ∀ c ∈ chars, IsNumberChar c := isNumberChar_toString_nat d.digits
  have hfraction : ∀ c ∈ (if fraction.isEmpty then "" else "." ++ String.ofList fraction).toList,
      IsNumberChar c := by
    intro c hc
    split at hc
    · simp at hc
    · simp only [String.toList_append, String.toList_ofList, List.mem_append] at hc
      rcases hc with hc | hc
      · obtain rfl : c = '.' := by simpa using hc
        exact Or.inl (by decide)
      · exact hchars c (List.mem_of_mem_drop hc)
  have hmark : ∀ c ∈ mark.toList, IsNumberChar c := by
    intro c hc
    dsimp only [mark] at hc
    split at hc
    · have hcases : c = 'e' ∨ c = '+' := by simpa using hc
      exact Or.inr hcases
    · obtain rfl : c = 'e' := by simpa using hc
      exact Or.inr (Or.inl rfl)
  intro c hc
  simp only [String.toList_append, String.toList_ofList, List.mem_append] at hc
  rcases hc with ((hc | hc) | hc) | hc
  · exact hchars c (List.mem_of_mem_take hc)
  · exact hfraction c hc
  · exact hmark c hc
  · exact isNumberChar_toString_int _ c hc

/-- Finite numbers have no other characters, in either style and in plain and
scientific form.  The proof follows the text of a number through its parts and
never reads it. -/
theorem isNumberChar_finiteText (s : NumberStyle) (x : Float) :
    ∀ c ∈ (s.finiteText x).toList, IsNumberChar c := by
  unfold finiteText
  extract_lets d unsigned
  have hdecimal : ∀ d' : Decimal, ∀ c ∈ (s.decimalText d').toList, IsNumberChar c := by
    intro d' c hc
    rw [decimalText] at hc
    split at hc
    · exact Or.inl ((pointNumeral_positionalText d').isNumeric c hc)
    · exact isNumberChar_scientificText s d' c hc
  have hunsigned : ∀ c ∈ unsigned.toList, IsNumberChar c := by
    intro c hc
    dsimp only [unsigned] at hc
    split at hc
    · have hcases : c = '0' ∨ c = '.' ∨ c = '0' := by simpa using hc
      rcases hcases with rfl | rfl | rfl <;> exact Or.inl (by decide)
    · exact hdecimal _ c hc
  intro c hc
  split at hc
  · rw [String.toList_append] at hc
    rcases List.mem_append.mp hc with hc | hc
    · obtain rfl : c = '-' := by simpa using hc
      exact Or.inl (by decide)
    · exact hunsigned c hc
  · exact hunsigned c hc

end NumberStyle

namespace Json

/-- A finite number is not written as `null`. -/
theorem floatText_ne_null {x : Float} (hx : x.isFinite = true) : floatText x ≠ "null" := by
  intro hnull
  have hchar := NumberStyle.isNumberChar_finiteText NumberStyle.json x 'n'
  rw [floatText, NumberStyle.text?, if_pos hx, Option.getD_some] at hnull
  rw [hnull] at hchar
  rcases hchar (by decide) with h | h | h <;> cases h

theorem flat_floatText (x : Float) : ∀ c ∈ (floatText x).toList, Saved.Flat c := by
  intro c hc
  cases hx : x.isFinite with
  | true =>
      rw [floatText, NumberStyle.text?, if_pos hx] at hc
      exact (NumberStyle.isNumberChar_finiteText NumberStyle.json x c hc).flat
  | false =>
      have hnull : floatText x = "null" := by
        rw [floatText, NumberStyle.text?, hx]
        rfl
      rw [hnull] at hc
      have hcases : c = 'n' ∨ c = 'u' ∨ c = 'l' ∨ c = 'l' := by simpa using hc
      rcases hcases with rfl | rfl | rfl | rfl <;> decide

/-! ### Values -/

mutual

/-- How many brackets and braces lie inside one another at most. -/
def depth : Json → Nat
  | .null => 0
  | .bool _ => 0
  | .int _ => 0
  | .float _ => 0
  | .string _ => 0
  | .array items => depthOfItems items + 1
  | .object fields => depthOfFields fields + 1

/-- The greatest depth among the items of an array. -/
def depthOfItems : List Json → Nat
  | [] => 0
  | item :: rest => max item.depth (depthOfItems rest)

/-- The greatest depth among the values of the fields of an object. -/
def depthOfFields : List (String × Json) → Nat
  | [] => 0
  | (_, value) :: rest => max value.depth (depthOfFields rest)

end

mutual

/-- **A compact text opens as many brackets at once as lie inside one another in
its value.** Strings contribute nothing: a quote, a bracket and a backslash in a
string are all inside the literal that they are written in. -/
theorem opens_compact : (j : Json) → Saved.Opens j.depth j.compact.toList
  | .null => .of_flat (by simp [compact, Saved.Flat])
  | .bool true => .of_flat (by simp [compact, Saved.Flat])
  | .bool false => .of_flat (by simp [compact, Saved.Flat])
  | .int n => .of_flat fun c hc => (NumberStyle.isNumberChar_toString_int n c hc).flat
  | .float x => .of_flat (flat_floatText x)
  | .string s => .quote s
  | .array items => by
      rw [compact, depth, String.toList_append, String.toList_append]
      exact (opens_compactItems items).enclosed (.inl rfl) (.inl rfl)
  | .object fields => by
      rw [compact, depth, String.toList_append, String.toList_append]
      exact (opens_compactFields fields).enclosed (.inr rfl) (.inr rfl)

theorem opens_compactItems : (items : List Json) →
    Saved.Opens (depthOfItems items) (compactItems items).toList
  | [] => .of_flat (by simp [compactItems])
  | [item] => by
      rw [compactItems, depthOfItems, depthOfItems, Nat.max_zero]
      exact opens_compact item
  | item :: next :: rest => by
      rw [compactItems, depthOfItems, String.toList_append]
      exact (opens_compact item).separated.append (opens_compactItems (next :: rest))

theorem opens_compactFields : (fields : List (String × Json)) →
    Saved.Opens (depthOfFields fields) (compactFields fields).toList
  | [] => .of_flat (by simp [compactFields])
  | [(key, value)] => by
      rw [compactFields, depthOfFields, depthOfFields, Nat.max_zero]
      exact (opens_compact value).keyed key
  | (key, value) :: next :: rest => by
      rw [compactFields, depthOfFields, String.toList_append]
      have hfield := (opens_compact value).keyed key
      exact hfield.separated.append (opens_compactFields (next :: rest))

end

end Json

end StraightLine
