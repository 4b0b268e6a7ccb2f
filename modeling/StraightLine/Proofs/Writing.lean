import StraightLine.Proofs.Acceptance
import StraightLine.Saved.Writer

/-!
# Compact JSON texts and the grammar

The compact text of a value spells a value of the grammar, with the same strings and numbers.

## Main definitions

* `WrittenBy` — a text spells something whatever text follows it.
* `piecesOf` — the pieces of a string literal as it is written.

## Main statements

* `written_quote`, `written_int` — string literals and integers.
* `written_array`, `written_object` — lists and objects, from their items and fields.

## Design notes

* **Nothing follows but blanks.**  A number that is known only by being read could have blanks at
  the end of its text, so a written value may leave blanks over.  The grammar takes them before
  whatever comes next.
-/

namespace StraightLine.Saved

variable {s s₁ rest : List Char}

/-- Behind any text that follows, the text spells `a` and leaves nothing over
but blanks.  The text behind is arbitrary because a written value stands in
front of commas and brackets that are put there later. -/
def WrittenBy {α : Type} (Item : α → List Char → List Char → Prop) (a : α) (text : List Char) :
    Prop :=
  ∀ rest, ∃ s, Item a (text ++ rest) s ∧ Blanks s rest

/-! ### String literals -/

/-- The control characters that have an escape of their own. -/
def shortEscapes : List Char := ['\x08', '\t', '\n', '\x0c', '\r']

/-- The piece that a character is written as.  A control character without an
escape of its own is written by its number, any other character as itself or by
a letter. -/
def pieceOf (c : Char) : Piece :=
  if c.toNat < 0x20 ∧ c ∉ shortEscapes then .codeUnit c.toNat else .character c

/-- The pieces that a string is written as. -/
def piecesOf (s : String) : List Piece := s.toList.map pieceOf

theorem readQuad_hexQuad : ∀ n < 0x20, readQuad (Json.hexQuad n) = .ok (n, []) := by decide

/-- A character is written as its piece. -/
theorem Pieces.escape_append {ps : List Piece} (h : Pieces ps s rest) (c : Char) :
    Pieces (pieceOf c :: ps) (Json.escape c ++ s) rest := by
  unfold Json.escape
  split
  · exact .escape rfl h
  · exact .escape rfl h
  · exact .escape rfl h
  · exact .escape rfl h
  · exact .escape rfl h
  · exact .escape rfl h
  · exact .escape rfl h
  · rename_i hquote hback hb ht hn hf hr
    have hshort : c ∉ shortEscapes := by
      simp only [shortEscapes, List.mem_cons, List.not_mem_nil, or_false, not_or]
      exact ⟨hb, ht, hn, hf, hr⟩
    split
    · rename_i hlt
      obtain ⟨a, b, d, e, i, j, k, l, hquad, ha, hb, hd, he, hvalue⟩ :=
        readQuad_eq_ok_iff.1 (readQuad_hexQuad c.toNat hlt)
      rw [pieceOf, if_pos ⟨hlt, hshort⟩, hquad, hvalue]
      exact .codeUnit ha hb hd he h
    · rename_i hlt
      rw [pieceOf, if_neg fun hc => hlt hc.1]
      exact .plain hquote hback (Nat.le_of_not_lt hlt) h

/-- The characters of a string literal are the characters that were written.
Code units are only written for control characters, so there are no surrogates
to be paired. -/
theorem characters?_map_pieceOf (cs : List Char) : characters? (cs.map pieceOf) = some cs := by
  induction cs with
  | nil => rfl
  | cons c cs ih =>
    rw [List.map_cons, pieceOf]
    split
    · rename_i hc
      have hlow : isLowSurrogate c.toNat = false := by simp [isLowSurrogate]; omega
      have hhigh : isHighSurrogate c.toNat = false := by simp [isHighSurrogate]; omega
      rw [characters?_single hlow hhigh, ih, Option.map_some, Char.ofNat_toNat]
    · rw [characters?, ih, Option.map_some]

@[simp] theorem text?_piecesOf (s : String) : text? (piecesOf s) = some s := by
  rw [text?, piecesOf, characters?_map_pieceOf, Option.map_some, String.ofList_toList]

/-- A string literal behind its opening quote. -/
theorem pieces_escape (cs : List Char) :
    Pieces (cs.map pieceOf) (cs.flatMap Json.escape ++ '"' :: rest) rest := by
  induction cs with
  | nil => exact .closed rest
  | cons c cs ih =>
    rw [List.flatMap_cons, List.append_assoc]
    exact ih.escape_append c

theorem toList_quote (s : String) :
    (Json.quote s).toList = '"' :: (s.toList.flatMap Json.escape ++ ['"']) := by
  simp [Json.quote]

theorem written_quote (s : String) :
    WrittenBy Spells (.string (piecesOf s)) (Json.quote s).toList := by
  intro rest
  have htext : (Json.quote s).toList ++ rest =
      '"' :: (s.toList.flatMap Json.escape ++ '"' :: rest) := by
    simp [toList_quote]
  rw [htext]
  exact ⟨rest, .string (.refl _) (pieces_escape s.toList), .refl _⟩

/-! ### Integers -/

theorem digit?_digitChar : ∀ d < 10, digit? (Nat.digitChar d) = some d := by decide

theorem Digits.snoc {ds : List Nat} {c : Char} {d : Nat} (h : Digits ds s (c :: rest))
    (hc : digit? c = some d) : Digits (ds ++ [d]) s rest := by
  generalize ht : c :: rest = t at h
  induction h with
  | one hc' =>
    subst ht
    exact .more hc' (.one hc)
  | more hc' _ ih => exact .more hc' (ih ht)

theorem ofDigits_append (ds : List Nat) (d : Nat) :
    Numeral.ofDigits (ds ++ [d]) = 10 * Numeral.ofDigits ds + d := by
  rw [Numeral.ofDigits, List.foldl_append]
  rfl

/-- The decimal digits of a natural number are the whole part of a numeral, with
no zero in front unless the number is zero. -/
theorem exists_digits (n : Nat) :
    ∃ ds, (∀ rest, Digits ds (Nat.toDigits 10 n ++ rest) rest) ∧ Numeral.ofDigits ds = n ∧
      (ds.head? = some 0 → ds = [0]) := by
  induction n using Nat.strongRecOn with
  | ind n ih =>
    by_cases hn : n < 10
    · refine ⟨[n], fun rest => ?_, by simp [Numeral.ofDigits], by simp⟩
      rw [Nat.toDigits_of_lt_base hn]
      exact .one (digit?_digitChar n hn)
    · obtain ⟨ds, hds, hval, hzero⟩ := ih (n / 10) (by omega)
      refine ⟨ds ++ [n % 10], fun rest => ?_, ?_, ?_⟩
      · rw [Nat.toDigits_of_base_le (by decide) (by omega), List.append_assoc]
        exact (hds _).snoc (digit?_digitChar _ (Nat.mod_lt _ (by decide)))
      · rw [ofDigits_append, hval]
        omega
      · intro hhead
        have hne : ds ≠ [] := by
          rintro rfl
          cases hds []
        rw [List.head?_append_of_ne_nil _ hne] at hhead
        rw [hzero hhead] at hval
        simp only [Numeral.ofDigits, List.foldl_cons, List.foldl_nil] at hval
        omega

/-- An integer is spelled by its text, and nothing behind it is taken.  This is
about one spelling: where a digit follows, the grammar has others. -/
theorem spells_int (i : Int) :
    ∃ n : Numeral, n.IsInteger ∧ n.signed = i ∧
      ∀ rest, Spells (.number n) ((toString i).toList ++ rest) rest := by
  cases i with
  | ofNat m =>
    obtain ⟨ds, hds, hval, hzero⟩ := exists_digits m
    refine ⟨⟨false, ds, none, none⟩, ⟨rfl, rfl, by simp⟩, by simp [Numeral.signed, hval], ?_⟩
    intro rest
    have htext : (toString (Int.ofNat m)).toList = Nat.toDigits 10 m := Nat.toList_repr
    rw [htext]
    exact .number (.refl _) (.plain rfl (.parts (hds rest) hzero (.absent _) (.absent _)))
  | negSucc m =>
    obtain ⟨ds, hds, hval, hzero⟩ := exists_digits (m + 1)
    refine ⟨⟨true, ds, none, none⟩, ⟨rfl, rfl, by simp [hval]⟩, ?_, ?_⟩
    · simp only [Numeral.signed, hval, if_true]
      omega
    · intro rest
      have htext : (toString (Int.negSucc m)).toList = '-' :: Nat.toDigits 10 (m + 1) := by
        have : toString (Int.negSucc m) = "-" ++ (m + 1).repr := rfl
        rw [this, String.toList_append, Nat.toList_repr]
        rfl
      rw [htext]
      exact .number (.refl _) (.minus rfl (.parts (hds rest) hzero (.absent _) (.absent _)))

theorem written_int (i : Int) :
    ∃ n : Numeral, n.IsInteger ∧ n.signed = i ∧
      WrittenBy Spells (.number n) (toString i).toList := by
  obtain ⟨n, hint, hsigned, hspells⟩ := spells_int i
  exact ⟨n, hint, hsigned, fun rest => ⟨rest, hspells rest, .refl _⟩⟩

/-! ### Numbers that are known by being read -/

theorem Digits.append {ds : List Nat} (h : Digits ds s rest) (t : List Char) :
    Digits ds (s ++ t) (rest ++ t) := by
  induction h with
  | one hc => exact .one hc
  | more hc _ ih => exact .more hc ih

theorem Fraction.append {f : Option (List Nat)} (h : Fraction f s rest) (t : List Char) :
    Fraction f (s ++ t) (rest ++ t) := by
  cases h with
  | absent => exact .absent _
  | present hd => exact .present (hd.append t)

theorem ExponentSign.append {negative : Bool} (h : ExponentSign negative s rest) (t : List Char) :
    ExponentSign negative (s ++ t) (rest ++ t) := by
  cases h with
  | absent => exact .absent _
  | plus => exact .plus _
  | minus => exact .minus _

theorem Exponent.append {e : Option (Bool × List Nat)} (h : Exponent e s rest) (t : List Char) :
    Exponent e (s ++ t) (rest ++ t) := by
  cases h with
  | absent => exact .absent _
  | present hm hs hd => exact .present hm (hs.append t) (hd.append t)

theorem Unsigned.append {n : Numeral} (h : Unsigned n s rest) (t : List Char) :
    Unsigned n (s ++ t) (rest ++ t) := by
  obtain ⟨hd, hz, hf, he⟩ := h
  exact .parts (hd.append t) hz (hf.append t) (he.append t)

theorem NumeralText.append {n : Numeral} (h : NumeralText n s rest) (t : List Char) :
    NumeralText n (s ++ t) (rest ++ t) := by
  cases h with
  | plain hn hu => exact .plain hn (hu.append t)
  | minus hn hu => exact .minus hn (hu.append t)

theorem Blanks.append (h : Blanks s rest) (t : List Char) : Blanks (s ++ t) (rest ++ t) := by
  induction h with
  | refl => exact .refl _
  | blank hc _ ih => exact .blank hc ih

/-- A number that a whole text spells is written by it.  Nothing needs to be
known of its digits, and that makes floating literals writable without computing
them. -/
theorem written_of_spells {n : Numeral} (h : Spells (.number n) s rest) (hb : Blanks rest []) :
    WrittenBy Spells (.number n) s := by
  intro t
  cases h with
  | number hs hn => exact ⟨rest ++ t, .number (hs.append t) (hn.append t), hb.append t⟩

/-! ### Lists and objects -/

/-- Texts with commas between them. -/
def commaSeparated : List (List Char) → List Char
  | [] => []
  | [text] => text
  | text :: next :: texts => text ++ ',' :: commaSeparated (next :: texts)

theorem toList_compactItems (items : List Json) :
    (Json.compactItems items).toList = commaSeparated (items.map (·.compact.toList)) := by
  induction items with
  | nil => rfl
  | cons item rest ih =>
    cases rest with
    | nil => rfl
    | cons next rest =>
      rw [Json.compactItems, String.toList_append, String.toList_append, ih]
      simp [commaSeparated]

/-- A field as it is written. -/
def fieldText (f : String × Json) : List Char :=
  (Json.quote f.1).toList ++ ':' :: f.2.compact.toList

theorem toList_compactFields (fields : List (String × Json)) :
    (Json.compactFields fields).toList = commaSeparated (fields.map fieldText) := by
  induction fields with
  | nil => rfl
  | cons f rest ih =>
    cases rest with
    | nil => simp [Json.compactFields, commaSeparated, fieldText]
    | cons next rest =>
      rw [Json.compactFields, String.toList_append, ih]
      simp [commaSeparated, fieldText]

section Collections

variable {α : Type} {Item : α → List Char → List Char → Prop} {close : Char}

/-- Written items with commas between them are listed, the first one without a
comma before it and any other behind one.  Blanks may stand before the closing
bracket.

Both forms are proved at once, since the rest of a list is one behind a comma.
The blanks that an item leaves over are taken by the comma or the bracket behind
it. -/
theorem listed_commaSeparated {a : α} {as : List α} {text : List Char} {texts : List (List Char)}
    {tail : List Char} (ha : WrittenBy Item a text) (has : List.Forall₂ (WrittenBy Item) as texts)
    (htail : Blanks tail (close :: rest)) :
    Listed Item close true (a :: as) (commaSeparated (text :: texts) ++ tail) rest ∧
    ∀ s, Blanks s (',' :: (commaSeparated (text :: texts) ++ tail)) →
      Listed Item close false (a :: as) s rest := by
  induction has generalizing a text with
  | nil =>
    obtain ⟨u, hu, hb⟩ := ha tail
    have hclosed := hb.trans htail
    exact ⟨.first hu (.closed hclosed), fun s hs => .next hs hu (.closed hclosed)⟩
  | @cons next nextText as texts hnext has ih =>
    obtain ⟨u, hu, hb⟩ := ha (',' :: (commaSeparated (nextText :: texts) ++ tail))
    have hl := (ih hnext).2 u hb
    rw [commaSeparated, List.append_assoc]
    exact ⟨.first hu hl, fun s hs => .next hs hu hl⟩

theorem listed_of_written {as : List α} {texts : List (List Char)} {tail : List Char}
    (has : List.Forall₂ (WrittenBy Item) as texts) (htail : Blanks tail (close :: rest)) :
    Listed Item close true as (commaSeparated texts ++ tail) rest := by
  cases has with
  | nil => exact .closed htail
  | cons ha has => exact (listed_commaSeparated ha has htail).1

end Collections

theorem written_array {js : List Tree} {items : List Json}
    (h : List.Forall₂ (fun j item => WrittenBy Spells j item.compact.toList) js items) :
    WrittenBy Spells (.array js) (Json.array items).compact.toList := by
  intro rest
  have hl : Listed Spells ']' true js
      (commaSeparated (items.map (·.compact.toList)) ++ ']' :: rest) rest :=
    listed_of_written (List.forall₂_map_right_iff.2 h) (.refl _)
  have htext : (Json.array items).compact.toList ++ rest =
      '[' :: (commaSeparated (items.map (·.compact.toList)) ++ ']' :: rest) := by
    simp [Json.compact, toList_compactItems]
  rw [htext]
  exact ⟨rest, .array (.refl _) hl, .refl _⟩

theorem written_member {key : String} {j : Tree} {value : Json}
    (h : WrittenBy Spells j value.compact.toList) :
    WrittenBy (Member Spells) (piecesOf key, j) (fieldText (key, value)) := by
  intro rest
  obtain ⟨u, hu, hb⟩ := h rest
  have htext : fieldText (key, value) ++ rest = '"' :: (key.toList.flatMap Json.escape ++
      '"' :: ':' :: (value.compact.toList ++ rest)) := by
    simp [fieldText, toList_quote]
  rw [htext]
  exact ⟨u, .keyed (.refl _) (pieces_escape key.toList) (.refl _) hu, hb⟩

/-- An object is written with its keys and the texts of its values.  The values
of the grammar and of JSON are given side by side, so that each part of a
program has to be looked at once. -/
theorem written_object (parts : List (String × Tree × Json))
    (h : ∀ p ∈ parts, WrittenBy Spells p.2.1 p.2.2.compact.toList) :
    WrittenBy Spells (.object (parts.map fun p => (piecesOf p.1, p.2.1)))
      (Json.object (parts.map fun p => (p.1, p.2.2))).compact.toList := by
  intro rest
  have hl : Listed (Member Spells) '\x7d' true (parts.map fun p => (piecesOf p.1, p.2.1))
      (commaSeparated ((parts.map fun p => (p.1, p.2.2)).map fieldText) ++ '\x7d' :: rest)
      rest := by
    refine listed_of_written ?_ (.refl _)
    rw [List.map_map, List.forall₂_map_left_iff, List.forall₂_map_right_iff, List.forall₂_same]
    exact fun p hp => written_member (h p hp)
  have htext : (Json.object (parts.map fun p => (p.1, p.2.2))).compact.toList ++ rest =
      '\x7b' :: (commaSeparated ((parts.map fun p => (p.1, p.2.2)).map fieldText) ++
        '\x7d' :: rest) := by
    simp only [Json.compact, String.toList_append, toList_compactFields, List.append_assoc]
    rfl
  rw [htext]
  exact ⟨rest, .object (.refl _) hl, .refl _⟩

end StraightLine.Saved
