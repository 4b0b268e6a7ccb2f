import StraightLine.Saved.Reader

/-!
# The grammar of JSON texts

Which texts spell which values, said without a reader.  A relation of the grammar has three places:
what is spelled, a text that starts with it, and the text after it.  Blanks before a value belong to
the value.

## Main definitions

* `Piece`, `Tree` — what a text can spell: string literals by their pieces, numbers by their digits,
  objects with all their members in order.
* `Pieces`, `NumeralText` — the spelling of string literals and of numbers.
* `Listed` — the items of a list or the members of an object, with their commas.
* `Spells` — the spelling of values.

## Main statements

* `Spells.induction` — induction over a spelling, with the hypothesis for every item and member.
* `Spells.length_lt` — a value takes at least one character.

## Design notes

* **String literals stay in pieces,** since a Unicode escape that is half of a surrogate pair spells
  no character.  It is no fault of the grammar: only a string that is used has to have characters.
* **Numbers are not cut off by the grammar.**  `12` spells the number 12, and also the number 1 with
  the text `2` after it; `Stops` says of a text that no number can go on into it.
-/

namespace StraightLine.Saved

/-! ### What is spelled -/

/-- A piece of a string literal: a character, or a code unit written as a
Unicode escape.  Simple escapes stand for a character each and need no piece of
their own. -/
inductive Piece where
  | character (c : Char)
  | codeUnit (n : Nat)
  deriving DecidableEq, Repr

/-- A JSON value as it is written.  Members keep their order and repeats, and a
number keeps its digits, since two spellings of one number may be read
differently. -/
inductive Tree where
  | null
  | boolean (b : Bool)
  | number (n : Numeral)
  | string (s : List Piece)
  | array (items : List Tree)
  | object (members : List (List Piece × Tree))

/-! ### Blanks and numbers -/

/-- `rest` is left after some blanks at the start of a text. -/
inductive Blanks : List Char → List Char → Prop where
  | refl (s : List Char) : Blanks s s
  | blank {c : Char} {s rest : List Char} :
      isBlank c = true → Blanks s rest → Blanks (c :: s) rest

/-- Decimal digits, at least one. -/
inductive Digits : List Nat → List Char → List Char → Prop where
  | one {c : Char} {s : List Char} {d : Nat} : digit? c = some d → Digits [d] (c :: s) s
  | more {c : Char} {s rest : List Char} {d : Nat} {ds : List Nat} :
      digit? c = some d → Digits ds s rest → Digits (d :: ds) (c :: s) rest

/-- A point and the digits after it, or nothing. -/
inductive Fraction : Option (List Nat) → List Char → List Char → Prop where
  | absent (s : List Char) : Fraction none s s
  | present {s rest : List Char} {ds : List Nat} :
      Digits ds s rest → Fraction (some ds) ('.' :: s) rest

/-- The sign of an exponent, or nothing, which is plus. -/
inductive ExponentSign : Bool → List Char → List Char → Prop where
  | absent (s : List Char) : ExponentSign false s s
  | plus (s : List Char) : ExponentSign false ('+' :: s) s
  | minus (s : List Char) : ExponentSign true ('-' :: s) s

/-- An exponent with its mark, or nothing. -/
inductive Exponent : Option (Bool × List Nat) → List Char → List Char → Prop where
  | absent (s : List Char) : Exponent none s s
  | present {mark : Char} {s s₁ rest : List Char} {negative : Bool} {ds : List Nat} :
      mark = 'e' ∨ mark = 'E' → ExponentSign negative s s₁ → Digits ds s₁ rest →
      Exponent (some (negative, ds)) (mark :: s) rest

/-- A number after its sign.  Its digits start with a zero only if that is the
whole part; this is the one condition on numbers that is not about single
characters. -/
inductive Unsigned : Numeral → List Char → List Char → Prop where
  | parts {n : Numeral} {s s₁ s₂ rest : List Char} :
      Digits n.whole s s₁ → (n.whole.head? = some 0 → n.whole = [0]) → Fraction n.fraction s₁ s₂ →
      Exponent n.exponent s₂ rest → Unsigned n s rest

/-- A number. -/
inductive NumeralText : Numeral → List Char → List Char → Prop where
  | plain {n : Numeral} {s rest : List Char} :
      n.negative = false → Unsigned n s rest → NumeralText n s rest
  | minus {n : Numeral} {s rest : List Char} :
      n.negative = true → Unsigned n s rest → NumeralText n ('-' :: s) rest

/-- No number that ends before this text could go on into it.  A scanner takes
as many characters as it can, so what it does is fixed by the grammar only in
front of such a text; commas, brackets, blanks and the end all are. -/
def Stops (s : List Char) : Prop :=
  ∀ c t, s = c :: t → digit? c = none ∧ c ≠ '.' ∧ c ≠ 'e' ∧ c ≠ 'E'

/-! ### String literals -/

/-- A string literal after its opening quote, with the closing quote.  Whether
the code units make characters is not asked here: a string that is passed over
may hold any of them. -/
inductive Pieces : List Piece → List Char → List Char → Prop where
  | closed (rest : List Char) : Pieces [] ('"' :: rest) rest
  | plain {c : Char} {s rest : List Char} {ps : List Piece} :
      c ≠ '"' → c ≠ '\\' → 0x20 ≤ c.toNat → Pieces ps s rest →
      Pieces (.character c :: ps) (c :: s) rest
  | escape {letter c : Char} {s rest : List Char} {ps : List Piece} :
      simpleEscape? letter = some c → Pieces ps s rest →
      Pieces (.character c :: ps) ('\\' :: letter :: s) rest
  | codeUnit {a b c d : Char} {i j k l : Nat} {s rest : List Char} {ps : List Piece} :
      hexValue? a = some i → hexValue? b = some j → hexValue? c = some k → hexValue? d = some l →
      Pieces ps s rest →
      Pieces (.codeUnit (((i * 16 + j) * 16 + k) * 16 + l) :: ps)
        ('\\' :: 'u' :: a :: b :: c :: d :: s) rest

/-- The characters that the pieces of a string literal stand for.  A code unit
in the surrogate range stands for a character only together with its partner;
alone it stands for none.  The partner has to be written as an escape too, right
behind the first half. -/
def characters? : List Piece → Option (List Char)
  | [] => some []
  | .character c :: ps => (characters? ps).map (c :: ·)
  | .codeUnit n :: ps =>
    if isLowSurrogate n then none
    else if isHighSurrogate n then
      match ps with
      | .codeUnit m :: ps =>
        if isLowSurrogate m then (characters? ps).map (pairedCharacter n m :: ·) else none
      | _ => none
    else (characters? ps).map (Char.ofNat n :: ·)

/-- A code unit outside the surrogate range is a character by itself. -/
theorem characters?_single {n : Nat} {ps : List Piece} (hlow : isLowSurrogate n = false)
    (hhigh : isHighSurrogate n = false) :
    characters? (.codeUnit n :: ps) = (characters? ps).map (Char.ofNat n :: ·) := by
  rw [characters?.eq_def]
  simp [hlow, hhigh]

/-- Two halves of a surrogate pair are one character. -/
theorem characters?_pair {n m : Nat} {ps : List Piece} (hlow : isLowSurrogate n = false)
    (hhigh : isHighSurrogate n = true) (hm : isLowSurrogate m = true) :
    characters? (.codeUnit n :: .codeUnit m :: ps) =
      (characters? ps).map (pairedCharacter n m :: ·) := by
  rw [characters?.eq_def]
  simp [hlow, hhigh, hm]

/-- The string that a string literal stands for, if it stands for one. -/
def text? (ps : List Piece) : Option String := (characters? ps).map String.ofList

/-! ### Values -/

/-- Items with commas between them up to and with a closing bracket.  The flag
tells whether the next item is the first one, which has no comma before it.

One relation serves lists and objects, with items and members in the place of
`Item`.  It has the shape of the loops that read them, flag included, so that an
induction over it runs along with such a loop. -/
inductive Listed {α : Type} (Item : α → List Char → List Char → Prop) (close : Char) :
    Bool → List α → List Char → List Char → Prop where
  | closed {first : Bool} {s rest : List Char} :
      Blanks s (close :: rest) → Listed Item close first [] s rest
  | first {a : α} {as : List α} {s s₁ rest : List Char} :
      Item a s s₁ → Listed Item close false as s₁ rest → Listed Item close true (a :: as) s rest
  | next {a : α} {as : List α} {s s₁ s₂ rest : List Char} :
      Blanks s (',' :: s₁) → Item a s₁ s₂ → Listed Item close false as s₂ rest →
      Listed Item close false (a :: as) s rest

/-- A member of an object: a key, a colon and a value. -/
inductive Member (Value : Tree → List Char → List Char → Prop) :
    List Piece × Tree → List Char → List Char → Prop where
  | keyed {key : List Piece} {value : Tree} {s s₁ s₂ s₃ rest : List Char} :
      Blanks s ('"' :: s₁) → Pieces key s₁ s₂ → Blanks s₂ (':' :: s₃) → Value value s₃ rest →
      Member Value (key, value) s rest

/-- A value, with any blanks before it.  Blanks behind a value belong to
whatever comes next, so every text has its blanks in one place only. -/
inductive Spells : Tree → List Char → List Char → Prop where
  | null {s rest : List Char} : Blanks s ('n' :: 'u' :: 'l' :: 'l' :: rest) → Spells .null s rest
  | yes {s rest : List Char} :
      Blanks s ('t' :: 'r' :: 'u' :: 'e' :: rest) → Spells (.boolean true) s rest
  | no {s rest : List Char} :
      Blanks s ('f' :: 'a' :: 'l' :: 's' :: 'e' :: rest) → Spells (.boolean false) s rest
  | number {n : Numeral} {s s₁ rest : List Char} :
      Blanks s s₁ → NumeralText n s₁ rest → Spells (.number n) s rest
  | string {ps : List Piece} {s s₁ rest : List Char} :
      Blanks s ('"' :: s₁) → Pieces ps s₁ rest → Spells (.string ps) s rest
  | array {items : List Tree} {s s₁ rest : List Char} :
      Blanks s ('[' :: s₁) → Listed Spells ']' true items s₁ rest → Spells (.array items) s rest
  | object {members : List (List Piece × Tree)} {s s₁ rest : List Char} :
      Blanks s ('\x7b' :: s₁) → Listed (Member Spells) '\x7d' true members s₁ rest →
      Spells (.object members) s rest

/-! ### Induction over a spelling -/

variable {s s₁ rest : List Char}

/-- Induction over a spelling: what holds of a list or an object may be
concluded from what holds of its items or of the values of its members.  Lists
and members are nested in `Spells`, so the induction principle that comes with
it would ask for three statements to be proved together. -/
theorem Spells.induction {motive : ∀ j s rest, Spells j s rest → Prop}
    (null : ∀ {s rest} (hb : Blanks s ('n' :: 'u' :: 'l' :: 'l' :: rest)), motive _ _ _ (.null hb))
    (yes : ∀ {s rest} (hb : Blanks s ('t' :: 'r' :: 'u' :: 'e' :: rest)), motive _ _ _ (.yes hb))
    (no : ∀ {s rest} (hb : Blanks s ('f' :: 'a' :: 'l' :: 's' :: 'e' :: rest)),
      motive _ _ _ (.no hb))
    (number : ∀ {n s s₁ rest} (hb : Blanks s s₁) (hn : NumeralText n s₁ rest),
      motive _ _ _ (.number hb hn))
    (string : ∀ {ps s s₁ rest} (hb : Blanks s ('"' :: s₁)) (hp : Pieces ps s₁ rest),
      motive _ _ _ (.string hb hp))
    (array : ∀ {items s s₁ rest} (hb : Blanks s ('[' :: s₁))
      (hl : Listed Spells ']' true items s₁ rest),
      Listed (fun j s rest => ∃ h, motive j s rest h) ']' true items s₁ rest →
      motive _ _ _ (.array hb hl))
    (object : ∀ {members s s₁ rest} (hb : Blanks s ('\x7b' :: s₁))
      (hl : Listed (Member Spells) '\x7d' true members s₁ rest),
      Listed (Member fun j s rest => ∃ h, motive j s rest h) '\x7d' true members s₁ rest →
      motive _ _ _ (.object hb hl))
    {j : Tree} {s rest : List Char} (h : Spells j s rest) : motive j s rest h := by
  refine Spells.rec (motive_1 := motive)
    (motive_2 := fun first items s rest _ =>
      Listed (fun j s rest => ∃ h, motive j s rest h) ']' first items s rest)
    (motive_3 := fun first members s rest _ =>
      Listed (Member fun j s rest => ∃ h, motive j s rest h) '\x7d' first members s rest)
    (motive_4 := fun m s rest _ => Member (fun j s rest => ∃ h, motive j s rest h) m s rest)
    ?_ ?_ ?_ ?_ ?_ ?_ ?_ ?_ ?_ ?_ ?_ ?_ ?_ ?_ h
  · exact null
  · exact yes
  · exact no
  · exact number
  · exact string
  · exact array
  · exact object
  · exact fun hb => .closed hb
  · exact fun hi _ ih ihs => .first ⟨hi, ih⟩ ihs
  · exact fun hb hi _ ih ihs => .next hb ⟨hi, ih⟩ ihs
  · exact fun hb => .closed hb
  · exact fun _ _ ih ihs => .first ih ihs
  · exact fun hb _ _ ih ihs => .next hb ih ihs
  · exact fun hq hk hc hv ih => .keyed hq hk hc ⟨hv, ih⟩

/-! ### Lengths -/

theorem Blanks.length_le (h : Blanks s rest) : rest.length ≤ s.length := by
  induction h with
  | refl s => exact Nat.le_refl _
  | blank _ _ ih => exact Nat.le_succ_of_le ih

/-- What follows blanks and one more character is shorter. -/
theorem Blanks.length_lt {c : Char} (h : Blanks s (c :: rest)) : rest.length < s.length :=
  h.length_le

theorem Digits.length_lt {ds : List Nat} (h : Digits ds s rest) : rest.length < s.length := by
  induction h with
  | one _ => exact Nat.lt_succ_self _
  | more _ _ ih => exact Nat.lt_succ_of_lt ih

theorem Fraction.length_le {f : Option (List Nat)} (h : Fraction f s rest) :
    rest.length ≤ s.length := by
  cases h with
  | absent => exact Nat.le_refl _
  | present hd => exact Nat.le_succ_of_le (Nat.le_of_lt hd.length_lt)

theorem ExponentSign.length_le {negative : Bool} (h : ExponentSign negative s rest) :
    rest.length ≤ s.length := by
  cases h <;> simp

theorem Exponent.length_le {e : Option (Bool × List Nat)} (h : Exponent e s rest) :
    rest.length ≤ s.length := by
  cases h with
  | absent => exact Nat.le_refl _
  | present _ hs hd =>
    have hlt := hd.length_lt
    have hle := hs.length_le
    simp only [List.length_cons]
    omega

theorem Unsigned.length_lt {n : Numeral} (h : Unsigned n s rest) : rest.length < s.length := by
  obtain ⟨hw, -, hf, he⟩ := h
  have hlt := hw.length_lt
  have hle := hf.length_le
  have hle' := he.length_le
  omega

theorem NumeralText.length_lt {n : Numeral} (h : NumeralText n s rest) :
    rest.length < s.length := by
  cases h with
  | plain _ hu => exact hu.length_lt
  | minus _ hu => exact Nat.lt_succ_of_lt hu.length_lt

theorem Pieces.length_lt {ps : List Piece} (h : Pieces ps s rest) : rest.length < s.length := by
  induction h <;> simp only [List.length_cons] at * <;> omega

/-- A list or object takes at least one character for each item, and one for its
end.  So a loop that is bounded by the length of its text is never stopped by
the bound. -/
theorem Listed.length_add_lt {α : Type} {Item : α → List Char → List Char → Prop} {close : Char}
    {first : Bool} {as : List α} (hi : ∀ a s rest, Item a s rest → rest.length < s.length)
    (h : Listed Item close first as s rest) : as.length + rest.length < s.length := by
  induction h with
  | closed hb =>
    have := hb.length_lt
    simpa using this
  | first ha _ ih =>
    have := hi _ _ _ ha
    simp only [List.length_cons]
    omega
  | next hb ha _ ih =>
    have := hi _ _ _ ha
    have := hb.length_lt
    simp only [List.length_cons]
    omega

theorem Member.length_lt {Value : Tree → List Char → List Char → Prop} {m : List Piece × Tree}
    (hv : ∀ j s rest, Value j s rest → rest.length < s.length) (h : Member Value m s rest) :
    rest.length < s.length := by
  obtain ⟨hq, hk, hc, hj⟩ := h
  have := hv _ _ _ hj
  have := hc.length_lt
  have := hk.length_lt
  have := hq.length_lt
  omega

/-- A value takes at least one character. -/
theorem Spells.length_lt {j : Tree} (h : Spells j s rest) : rest.length < s.length := by
  induction h using Spells.induction with
  | null hb | yes hb | no hb =>
    have := hb.length_lt
    simp only [List.length_cons] at this
    omega
  | number hb hn => exact Nat.lt_of_lt_of_le hn.length_lt hb.length_le
  | string hb hp => exact Nat.lt_trans hp.length_lt hb.length_lt
  | array hb _ ih =>
    have := ih.length_add_lt fun _ _ _ ⟨_, h⟩ => h
    have := hb.length_lt
    omega
  | object hb _ ih =>
    have := ih.length_add_lt fun _ _ _ h => h.length_lt fun _ _ _ ⟨_, h⟩ => h
    have := hb.length_lt
    omega

end StraightLine.Saved
