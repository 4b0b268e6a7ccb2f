import StraightLine.Proofs.Scanning

/-!
# Open brackets

How many brackets and braces a text has open at once, and how deep the value is that it spells.

## Main definitions

* `openBrackets` — the greatest number of brackets open at once in a text, string literals left out.
* `Tree.depth` — how many brackets lie inside one another in a value.

## Main statements

* `Spells.openBrackets_eq` — reading over a value, the number of open brackets rises by its depth.
-/

namespace StraightLine.Saved

variable {s s₁ rest : List Char}

/-- The greatest number of brackets open at once in a text, with `n` of them
open before it.  The flag tells whether the text starts inside a string literal,
where nothing opens or closes and a backslash takes the next character with it.

It is a function of the text alone and does not ask whether the text is well
formed, or which bracket is closed by which.  So it can be computed for any
text, and a limit on it is a condition that can be checked without reading. -/
def openBrackets : Bool → Nat → List Char → Nat
  | _, n, [] => n
  | true, n, '\\' :: _ :: s => openBrackets true n s
  | true, n, '"' :: s => openBrackets false n s
  | true, n, _ :: s => openBrackets true n s
  | false, n, c :: s =>
    if c = '"' then openBrackets true n s
    else if c = '[' ∨ c = '\x7b' then openBrackets false (n + 1) s
    else if c = ']' ∨ c = '\x7d' then max n (openBrackets false (n - 1) s)
    else openBrackets false n s

namespace Tree

mutual

/-- How many brackets and braces lie inside one another at most.  A value that
is no list and no object has none, so strings count nothing whatever they
contain. -/
def depth : Tree → Nat
  | .null => 0
  | .boolean _ => 0
  | .number _ => 0
  | .string _ => 0
  | .array items => depthOfItems items + 1
  | .object members => depthOfMembers members + 1

/-- The greatest depth among the items of a list. -/
def depthOfItems : List Tree → Nat
  | [] => 0
  | j :: js => max j.depth (depthOfItems js)

/-- The greatest depth among the values of the members of an object. -/
def depthOfMembers : List (List Piece × Tree) → Nat
  | [] => 0
  | (_, j) :: ms => max j.depth (depthOfMembers ms)

end

end Tree

/-! ### Outside of brackets and quotes -/

/-- Neither a bracket nor a quote.  Outside of string literals such a character
changes neither the count nor the flag. -/
def Flat (c : Char) : Prop :=
  c ≠ '"' ∧ c ≠ '[' ∧ c ≠ ']' ∧ c ≠ '\x7b' ∧ c ≠ '\x7d'

instance (c : Char) : Decidable (Flat c) :=
  inferInstanceAs (Decidable (_ ∧ _))

theorem openBrackets_cons_of_flat {c : Char} {n : Nat} (h : Flat c) :
    openBrackets false n (c :: s) = openBrackets false n s := by
  obtain ⟨hq, ho, hc, ho', hc'⟩ := h
  simp [openBrackets, hq, ho, hc, ho', hc']

theorem flat_of_isBlank {c : Char} (h : isBlank c = true) : Flat c := by
  obtain rfl | rfl | rfl | rfl := eq_of_isBlank h <;> decide

theorem flat_of_digit? {c : Char} {d : Nat} (h : digit? c = some d) : Flat c := by
  refine ⟨?_, ?_, ?_, ?_, ?_⟩ <;> rintro rfl <;> cases h

theorem Blanks.openBrackets_eq {n : Nat} (h : Blanks s rest) :
    openBrackets false n s = openBrackets false n rest := by
  induction h with
  | refl => rfl
  | blank hc _ ih => rw [openBrackets_cons_of_flat (flat_of_isBlank hc), ih]

theorem Digits.openBrackets_eq {ds : List Nat} {n : Nat} (h : Digits ds s rest) :
    openBrackets false n s = openBrackets false n rest := by
  induction h with
  | one hc => rw [openBrackets_cons_of_flat (flat_of_digit? hc)]
  | more hc _ ih => rw [openBrackets_cons_of_flat (flat_of_digit? hc), ih]

theorem Fraction.openBrackets_eq {f : Option (List Nat)} {n : Nat} (h : Fraction f s rest) :
    openBrackets false n s = openBrackets false n rest := by
  cases h with
  | absent => rfl
  | present hd => rw [openBrackets_cons_of_flat (by decide), hd.openBrackets_eq]

theorem ExponentSign.openBrackets_eq {negative : Bool} {n : Nat}
    (h : ExponentSign negative s rest) :
    openBrackets false n s = openBrackets false n rest := by
  cases h with
  | absent => rfl
  | plus | minus => rw [openBrackets_cons_of_flat (by decide)]

theorem Exponent.openBrackets_eq {e : Option (Bool × List Nat)} {n : Nat} (h : Exponent e s rest) :
    openBrackets false n s = openBrackets false n rest := by
  cases h with
  | absent => rfl
  | @present mark _ _ _ _ _ hm hs hd =>
    have hflat : Flat mark := by obtain rfl | rfl := hm <;> decide
    rw [openBrackets_cons_of_flat hflat, hs.openBrackets_eq, hd.openBrackets_eq]

theorem NumeralText.openBrackets_eq {m : Numeral} {n : Nat} (h : NumeralText m s rest) :
    openBrackets false n s = openBrackets false n rest := by
  have hunsigned {s rest} (h : Unsigned m s rest) :
      openBrackets false n s = openBrackets false n rest := by
    obtain ⟨hd, -, hf, he⟩ := h
    rw [hd.openBrackets_eq, hf.openBrackets_eq, he.openBrackets_eq]
  cases h with
  | plain _ hu => exact hunsigned hu
  | minus _ hu => rw [openBrackets_cons_of_flat (by decide), hunsigned hu]

/-! ### Inside of string literals -/

theorem openBrackets_plain {c : Char} {n : Nat} (hq : c ≠ '"') (hb : c ≠ '\\') :
    openBrackets true n (c :: s) = openBrackets true n s := by
  rw [openBrackets]
  · intro _ _ h
    exact (hb h).elim
  · exact hq

theorem hexValue?_quote : hexValue? '"' = none := by decide

theorem hexValue?_backslash : hexValue? '\\' = none := by decide

/-- A hexadecimal digit has no meaning of its own in a string literal. -/
theorem openBrackets_hex {c : Char} {i n : Nat} (h : hexValue? c = some i) :
    openBrackets true n (c :: s) = openBrackets true n s := by
  refine openBrackets_plain ?_ ?_
  · rintro rfl
    rw [hexValue?_quote] at h
    cases h
  · rintro rfl
    rw [hexValue?_backslash] at h
    cases h

theorem Pieces.openBrackets_eq {ps : List Piece} {n : Nat} (h : Pieces ps s rest) :
    openBrackets true n s = openBrackets false n rest := by
  induction h with
  | closed => rw [openBrackets]
  | plain hq hb _ _ ih => rw [openBrackets_plain hq hb, ih]
  | escape _ _ ih => rw [openBrackets, ih]
  | codeUnit ha hb hc hd _ ih =>
    rw [openBrackets, openBrackets_hex ha, openBrackets_hex hb, openBrackets_hex hc,
      openBrackets_hex hd, ih]

/-! ### Values -/

theorem le_openBrackets (inside : Bool) (n : Nat) (s : List Char) :
    n ≤ openBrackets inside n s := by
  fun_induction openBrackets inside n s <;> omega

theorem openBrackets_quote {n : Nat} (h : Blanks s ('"' :: rest)) :
    openBrackets false n s = openBrackets true n rest := by
  rw [h.openBrackets_eq, openBrackets, if_pos rfl]

theorem openBrackets_open {c : Char} {n : Nat} (hc : c = '[' ∨ c = '\x7b')
    (h : Blanks s (c :: rest)) : openBrackets false n s = openBrackets false (n + 1) rest := by
  rw [h.openBrackets_eq]
  obtain rfl | rfl := hc <;> rfl

theorem openBrackets_close {c : Char} {n : Nat} (hc : c = ']' ∨ c = '\x7d')
    (h : Blanks s (c :: rest)) :
    openBrackets false (n + 1) s = max (n + 1) (openBrackets false n rest) := by
  rw [h.openBrackets_eq]
  obtain rfl | rfl := hc <;> rfl

/-- Over the items of a list or the members of an object, the number of open
brackets rises by the depth of the deepest.  The closing bracket belongs to the
list, so one more is open before than after it. -/
theorem Listed.openBrackets_eq {α : Type} {Item : α → List Char → List Char → Prop} {close : Char}
    {first : Bool} {as : List α} {n : Nat} (depth : α → Nat) (hclose : close = ']' ∨ close = '\x7d')
    (hitem : ∀ {a s rest}, Item a s rest → ∀ n,
      openBrackets false n s = max (n + depth a) (openBrackets false n rest))
    (h : Listed Item close first as s rest) :
    openBrackets false (n + 1) s =
      max (n + 1 + (as.map depth).foldr max 0) (openBrackets false n rest) := by
  induction h with
  | closed hb => rw [openBrackets_close hclose hb, List.map_nil, List.foldr_nil, Nat.add_zero]
  | first ha _ ih =>
    rw [hitem ha, ih, List.map_cons, List.foldr_cons]
    omega
  | next hb ha _ ih =>
    rw [hb.openBrackets_eq, openBrackets_cons_of_flat (by decide), hitem ha, ih, List.map_cons,
      List.foldr_cons]
    omega

theorem depthOfItems_eq_foldr (js : List Tree) :
    Tree.depthOfItems js = (js.map Tree.depth).foldr max 0 := by
  induction js with
  | nil => rw [Tree.depthOfItems, List.map_nil, List.foldr_nil]
  | cons j js ih => rw [Tree.depthOfItems, ih, List.map_cons, List.foldr_cons]

theorem depthOfMembers_eq_foldr (ms : List (List Piece × Tree)) :
    Tree.depthOfMembers ms = (ms.map (·.2.depth)).foldr max 0 := by
  induction ms with
  | nil => rw [Tree.depthOfMembers, List.map_nil, List.foldr_nil]
  | cons m ms ih => rw [Tree.depthOfMembers, ih, List.map_cons, List.foldr_cons]

/-- Over a value the number of open brackets rises by the depth of the value,
and is then what it was before.  The maximum with what comes after the value
makes the statement composable: the rest of the text goes through unchanged. -/
theorem Spells.openBrackets_eq {j : Tree} {n : Nat} (h : Spells j s rest) :
    openBrackets false n s = max (n + j.depth) (openBrackets false n rest) := by
  induction h using Spells.induction generalizing n with
  | null hb | yes hb | no hb =>
    rw [hb.openBrackets_eq, Tree.depth, Nat.add_zero, Nat.max_eq_right (le_openBrackets ..)]
    rfl
  | number hb hn =>
    rw [hb.openBrackets_eq, hn.openBrackets_eq, Tree.depth, Nat.add_zero,
      Nat.max_eq_right (le_openBrackets ..)]
  | string hb hp =>
    rw [openBrackets_quote hb, hp.openBrackets_eq, Tree.depth, Nat.add_zero,
      Nat.max_eq_right (le_openBrackets ..)]
  | array hb _ ih =>
    rw [openBrackets_open (.inl rfl) hb, Tree.depth, depthOfItems_eq_foldr,
      ih.openBrackets_eq Tree.depth (.inl rfl)]
    · omega
    · rintro j s rest ⟨-, h⟩ n
      exact h
  | object hb _ ih =>
    rw [openBrackets_open (.inr rfl) hb, Tree.depth, depthOfMembers_eq_foldr,
      ih.openBrackets_eq (·.2.depth) (.inr rfl)]
    · omega
    · rintro m s rest ⟨hq, hk, hc, -, h⟩ n
      rw [openBrackets_quote hq, hk.openBrackets_eq, hc.openBrackets_eq,
        openBrackets_cons_of_flat (by decide), h]

end StraightLine.Saved
