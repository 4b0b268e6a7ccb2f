import Mathlib.Data.List.Forall2
import StraightLine.Proofs.Scanning

/-!
# Lists, objects and the grammar

Lists are read item by item and objects member by member, whatever reads the items and the values.

## Main definitions

* `Reads` — a reader takes exactly the values that a relation gives a result for.
* `ReadsField`, `Folds` — the same for the reader of the fields of an object, and for all members of
  an object in a row.

## Main statements

* `Spells.head` — a value starts with a character that closes nothing.
* `Reads.items_eq_ok_iff`, `ReadsField.fields_eq_ok_iff` — whole lists and objects.
-/

namespace StraightLine.Saved

variable {s s₁ rest : List Char}

/-! ### The start of a value -/

/-- Blanks stop a number if what follows them does. -/
theorem Blanks.stops_of_stops (h : Blanks s rest) (hr : Stops rest) : Stops s := by
  cases h with
  | refl => exact hr
  | blank hb _ =>
    rintro d t ⟨⟩
    obtain rfl | rfl | rfl | rfl := eq_of_isBlank hb <;> decide

/-- What follows a value in a list or an object stops a number.  Wherever a
value is read there is therefore a text behind it as `Reads` asks for, and no
lemma has to speak of numbers apart. -/
theorem Blanks.stops {c : Char} (h : Blanks s (c :: rest)) (hc : c = ',' ∨ c = ']' ∨ c = '\x7d') :
    Stops s := by
  refine h.stops_of_stops ?_
  rintro d t ⟨⟩
  obtain rfl | rfl | rfl := hc <;> decide

/-- The end of the text stops a number. -/
theorem Blanks.stops_of_end (h : Blanks s []) : Stops s := by
  refine h.stops_of_stops ?_
  rintro d t ⟨⟩

theorem Digits.head {ds : List Nat} (h : Digits ds s rest) :
    ∃ c t, s = c :: t ∧ (digit? c).isSome := by
  cases h with
  | one hc | more hc _ => exact ⟨_, _, rfl, by rw [hc]; rfl⟩

theorem isBlank_of_digit {c : Char} (h : (digit? c).isSome) : isBlank c = false := by
  rw [Bool.eq_false_iff]
  intro hblank
  obtain rfl | rfl | rfl | rfl := eq_of_isBlank hblank <;> exact absurd h (by decide)

theorem NumeralText.head {n : Numeral} (h : NumeralText n s rest) :
    ∃ c t, s = c :: t ∧ (c = '-' ∨ (digit? c).isSome) := by
  cases h with
  | plain _ hu =>
    obtain ⟨hd, -⟩ := hu
    obtain ⟨c, t, rfl, hc⟩ := hd.head
    exact ⟨c, t, rfl, .inr hc⟩
  | minus => exact ⟨_, _, rfl, .inl rfl⟩

/-- A value starts, behind its blanks, with a character that closes nothing.  So
a list that is not at its end can be told from one that is by a single
character. -/
theorem Spells.head {j : Tree} (h : Spells j s rest) :
    ∃ c t, skipBlanks s = c :: t ∧ Spells j (c :: t) rest ∧ c ≠ ']' ∧ c ≠ '\x7d' := by
  cases h with
  | null hb => exact ⟨_, _, (skipBlanks_eq_cons_iff rfl).2 hb, .null (.refl _), by decide⟩
  | yes hb => exact ⟨_, _, (skipBlanks_eq_cons_iff rfl).2 hb, .yes (.refl _), by decide⟩
  | no hb => exact ⟨_, _, (skipBlanks_eq_cons_iff rfl).2 hb, .no (.refl _), by decide⟩
  | string hb hp =>
    exact ⟨_, _, (skipBlanks_eq_cons_iff rfl).2 hb, .string (.refl _) hp, by decide⟩
  | array hb hl =>
    exact ⟨_, _, (skipBlanks_eq_cons_iff rfl).2 hb, .array (.refl _) hl, by decide⟩
  | object hb hl =>
    exact ⟨_, _, (skipBlanks_eq_cons_iff rfl).2 hb, .object (.refl _) hl, by decide⟩
  | number hb hn =>
    obtain ⟨c, t, rfl, hc⟩ := hn.head
    refine ⟨c, t, (skipBlanks_eq_cons_iff ?_).2 hb, .number (.refl _) hn, ?_⟩
    · obtain rfl | hc := hc
      · rfl
      · exact isBlank_of_digit hc
    · constructor <;> rintro rfl <;> exact absurd hc (by decide)

theorem Spells.of_blanks {j : Tree} (hb : Blanks s s₁) (h : Spells j s₁ rest) :
    Spells j s rest := by
  cases h with
  | null h => exact .null (hb.trans h)
  | yes h => exact .yes (hb.trans h)
  | no h => exact .no (hb.trans h)
  | number h hn => exact .number (hb.trans h) hn
  | string h hp => exact .string (hb.trans h) hp
  | array h hl => exact .array (hb.trans h) hl
  | object h hl => exact .object (hb.trans h) hl

theorem spells_skipBlanks_iff {j : Tree} : Spells j (skipBlanks s) rest ↔ Spells j s rest := by
  refine ⟨.of_blanks (blanks_skipBlanks s), fun h => ?_⟩
  obtain ⟨c, t, hs, hj, -⟩ := h.head
  exact hs ▸ hj

/-! ### Lists -/

/-- The reader takes exactly the values that `Result` gives a result for, and
returns that result, wherever the text after the value stops a number.

Both directions are in one statement, since a reader of a list needs both of the
reader of its items: what it took was an item, and an item would have been
taken.  Which problem is reported otherwise is left open. -/
def Reads {α : Type} (reader : Reader α) (Result : Tree → α → Prop) : Prop :=
  ∀ ⦃s a rest⦄, Stops rest → (reader s = .ok (a, rest) ↔ ∃ j, Spells j s rest ∧ Result j a)

theorem nextItem_eq_closed_iff {first : Bool} :
    nextItem first s = .ok (.closed rest) ↔ Blanks s (']' :: rest) := by
  rw [← skipBlanks_eq_cons_iff rfl, nextItem]
  split
  · simp_all
  · simp_all
  · split
    · simp_all
    · split
      · split <;> simp_all
      · simp_all

theorem nextItem_first_eq_more_iff :
    nextItem true s = .ok (.more rest) ↔
      skipBlanks s = rest ∧ rest ≠ [] ∧ ∀ t, rest ≠ ']' :: t := by
  rw [nextItem]
  split <;> simp_all <;> grind

/-- A further item stands, behind its comma, where a first one could stand. -/
theorem nextItem_next_eq_more_iff :
    nextItem false s = .ok (.more rest) ↔
      ∃ s₁, Blanks s (',' :: s₁) ∧ nextItem true s₁ = .ok (.more rest) := by
  simp only [← skipBlanks_eq_cons_iff (show isBlank ',' = false from rfl),
    nextItem_first_eq_more_iff]
  rw [nextItem]
  split
  · simp_all
  · simp_all
  · split
    · simp_all
    · split
      · split <;> simp_all <;> grind
      · simp_all

/-- Where a value stands, an item follows. -/
theorem Spells.nextItem_eq {j : Tree} (h : Spells j s rest) :
    nextItem true s = .ok (.more (skipBlanks s)) := by
  obtain ⟨c, t, hs, -, hc, -⟩ := h.head
  rw [nextItem_first_eq_more_iff, hs]
  simpa using hc

/-- What follows an item of a list or a member of an object stops a number. -/
theorem Listed.stops {α : Type} {Item : α → List Char → List Char → Prop} {close : Char}
    {as : List α} (h : Listed Item close false as s rest) (hc : close = ']' ∨ close = '\x7d') :
    Stops s := by
  cases h with
  | closed hb => exact hb.stops (.inr hc)
  | next hb => exact hb.stops (.inl rfl)

section Items

variable {α : Type} {item : Reader α} {Result : Tree → α → Prop} {a : α} {as : List α}
  {js : List Tree} {first : Bool} {bound : Nat}

theorem Reads.spells_of_skipBlanks (h : Reads item Result) (hs : Stops rest)
    (ha : item (skipBlanks s) = .ok (a, rest)) : ∃ j, Spells j s rest ∧ Result j a := by
  simpa only [spells_skipBlanks_iff] using (h hs).1 ha

/-- What is read as items is a list of the grammar.  The induction is on the
bound, and each turn of the loop adds one item in front. -/
theorem listed_of_itemsWithin (h : Reads item Result)
    (hi : itemsWithin item bound first s = .ok (as, rest)) :
    ∃ js, Listed Spells ']' first js s rest ∧ List.Forall₂ Result js as := by
  induction bound generalizing first s as with
  | zero => cases hi
  | succ bound ih =>
    rw [itemsWithin] at hi
    split at hi
    · cases hi
    · rename_i hn
      obtain ⟨rfl, rfl⟩ := by simpa using hi
      exact ⟨[], .closed (nextItem_eq_closed_iff.1 hn), .nil⟩
    · rename_i hn
      split at hi
      · cases hi
      · rename_i ha
        obtain ⟨⟨as, r⟩, hw, heq⟩ := Except.map_eq_ok_iff.1 hi
        obtain ⟨rfl, rfl⟩ := by simpa using heq
        obtain ⟨js, hl, hjs⟩ := ih hw
        have hstops := hl.stops (.inl rfl)
        cases first with
        | true =>
          obtain ⟨rfl, -⟩ := nextItem_first_eq_more_iff.1 hn
          obtain ⟨j, hj, hr⟩ := h.spells_of_skipBlanks hstops ha
          exact ⟨j :: js, .first hj hl, .cons hr hjs⟩
        | false =>
          obtain ⟨s₁, hb, hn⟩ := nextItem_next_eq_more_iff.1 hn
          obtain ⟨rfl, -⟩ := nextItem_first_eq_more_iff.1 hn
          obtain ⟨j, hj, hr⟩ := h.spells_of_skipBlanks hstops ha
          exact ⟨j :: js, .next hb hj hl, .cons hr hjs⟩

/-- An item that is read stands in front of the items read behind it. -/
theorem itemsWithin_more {s₂ : List Char} (hn : nextItem first s = .ok (.more s₁))
    (ha : item s₁ = .ok (a, s₂)) (hw : itemsWithin item bound false s₂ = .ok (as, rest)) :
    itemsWithin item (bound + 1) first s = .ok (a :: as, rest) := by
  simp only [itemsWithin, hn, ha, hw]
  rfl

/-- A list of the grammar is read, if the bound is greater than the number of
its items.  The induction is on the list, whose flag is the one that the loop
carries. -/
theorem Listed.itemsWithin_eq (h : Reads item Result) (hl : Listed Spells ']' first js s rest)
    (hjs : List.Forall₂ Result js as) (hb : js.length < bound) :
    itemsWithin item bound first s = .ok (as, rest) := by
  induction hl generalizing as bound with
  | closed hc =>
    cases hjs
    cases bound with
    | zero => cases hb
    | succ bound => rw [itemsWithin, nextItem_eq_closed_iff.2 hc]
  | first hj hl ih =>
    cases hjs with
    | cons hr hjs =>
    cases bound with
    | zero => cases hb
    | succ bound =>
      have ha := (h (hl.stops (.inl rfl))).2 ⟨_, spells_skipBlanks_iff.2 hj, hr⟩
      exact itemsWithin_more hj.nextItem_eq ha (ih hjs (Nat.lt_of_succ_lt_succ hb))
  | next hc hj hl ih =>
    cases hjs with
    | cons hr hjs =>
    cases bound with
    | zero => cases hb
    | succ bound =>
      have ha := (h (hl.stops (.inl rfl))).2 ⟨_, spells_skipBlanks_iff.2 hj, hr⟩
      have hn := nextItem_next_eq_more_iff.2 ⟨_, hc, hj.nextItem_eq⟩
      exact itemsWithin_more hn ha (ih hjs (Nat.lt_of_succ_lt_succ hb))

/-- A list is read item by item. -/
theorem Reads.items_eq_ok_iff (h : Reads item Result) :
    items item s = .ok (as, rest) ↔
      ∃ js, Listed Spells ']' true js s rest ∧ List.Forall₂ Result js as := by
  refine ⟨listed_of_itemsWithin h, ?_⟩
  rintro ⟨js, hl, hjs⟩
  have := hl.length_add_lt fun _ _ _ h => h.length_lt
  exact hl.itemsWithin_eq h hjs (by omega)

end Items

/-! ### Objects -/

theorem nextKey_eq_closed_iff {first : Bool} :
    nextKey first s = .ok (.closed rest) ↔ Blanks s ('\x7d' :: rest) := by
  rw [← skipBlanks_eq_cons_iff rfl, nextKey]
  split
  · simp_all
  · simp_all
  · split
    · split <;> simp_all
    · split
      · split <;> simp_all
      · simp_all

theorem nextKey_first_eq_more_iff :
    nextKey true s = .ok (.more rest) ↔ Blanks s ('"' :: rest) := by
  rw [← skipBlanks_eq_cons_iff rfl, nextKey]
  split
  · simp_all
  · simp_all
  · split
    · split <;> simp_all
    · simp_all

theorem nextKey_next_eq_more_iff :
    nextKey false s = .ok (.more rest) ↔
      ∃ s₁, Blanks s (',' :: s₁) ∧ Blanks s₁ ('"' :: rest) := by
  simp only [← skipBlanks_eq_cons_iff (show isBlank ',' = false from rfl),
    ← skipBlanks_eq_cons_iff (show isBlank '"' = false from rfl)]
  rw [nextKey]
  split
  · simp_all
  · simp_all
  · split
    · simp_all
    · split
      · split <;> simp_all
      · simp_all

/-- The reader of a field, which starts behind the key, takes exactly the values
that `Result` gives a new state for, and returns that state.  It is `Reads` with
a state and a key: which fields have been found before decides whether a further
one is taken. -/
def ReadsField {σ : Type} (field : σ → String → Reader σ) (Result : σ → String → Tree → σ → Prop) :
    Prop :=
  ∀ ⦃state key s state' rest⦄, Stops rest →
    (field state key s = .ok (state', rest) ↔
      ∃ s₁ j, Blanks s (':' :: s₁) ∧ Spells j s₁ rest ∧ Result state key j state')

/-- The members of an object, taken in order, lead from one state to another.  A
key that stands for no string leads nowhere, so it is not read over even where
its value would be. -/
inductive Folds {σ : Type} (Result : σ → String → Tree → σ → Prop) :
    σ → List (List Piece × Tree) → σ → Prop where
  | nil (state : σ) : Folds Result state [] state
  | cons {state state₁ state₂ : σ} {key : List Piece} {name : String} {j : Tree}
      {ms : List (List Piece × Tree)} :
      text? key = some name → Result state name j state₁ → Folds Result state₁ ms state₂ →
      Folds Result state ((key, j) :: ms) state₂

section Fields

variable {σ : Type} {field : σ → String → Reader σ} {Result : σ → String → Tree → σ → Prop}
  {state state' : σ} {ms : List (List Piece × Tree)} {first : Bool} {bound : Nat}

theorem listed_of_fieldsWithin (h : ReadsField field Result)
    (hf : fieldsWithin field bound first state s = .ok (state', rest)) :
    ∃ ms, Listed (Member Spells) '\x7d' first ms s rest ∧ Folds Result state ms state' := by
  induction bound generalizing first s state with
  | zero => cases hf
  | succ bound ih =>
    rw [fieldsWithin] at hf
    split at hf
    · cases hf
    · rename_i hn
      obtain ⟨rfl, rfl⟩ := by simpa using hf
      exact ⟨[], .closed (nextKey_eq_closed_iff.1 hn), .nil _⟩
    · rename_i hn
      split at hf
      · cases hf
      · rename_i hk
        split at hf
        · cases hf
        · rename_i hv
          obtain ⟨ms, hl, hms⟩ := ih hf
          obtain ⟨key, hp, hkey⟩ := readString_eq_ok_iff.1 hk
          obtain ⟨s₁, j, hc, hj, hr⟩ := (h (hl.stops (.inr rfl))).1 hv
          refine ⟨(key, j) :: ms, ?_, .cons hkey hr hms⟩
          cases first with
          | true => exact .first (.keyed (nextKey_first_eq_more_iff.1 hn) hp hc hj) hl
          | false =>
            obtain ⟨s₂, hcomma, hq⟩ := nextKey_next_eq_more_iff.1 hn
            exact .next hcomma (.keyed hq hp hc hj) hl

/-- A member whose key and value are read leads on to the members behind it.  It
is one turn of the loop over members, from the hypothesis on the field alone. -/
theorem fieldsWithin_more {state₁ : σ} {key : List Piece} {name : String} {j : Tree}
    {s₂ s₃ s₄ : List Char} (h : ReadsField field Result) (hn : nextKey first s = .ok (.more s₁))
    (hp : Pieces key s₁ s₂) (hkey : text? key = some name) (hc : Blanks s₂ (':' :: s₃))
    (hj : Spells j s₃ s₄) (hr : Result state name j state₁) (hs : Stops s₄) :
    fieldsWithin field (bound + 1) first state s = fieldsWithin field bound false state₁ s₄ := by
  have hk := readString_eq_ok_iff.2 ⟨key, hp, hkey⟩
  have hv := (h hs).2 ⟨s₃, j, hc, hj, hr⟩
  simp only [fieldsWithin, hn, hk, hv]

theorem Listed.fieldsWithin_eq (h : ReadsField field Result)
    (hl : Listed (Member Spells) '\x7d' first ms s rest) (hms : Folds Result state ms state')
    (hb : ms.length < bound) : fieldsWithin field bound first state s = .ok (state', rest) := by
  induction hl generalizing state bound with
  | closed hc =>
    cases hms
    cases bound with
    | zero => cases hb
    | succ bound => rw [fieldsWithin, nextKey_eq_closed_iff.2 hc]
  | first hm hl ih =>
    cases hms with
    | cons hkey hr hms =>
    cases bound with
    | zero => cases hb
    | succ bound =>
      obtain ⟨hq, hp, hc, hj⟩ := hm
      have hn := nextKey_first_eq_more_iff.2 hq
      rw [fieldsWithin_more h hn hp hkey hc hj hr (hl.stops (.inr rfl))]
      exact ih hms (Nat.lt_of_succ_lt_succ hb)
  | next hcomma hm hl ih =>
    cases hms with
    | cons hkey hr hms =>
    cases bound with
    | zero => cases hb
    | succ bound =>
      obtain ⟨hq, hp, hc, hj⟩ := hm
      have hn := nextKey_next_eq_more_iff.2 ⟨_, hcomma, hq⟩
      rw [fieldsWithin_more h hn hp hkey hc hj hr (hl.stops (.inr rfl))]
      exact ih hms (Nat.lt_of_succ_lt_succ hb)

/-- An object is read member by member. -/
theorem ReadsField.fields_eq_ok_iff (h : ReadsField field Result) :
    fields field state s = .ok (state', rest) ↔
      ∃ ms, Listed (Member Spells) '\x7d' true ms s rest ∧ Folds Result state ms state' := by
  refine ⟨listed_of_fieldsWithin h, ?_⟩
  rintro ⟨ms, hl, hms⟩
  have := hl.length_add_lt fun _ _ _ h => h.length_lt fun _ _ _ h => h.length_lt
  exact hl.fieldsWithin_eq h hms (by omega)

end Fields

end StraightLine.Saved
