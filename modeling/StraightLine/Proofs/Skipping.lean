import StraightLine.Proofs.Listing

/-!
# Skipped values and the grammar

Skipping passes over exactly the values of the grammar, with any string literals in them and numbers
of any size.

## Main statements

* `skipNumber_eq_ok_iff` — skipping a number and reading one succeed together.
* `spells_of_skip` — what is skipped is a value.
* `Spells.skipWithin_eq` — a value is skipped within twice its length.
* `skipValue_eq_ok_iff` — both together.
-/

namespace StraightLine.Saved

variable {s s₁ rest : List Char}

theorem pieces_of_skipString (h : skipString s = .ok rest) : ∃ ps, Pieces ps s rest := by
  fun_induction skipString s with
  | case1 | case3 | case4 | case7 | case8 => cases h
  | case2 =>
    cases h
    exact ⟨[], .closed _⟩
  | case5 t n r hq _ ih =>
    obtain ⟨ps, hps⟩ := ih h
    exact ⟨_, pieces_of_readQuad hq hps⟩
  | case6 c t _ d hd ih =>
    obtain ⟨ps, hps⟩ := ih h
    exact ⟨_, .escape hd hps⟩
  | case9 c t hq hlone _ hesc hc ih =>
    obtain ⟨ps, hps⟩ := ih h
    refine ⟨_, .plain hq ?_ (Nat.le_of_not_lt hc) hps⟩
    intro hb
    cases t with
    | nil => exact hlone hb rfl
    | cons d t => exact hesc d t hb rfl

theorem Pieces.skipString_eq {ps : List Piece} (h : Pieces ps s rest) :
    skipString s = .ok rest := by
  induction h with
  | closed => rw [skipString]
  | plain hq hb hge _ ih =>
    rw [← ih, skipString.eq_def]
    split <;> grind
  | escape hl _ ih =>
    rw [← ih, skipString.eq_def]
    split <;> grind [simpleEscape?]
  | codeUnit ha hb hc hd hps ih =>
    rename_i t _ _
    have hr : readQuad (_ :: _ :: _ :: _ :: t) = _ := readQuad_of_digits ha hb hc hd
    rw [← ih, skipString.eq_def]
    split <;> grind

/-- The rest of a text after the digits before the point. -/
def skipWhole (s : List Char) : Except Problem (List Char) :=
  match readDigits s with
  | ([], _) => .error .invalidNumber
  | (0 :: _ :: _, _) => .error .invalidNumber
  | (_, rest) => .ok rest

/-- The rest of a text after the point and its digits, if there is a point. -/
def skipFraction : List Char → Except Problem (List Char)
  | '.' :: s => skipDigits s
  | s => .ok s

/-- The rest of a text after an exponent, if there is one. -/
def skipExponent : List Char → Except Problem (List Char)
  | 'e' :: s => skipDigits (readExponentSign s).2
  | 'E' :: s => skipDigits (readExponentSign s).2
  | s => .ok s

/-- Skipping a number goes part by part: digits, fraction and exponent.  The
program does this in one function with nested cases; taken apart, each part can
be compared with the one that is read. -/
theorem skipNumber_eq (s : List Char) :
    skipNumber s = (skipWhole s).bind fun s => (skipFraction s).bind skipExponent := by
  unfold skipNumber skipWhole
  have htail (r : List Char) : (do
      let s ←
        match r with
        | '.' :: s => skipDigits s
        | s => pure s
      match s with
      | 'e' :: s => skipDigits (readExponentSign s).2
      | 'E' :: s => skipDigits (readExponentSign s).2
      | s => pure s) = (skipFraction r).bind skipExponent := by
    unfold skipFraction
    split <;> rfl
  rcases readDigits s with ⟨_ | ⟨_ | d, _ | ⟨d', ds⟩⟩, r⟩
  · rfl
  · exact htail r
  · rfl
  · exact htail r
  · exact htail r

theorem skipWhole_eq_ok_iff : skipWhole s = .ok rest ↔ ∃ ds, readWhole s = .ok (ds, rest) := by
  rw [skipWhole, readWhole]
  rcases readDigits s with ⟨_ | ⟨_ | d, _ | ⟨d', ds⟩⟩, r⟩
  · cases r <;> simp
  all_goals simp

theorem skipFraction_eq_ok_iff :
    skipFraction s = .ok rest ↔ ∃ f, readFraction s = .ok (f, rest) := by
  unfold skipFraction readFraction
  split
  · rename_i s
    rcases hr : readDigits s with ⟨_ | ⟨d, ds⟩, r⟩
    · cases r <;> simp [skipDigits, hr]
    · simp [skipDigits, hr]
  · simp

theorem skipExponent_eq_ok_iff :
    skipExponent s = .ok rest ↔ ∃ e, readExponent s = .ok (e, rest) := by
  unfold skipExponent readExponent
  split
  case h_3 => simp
  all_goals
    rename_i s
    rcases hr : readDigits (readExponentSign s).2 with ⟨_ | ⟨d, ds⟩, r⟩
    · cases r <;> simp [skipDigits, hr]
    · simp [skipDigits, hr]

/-- Skipping a number and reading one succeed together, with the same text after
it.  So what is known about numbers that are read need not be proved again. -/
theorem skipNumber_eq_ok_iff (negative : Bool) :
    skipNumber s = .ok rest ↔ ∃ n, readUnsigned negative s = .ok (n, rest) := by
  rw [skipNumber_eq]
  constructor
  · intro h
    obtain ⟨s₁, hw, h⟩ := Except.bind_eq_ok_iff.1 h
    obtain ⟨s₂, hf, he⟩ := Except.bind_eq_ok_iff.1 h
    obtain ⟨whole, hw⟩ := skipWhole_eq_ok_iff.1 hw
    obtain ⟨fraction, hf⟩ := skipFraction_eq_ok_iff.1 hf
    obtain ⟨exponent, he⟩ := skipExponent_eq_ok_iff.1 he
    refine ⟨⟨negative, whole, fraction, exponent⟩, ?_⟩
    simp only [readUnsigned, hw, hf, he, bind, Except.bind]
    rfl
  · rintro ⟨n, h⟩
    obtain ⟨⟨whole, s₁⟩, hw, h⟩ := Except.bind_eq_ok_iff.1 h
    obtain ⟨⟨fraction, s₂⟩, hf, h⟩ := Except.bind_eq_ok_iff.1 h
    obtain ⟨⟨exponent, s₃⟩, he, h⟩ := Except.bind_eq_ok_iff.1 h
    cases h
    rw [skipWhole_eq_ok_iff.2 ⟨_, hw⟩, Except.bind, skipFraction_eq_ok_iff.2 ⟨_, hf⟩, Except.bind]
    exact skipExponent_eq_ok_iff.2 ⟨_, he⟩

/-! ### Values -/

theorem skipWithin_skipBlanks (bound : Nat) (s : List Char) :
    skipWithin bound (skipBlanks s) = skipWithin bound s := by
  cases bound with
  | zero => rfl
  | succ bound => rw [skipWithin, skipWithin, ← (blanks_skipBlanks s).skipBlanks_eq]

theorem skipField_skipBlanks (bound : Nat) (s : List Char) :
    skipField bound (skipBlanks s) = skipField bound s := by
  cases bound with
  | zero => rfl
  | succ bound => rw [skipField, skipField, ← (blanks_skipBlanks s).skipBlanks_eq]

theorem spells_of_skipNumber (hb : Blanks s s₁) (h : skipNumber s₁ = .ok rest) :
    ∃ j, Spells j s rest := by
  obtain ⟨n, hr⟩ := (skipNumber_eq_ok_iff false).1 h
  obtain ⟨hf, hu⟩ := unsigned_of_readUnsigned hr
  exact ⟨.number n, .number hb (.plain hf hu)⟩

theorem spells_of_skipNumber_minus (hb : Blanks s ('-' :: s₁)) (h : skipNumber s₁ = .ok rest) :
    ∃ j, Spells j s rest := by
  obtain ⟨n, hr⟩ := (skipNumber_eq_ok_iff true).1 h
  obtain ⟨hf, hu⟩ := unsigned_of_readUnsigned hr
  exact ⟨.number n, .number hb (.minus hf hu)⟩

section Soundness

variable {bound : Nat} {first : Bool}

theorem spells_of_skipWithin
    (hitems : ∀ {first s rest}, skipItems bound first s = .ok rest →
      ∃ js, Listed Spells ']' first js s rest)
    (hfields : ∀ {first s rest}, skipFields bound first s = .ok rest →
      ∃ ms, Listed (Member Spells) '\x7d' first ms s rest)
    (h : skipWithin (bound + 1) s = .ok rest) : ∃ j, Spells j s rest := by
  have hb := blanks_skipBlanks s
  rw [skipWithin] at h
  split at h
  · cases h
  · rename_i hs
    obtain ⟨⟨u, r⟩, hw, rfl⟩ := Except.map_eq_ok_iff.1 h
    rw [hs, readWord_eq_ok_iff.1 hw] at hb
    exact ⟨_, .null hb⟩
  · rename_i hs
    obtain ⟨⟨u, r⟩, hw, rfl⟩ := Except.map_eq_ok_iff.1 h
    rw [hs, readWord_eq_ok_iff.1 hw] at hb
    exact ⟨_, .yes hb⟩
  · rename_i hs
    obtain ⟨⟨u, r⟩, hw, rfl⟩ := Except.map_eq_ok_iff.1 h
    rw [hs, readWord_eq_ok_iff.1 hw] at hb
    exact ⟨_, .no hb⟩
  · rename_i hs
    obtain ⟨ps, hps⟩ := pieces_of_skipString h
    exact ⟨_, .string (hs ▸ hb) hps⟩
  · rename_i hs
    obtain ⟨js, hl⟩ := hitems h
    exact ⟨_, .array (hs ▸ hb) hl⟩
  · rename_i hs
    obtain ⟨ms, hl⟩ := hfields h
    exact ⟨_, .object (hs ▸ hb) hl⟩
  · rename_i hs
    exact spells_of_skipNumber_minus (hs ▸ hb) h
  · rename_i hs
    split at h
    · exact spells_of_skipNumber (hs ▸ hb) h
    · cases h

theorem listed_of_skipItems
    (hvalue : ∀ {s rest}, skipWithin bound s = .ok rest → ∃ j, Spells j s rest)
    (hitems : ∀ {first s rest}, skipItems bound first s = .ok rest →
      ∃ js, Listed Spells ']' first js s rest)
    (h : skipItems (bound + 1) first s = .ok rest) : ∃ js, Listed Spells ']' first js s rest := by
  have hb := blanks_skipBlanks s
  rw [skipItems] at h
  split at h
  · cases h
  · rename_i hs
    cases h
    exact ⟨[], .closed (hs ▸ hb)⟩
  · rename_i c t hc hs
    cases first with
    | true =>
      rw [if_pos rfl, ← hs, skipWithin_skipBlanks] at h
      split at h
      · cases h
      · rename_i hv
        obtain ⟨j, hj⟩ := hvalue hv
        obtain ⟨js, hl⟩ := hitems h
        exact ⟨_, .first hj hl⟩
    | false =>
      rw [if_neg Bool.false_ne_true] at h
      split at h
      · rename_i hcomma
        obtain rfl := eq_of_beq hcomma
        split at h
        · cases h
        · rename_i hv
          obtain ⟨j, hj⟩ := hvalue hv
          obtain ⟨js, hl⟩ := hitems h
          exact ⟨_, .next (hs ▸ hb) hj hl⟩
      · cases h

theorem listed_of_skipFields
    (hfield : ∀ {s rest}, skipField bound s = .ok rest → ∃ m, Member Spells m s rest)
    (hfields : ∀ {first s rest}, skipFields bound first s = .ok rest →
      ∃ ms, Listed (Member Spells) '\x7d' first ms s rest)
    (h : skipFields (bound + 1) first s = .ok rest) :
    ∃ ms, Listed (Member Spells) '\x7d' first ms s rest := by
  have hb := blanks_skipBlanks s
  rw [skipFields] at h
  split at h
  · cases h
  · rename_i hs
    cases h
    exact ⟨[], .closed (hs ▸ hb)⟩
  · rename_i c t hc hs
    cases first with
    | true =>
      rw [if_pos rfl, ← hs, skipField_skipBlanks] at h
      split at h
      · cases h
      · rename_i hv
        obtain ⟨m, hm⟩ := hfield hv
        obtain ⟨ms, hl⟩ := hfields h
        exact ⟨_, .first hm hl⟩
    | false =>
      rw [if_neg Bool.false_ne_true] at h
      split at h
      · rename_i hcomma
        obtain rfl := eq_of_beq hcomma
        split at h
        · cases h
        · rename_i hv
          obtain ⟨m, hm⟩ := hfield hv
          obtain ⟨ms, hl⟩ := hfields h
          exact ⟨_, .next (hs ▸ hb) hm hl⟩
      · cases h

theorem member_of_skipField
    (hvalue : ∀ {s rest}, skipWithin bound s = .ok rest → ∃ j, Spells j s rest)
    (h : skipField (bound + 1) s = .ok rest) : ∃ m, Member Spells m s rest := by
  have hb := blanks_skipBlanks s
  rw [skipField] at h
  split at h
  · cases h
  · rename_i hs
    split at h
    · cases h
    · rename_i hk
      split at h
      · cases h
      · rename_i hc
        obtain ⟨key, hp⟩ := pieces_of_skipString hk
        obtain ⟨j, hj⟩ := hvalue h
        exact ⟨_, .keyed (hs ▸ hb) hp (readColon_eq_ok_iff.1 hc) hj⟩
  · cases h

/-- What is skipped is a value, the items of a list, the members of an object,
or one member.  The four functions call each other with a bound that falls by
one, so the induction is on the bound and all four statements go through it
together. -/
theorem spells_of_skip (bound : Nat) :
    (∀ {s rest}, skipWithin bound s = .ok rest → ∃ j, Spells j s rest) ∧
    (∀ {first s rest}, skipItems bound first s = .ok rest →
      ∃ js, Listed Spells ']' first js s rest) ∧
    (∀ {first s rest}, skipFields bound first s = .ok rest →
      ∃ ms, Listed (Member Spells) '\x7d' first ms s rest) ∧
    (∀ {s rest}, skipField bound s = .ok rest → ∃ m, Member Spells m s rest) := by
  induction bound with
  | zero =>
    refine ⟨?_, ?_, ?_, ?_⟩ <;> intros <;> contradiction
  | succ bound ih =>
    obtain ⟨hvalue, hitems, hfields, hfield⟩ := ih
    exact ⟨spells_of_skipWithin hitems hfields, listed_of_skipItems hvalue hitems,
      listed_of_skipFields hfield hfields, member_of_skipField hvalue⟩

end Soundness

section Completeness

variable {bound : Nat} {first : Bool}

theorem skipItems_closed (hb : Blanks s (']' :: rest)) :
    skipItems (bound + 1) first s = .ok rest := by
  simp only [skipItems, (skipBlanks_eq_cons_iff rfl).2 hb]

theorem skipItems_first {j : Tree} (hj : Spells j s s₁) (hv : skipWithin bound s = .ok s₁) :
    skipItems (bound + 1) true s = skipItems bound false s₁ := by
  obtain ⟨c, t, hs, -, hc, -⟩ := hj.head
  rw [← skipWithin_skipBlanks, hs] at hv
  rw [skipItems, hs]
  split
  · simp_all
  · simp_all
  · simp_all

theorem skipItems_next {s₂ : List Char} (hb : Blanks s (',' :: s₁))
    (hv : skipWithin bound s₁ = .ok s₂) :
    skipItems (bound + 1) false s = skipItems bound false s₂ := by
  simp [skipItems, (skipBlanks_eq_cons_iff rfl).2 hb, hv]

/-- The items of a list are skipped if each of them is.  The hypothesis on the
items holds at every bound that is large enough, so each of them can be skipped
with what the items before it have left of the bound. -/
theorem Listed.skipItems_eq {Item : Tree → List Char → List Char → Prop} {js : List Tree}
    (hitem : ∀ {j s rest}, Item j s rest → Spells j s rest ∧
      (Stops rest → ∀ {bound}, 2 * s.length + 1 ≤ bound → skipWithin bound s = .ok rest))
    (hl : Listed Item ']' first js s rest) (hbound : 2 * s.length + 2 ≤ bound) :
    skipItems bound first s = .ok rest := by
  induction hl generalizing bound with
  | closed hb =>
    obtain _ | bound := bound
    · omega
    · exact skipItems_closed hb
  | first hj hl ih =>
    obtain _ | bound := bound
    · omega
    · obtain ⟨hj, hv⟩ := hitem hj
      have hlt := hj.length_lt
      rw [skipItems_first hj (hv (hl.stops (.inl rfl)) (by omega)), ih (by omega)]
  | next hb hj hl ih =>
    obtain _ | bound := bound
    · omega
    · obtain ⟨hj, hv⟩ := hitem hj
      have hlt := hj.length_lt
      have hlt' := hb.length_lt
      rw [skipItems_next hb (hv (hl.stops (.inl rfl)) (by omega)), ih (by omega)]

theorem skipFields_closed (hb : Blanks s ('\x7d' :: rest)) :
    skipFields (bound + 1) first s = .ok rest := by
  simp only [skipFields, (skipBlanks_eq_cons_iff rfl).2 hb]

theorem skipFields_first (hb : Blanks s ('"' :: s₁)) {s₂ : List Char}
    (hm : skipField bound s = .ok s₂) :
    skipFields (bound + 1) true s = skipFields bound false s₂ := by
  rw [← skipField_skipBlanks, (skipBlanks_eq_cons_iff rfl).2 hb] at hm
  simp [skipFields, (skipBlanks_eq_cons_iff rfl).2 hb, hm]

theorem skipFields_next {s₂ : List Char} (hb : Blanks s (',' :: s₁))
    (hm : skipField bound s₁ = .ok s₂) :
    skipFields (bound + 1) false s = skipFields bound false s₂ := by
  simp [skipFields, (skipBlanks_eq_cons_iff rfl).2 hb, hm]

theorem skipField_eq {s₂ s₃ : List Char} {ps : List Piece} (hq : Blanks s ('"' :: s₁))
    (hp : Pieces ps s₁ s₂) (hc : Blanks s₂ (':' :: s₃)) (hv : skipWithin bound s₃ = .ok rest) :
    skipField (bound + 1) s = .ok rest := by
  simp only [skipField, (skipBlanks_eq_cons_iff rfl).2 hq, hp.skipString_eq,
    readColon_eq_ok_iff.2 hc, hv]

/-- The members of an object are skipped if each of their values is.  It is the
lemma on items once more, with a key and a colon in front of each value. -/
theorem Listed.skipFields_eq {Value : Tree → List Char → List Char → Prop}
    {ms : List (List Piece × Tree)}
    (hvalue : ∀ {j s rest}, Value j s rest → Spells j s rest ∧
      (Stops rest → ∀ {bound}, 2 * s.length + 1 ≤ bound → skipWithin bound s = .ok rest))
    (hl : Listed (Member Value) '\x7d' first ms s rest) (hbound : 2 * s.length + 2 ≤ bound) :
    skipFields bound first s = .ok rest := by
  have hfield {m s rest} (hm : Member Value m s rest) (hr : Stops rest) {bound}
      (hbound : 2 * s.length + 1 ≤ bound) :
      rest.length < s.length ∧ skipField bound s = .ok rest := by
    obtain ⟨hq, hp, hc, hv⟩ := hm
    have := hq.length_lt
    have := hp.length_lt
    have := hc.length_lt
    obtain ⟨hj, hv⟩ := hvalue hv
    have := hj.length_lt
    obtain _ | bound := bound
    · omega
    · exact ⟨by omega, skipField_eq hq hp hc (hv hr (by omega))⟩
  induction hl generalizing bound with
  | closed hb =>
    obtain _ | bound := bound
    · omega
    · exact skipFields_closed hb
  | first hm hl ih =>
    obtain _ | bound := bound
    · omega
    · obtain ⟨hlt, hs⟩ := hfield hm (hl.stops (.inr rfl)) (show _ ≤ bound by omega)
      obtain ⟨hq, -⟩ := hm
      rw [skipFields_first hq hs, ih (by omega)]
  | next hb hm hl ih =>
    obtain _ | bound := bound
    · omega
    · have := hb.length_lt
      obtain ⟨hlt, hs⟩ := hfield hm (hl.stops (.inr rfl)) (show _ ≤ bound by omega)
      rw [skipFields_next hb hs, ih (by omega)]

theorem Unsigned.skipNumber_eq {n : Numeral} (h : Unsigned n s rest) (hn : Stops rest) :
    skipNumber s = .ok rest :=
  (skipNumber_eq_ok_iff n.negative).2 ⟨n, h.readUnsigned_eq hn⟩

/-- A number is skipped after its sign, or from its first digit on. -/
theorem NumeralText.skipWithin_eq {n : Numeral} (h : NumeralText n s₁ rest) (hb : Blanks s s₁)
    (hn : Stops rest) : skipWithin (bound + 1) s = .ok rest := by
  cases h with
  | minus _ hu =>
    simp only [skipWithin, (skipBlanks_eq_cons_iff rfl).2 hb, hu.skipNumber_eq hn]
  | plain _ hu =>
    obtain ⟨hd, -⟩ := id hu
    obtain ⟨c, t, rfl, hc⟩ := hd.head
    rw [skipWithin, hb.skipBlanks_eq, skipBlanks_cons (isBlank_of_digit hc)]
    split
    case h_9 heq =>
      obtain ⟨rfl, rfl⟩ := List.cons.inj heq
      rw [if_pos hc, hu.skipNumber_eq hn]
    case h_1 heq => cases heq
    all_goals
      rename_i heq
      obtain ⟨rfl, rfl⟩ := List.cons.inj heq
      exact absurd hc (by decide)

/-- A value is skipped within twice its length.  Each character costs at most
one call for itself and one for the list that it stands in, so a bound that is
computed from the length is never used up. -/
theorem Spells.skipWithin_eq {j : Tree} (h : Spells j s rest) (hn : Stops rest)
    (hbound : 2 * s.length + 1 ≤ bound) : skipWithin bound s = .ok rest := by
  induction h using Spells.induction generalizing bound with
  | null hb | yes hb | no hb =>
    obtain _ | bound := bound
    · omega
    · simp [skipWithin, (skipBlanks_eq_cons_iff rfl).2 hb, readWord, Except.map]
  | number hb hnum =>
    obtain _ | bound := bound
    · omega
    · exact hnum.skipWithin_eq hb hn
  | string hb hp =>
    obtain _ | bound := bound
    · omega
    · simp only [skipWithin, (skipBlanks_eq_cons_iff rfl).2 hb, hp.skipString_eq]
  | array hb _ ih =>
    have := hb.length_lt
    obtain _ | bound := bound
    · omega
    · have hl := ih.skipItems_eq (by rintro _ _ _ ⟨hj, h⟩; exact ⟨hj, fun hr _ => h hr⟩)
        (show _ ≤ bound by omega)
      simp only [skipWithin, (skipBlanks_eq_cons_iff rfl).2 hb, hl]
  | object hb _ ih =>
    have := hb.length_lt
    obtain _ | bound := bound
    · omega
    · have hl := ih.skipFields_eq (by rintro _ _ _ ⟨hj, h⟩; exact ⟨hj, fun hr _ => h hr⟩)
        (show _ ≤ bound by omega)
      simp only [skipWithin, (skipBlanks_eq_cons_iff rfl).2 hb, hl]

/-- Skipping passes over exactly the values of the grammar.  What stands under
an unknown key is therefore free in everything except that it has to be a value. -/
theorem skipValue_eq_ok_iff (hn : Stops rest) :
    skipValue s = .ok rest ↔ ∃ j, Spells j s rest := by
  refine ⟨(spells_of_skip _).1, ?_⟩
  rintro ⟨j, hj⟩
  exact hj.skipWithin_eq hn (by omega)

end Completeness

end StraightLine.Saved
