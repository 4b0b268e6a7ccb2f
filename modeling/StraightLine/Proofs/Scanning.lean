import StraightLine.Proofs.Grammar
import StraightLine.Proofs.Success

/-!
# Scanners and the grammar

The scanners of blanks, numbers, string literals and punctuation take exactly what the grammar
spells.

## Main statements

* `skipBlanks_eq_cons_iff` — where a character stands behind blanks.
* `unsigned_of_readUnsigned`, `Unsigned.readUnsigned_eq` — numbers.
* `readString_eq_ok_iff` — string literals, by the pieces that stand for the string.

## Design notes

* **Numbers need to know what follows.**  A scanner takes all the digits there are, the grammar any
  number of them.  So the scanner is complete only before a text that no number goes on into, and
  this is handed on from the exponent to the fraction (`NoFraction`) and to the digits (`NoDigit`).
-/

namespace StraightLine.Saved

variable {s s₁ rest : List Char}

/-! ### Blanks -/

theorem eq_of_isBlank {c : Char} (h : isBlank c = true) :
    c = ' ' ∨ c = '\t' ∨ c = '\n' ∨ c = '\r' := by
  simpa only [isBlank, Bool.or_eq_true, beq_iff_eq, or_assoc] using h

theorem blanks_skipBlanks (s : List Char) : Blanks s (skipBlanks s) := by
  induction s with
  | nil => exact .refl []
  | cons c s ih =>
    rw [skipBlanks, List.dropWhile_cons]
    split
    · exact .blank ‹_› ih
    · exact .refl _

/-- Blanks change nothing for the one who skips blanks.  All scanners of
punctuation skip first, so this is how blanks of the grammar disappear from
them. -/
theorem Blanks.skipBlanks_eq (h : Blanks s rest) : skipBlanks s = skipBlanks rest := by
  induction h with
  | refl => rfl
  | blank hc _ ih =>
    rw [← ih]
    exact List.dropWhile_cons_of_pos hc

theorem Blanks.trans (h : Blanks s s₁) (h₁ : Blanks s₁ rest) : Blanks s rest := by
  induction h with
  | refl => exact h₁
  | blank hc _ ih => exact .blank hc (ih h₁)

theorem skipBlanks_cons {c : Char} (hc : isBlank c = false) :
    skipBlanks (c :: rest) = c :: rest :=
  List.dropWhile_cons_of_neg (by simp [hc])

/-- The text after the blanks starts with a character that is no blank.  Every
scanner that looks for a certain character is turned into the grammar by this
equivalence. -/
theorem skipBlanks_eq_cons_iff {c : Char} (hc : isBlank c = false) :
    skipBlanks s = c :: rest ↔ Blanks s (c :: rest) := by
  constructor
  · intro h
    exact h ▸ blanks_skipBlanks s
  · intro h
    rw [h.skipBlanks_eq, skipBlanks_cons hc]

/-! ### Numbers -/

/-- The text does not start with a digit. -/
def NoDigit (s : List Char) : Prop := ∀ c t, s = c :: t → digit? c = none

/-- The text starts with neither a digit nor a point. -/
def NoFraction (s : List Char) : Prop := ∀ c t, s = c :: t → digit? c = none ∧ c ≠ '.'

theorem NoFraction.noDigit (h : NoFraction s) : NoDigit s := fun c t hs => (h c t hs).1

theorem Stops.noFraction (h : Stops s) : NoFraction s := fun c t hs =>
  ⟨(h c t hs).1, (h c t hs).2.1⟩

theorem readDigits_eq_nil_iff : readDigits s = ([], rest) ↔ rest = s ∧ NoDigit s := by
  rw [@eq_comm _ rest]
  cases s with
  | nil => simp [readDigits, NoDigit]
  | cons c s => cases hc : digit? c <;> simp [readDigits, hc, NoDigit]

/-- The digits read are all the digits at the start of the text.  The second
half is about what is left, and is what fails when the grammar is allowed to
stop inside a run of digits. -/
theorem readDigits_eq_cons_iff {d : Nat} {ds : List Nat} :
    readDigits s = (d :: ds, rest) ↔ Digits (d :: ds) s rest ∧ NoDigit rest := by
  constructor
  · intro h
    induction s generalizing d ds with
    | nil => simp [readDigits] at h
    | cons c s ih =>
      rw [readDigits] at h
      cases hc : digit? c with
      | none => simp [hc] at h
      | some d' =>
        obtain ⟨⟨rfl, hds⟩, hrest⟩ := by simpa [hc] using h
        cases hr : ds with
        | nil =>
          obtain ⟨rfl, hn⟩ := readDigits_eq_nil_iff.1 (Prod.ext (hds.trans hr) hrest)
          exact ⟨.one hc, hn⟩
        | cons d ds =>
          obtain ⟨hd, hn⟩ := ih (Prod.ext (hds.trans hr) hrest)
          exact ⟨.more hc hd, hn⟩
  · rintro ⟨h, hn⟩
    generalize d :: ds = digits at h
    induction h with
    | one hc => rw [readDigits, hc, readDigits_eq_nil_iff.2 ⟨rfl, hn⟩]
    | more hc _ ih => rw [readDigits, hc, ih hn]

/-- Digits that stop where no digit follows are the ones that are read. -/
theorem Digits.readDigits_eq {ds : List Nat} (h : Digits ds s rest) (hn : NoDigit rest) :
    readDigits s = (ds, rest) := by
  cases ds with
  | nil => cases h
  | cons d ds => exact readDigits_eq_cons_iff.2 ⟨h, hn⟩

/-- Digits were read where neither an empty text nor another character came first. -/
theorem digits_of_readDigits {ds : List Nat} (h : readDigits s = (ds, rest))
    (hempty : ds = [] → rest = [] → False)
    (hempty' : ∀ c t, ds = [] → rest = c :: t → False) : Digits ds s rest ∧ NoDigit rest := by
  cases ds with
  | nil =>
    cases rest with
    | nil => exact (hempty rfl rfl).elim
    | cons c t => exact (hempty' c t rfl rfl).elim
  | cons d ds => exact readDigits_eq_cons_iff.1 h

theorem readWhole_eq_ok_iff {ds : List Nat} :
    readWhole s = .ok (ds, rest) ↔
      Digits ds s rest ∧ NoDigit rest ∧ (ds.head? = some 0 → ds = [0]) := by
  constructor
  · intro h
    rw [readWhole] at h
    split at h
    case h_4 ds' rest' hempty hempty' hzero hr =>
      obtain ⟨rfl, rfl⟩ := by simpa using h
      obtain ⟨hd, hn⟩ := digits_of_readDigits hr hempty hempty'
      refine ⟨hd, hn, fun hz => ?_⟩
      obtain ⟨t, rfl⟩ := List.head?_eq_some_iff.1 hz
      cases t with
      | nil => rfl
      | cons d t => exact (hzero d t rfl).elim
    all_goals cases h
  · rintro ⟨hd, hn, hz⟩
    rw [readWhole, hd.readDigits_eq hn]
    rcases ds with _ | ⟨_ | d, _ | ⟨d', ds⟩⟩
    · cases hd
    · rfl
    · simp at hz
    · rfl
    · rfl

/-- A marked run of digits: the rest of the text after it, or a problem where no digit stands. -/
theorem Digits.readFraction_eq {ds : List Nat} (h : Digits ds s rest) (hn : NoDigit rest) :
    readFraction ('.' :: s) = .ok (some ds, rest) := by
  rw [readFraction, h.readDigits_eq hn]
  cases ds with
  | nil => cases h
  | cons d ds => rfl

theorem fraction_of_readFraction {f : Option (List Nat)} (h : readFraction s = .ok (f, rest)) :
    Fraction f s rest := by
  unfold readFraction at h
  split at h
  · split at h
    case h_3 ds rest' hempty hempty' hr =>
      obtain ⟨rfl, rfl⟩ := by simpa using h
      exact .present (digits_of_readDigits hr hempty hempty').1
    all_goals cases h
  · obtain ⟨rfl, rfl⟩ := by simpa using h
    exact .absent _

theorem Fraction.readFraction_eq {f : Option (List Nat)} (h : Fraction f s rest)
    (hn : NoFraction rest) : readFraction s = .ok (f, rest) ∧ NoDigit s := by
  cases h with
  | absent =>
    refine ⟨?_, hn.noDigit⟩
    unfold readFraction
    split
    · exact absurd rfl (hn _ _ rfl).2
    · rfl
  | present hd =>
    refine ⟨hd.readFraction_eq hn.noDigit, ?_⟩
    rintro c t ⟨⟩
    rfl

theorem exponentSign_readExponentSign (s : List Char) :
    ExponentSign (readExponentSign s).1 s (readExponentSign s).2 := by
  unfold readExponentSign
  split <;> constructor

theorem ExponentSign.readExponentSign_eq {negative : Bool} {ds : List Nat}
    (h : ExponentSign negative s s₁) (hd : Digits ds s₁ rest) :
    readExponentSign s = (negative, s₁) := by
  cases h with
  | plus | minus => rfl
  | absent =>
    unfold readExponentSign
    split
    · cases hd <;> contradiction
    · cases hd <;> contradiction
    · rfl

theorem exponent_of_readExponent {e : Option (Bool × List Nat)}
    (h : readExponent s = .ok (e, rest)) : Exponent e s rest := by
  have hmark {mark : Char} {t : List Char} (hm : mark = 'e' ∨ mark = 'E')
      (hr : readExponent (mark :: t) = .ok (e, rest)) : Exponent e (mark :: t) rest := by
    have hs := exponentSign_readExponentSign t
    have hr' : readExponent ('e' :: t) = .ok (e, rest) := by
      obtain rfl | rfl := hm <;> exact hr
    simp only [readExponent] at hr'
    split at hr'
    case h_3 ds rest' hempty hempty' hd =>
      obtain ⟨rfl, rfl⟩ := by simpa using hr'
      exact .present hm hs (digits_of_readDigits hd hempty hempty').1
    all_goals cases hr'
  unfold readExponent at h
  split at h
  · exact hmark (.inl rfl) h
  · exact hmark (.inr rfl) h
  · obtain ⟨rfl, rfl⟩ := by simpa using h
    exact .absent _

/-- An exponent is read as it is spelled, and if there is none the text does not
start like one.  The second part is for the fraction in front of it, which must
not be able to go on. -/
theorem Exponent.readExponent_eq {e : Option (Bool × List Nat)} (h : Exponent e s rest)
    (hn : Stops rest) : readExponent s = .ok (e, rest) ∧ NoFraction s := by
  cases h with
  | absent =>
    refine ⟨?_, hn.noFraction⟩
    unfold readExponent
    split
    · exact absurd rfl (hn _ _ rfl).2.2.1
    · exact absurd rfl (hn _ _ rfl).2.2.2
    · rfl
  | present hm hs hd =>
    refine ⟨?_, ?_⟩
    · obtain rfl | rfl := hm
      all_goals
        simp only [readExponent, hs.readExponentSign_eq hd, hd.readDigits_eq hn.noFraction.noDigit]
        cases hd <;> rfl
    · rintro c t ⟨⟩
      obtain rfl | rfl := hm <;> decide

theorem unsigned_of_readUnsigned {negative : Bool} {n : Numeral}
    (h : readUnsigned negative s = .ok (n, rest)) : n.negative = negative ∧ Unsigned n s rest := by
  obtain ⟨⟨whole, s₁⟩, hw, h⟩ := Except.bind_eq_ok_iff.1 h
  obtain ⟨⟨fraction, s₂⟩, hf, h⟩ := Except.bind_eq_ok_iff.1 h
  obtain ⟨⟨exponent, s₃⟩, he, h⟩ := Except.bind_eq_ok_iff.1 h
  cases h
  obtain ⟨hd, -, hz⟩ := readWhole_eq_ok_iff.1 hw
  exact ⟨rfl, .parts hd hz (fraction_of_readFraction hf) (exponent_of_readExponent he)⟩

/-- A number is read as it is spelled, in front of a text that no number goes on
into.  Its three parts are followed from the last to the first, each with what
it says about the text at its start. -/
theorem Unsigned.readUnsigned_eq {n : Numeral} (h : Unsigned n s rest) (hn : Stops rest) :
    readUnsigned n.negative s = .ok (n, rest) := by
  obtain ⟨hd, hz, hf, he⟩ := h
  obtain ⟨hre, hns⟩ := he.readExponent_eq hn
  obtain ⟨hrf, hnd⟩ := hf.readFraction_eq hns
  have hrw := readWhole_eq_ok_iff.2 ⟨hd, hnd, hz⟩
  simp only [readUnsigned, hrw, hrf, hre, bind, Except.bind]
  rfl

/-! ### String literals -/

theorem readQuad_of_digits {a b c d : Char} {i j k l : Nat} (ha : hexValue? a = some i)
    (hb : hexValue? b = some j) (hc : hexValue? c = some k) (hd : hexValue? d = some l) :
    readQuad (a :: b :: c :: d :: rest) = .ok (((i * 16 + j) * 16 + k) * 16 + l, rest) := by
  simp only [readQuad, ha, hb, hc, hd]

theorem readQuad_eq_ok_iff {n : Nat} :
    readQuad s = .ok (n, rest) ↔ ∃ a b c d i j k l, s = a :: b :: c :: d :: rest ∧
      hexValue? a = some i ∧ hexValue? b = some j ∧ hexValue? c = some k ∧ hexValue? d = some l ∧
      n = ((i * 16 + j) * 16 + k) * 16 + l := by
  constructor
  · intro h
    unfold readQuad at h
    split at h
    · split at h
      · obtain ⟨rfl, rfl⟩ := by simpa using h
        exact ⟨_, _, _, _, _, _, _, _, rfl, ‹_›, ‹_›, ‹_›, ‹_›, rfl⟩
      · cases h
    · cases h
  · rintro ⟨a, b, c, d, i, j, k, l, rfl, ha, hb, hc, hd, rfl⟩
    exact readQuad_of_digits ha hb hc hd

/-- A Unicode escape in front of more pieces is one piece more. -/
theorem pieces_of_readQuad {n : Nat} {ps : List Piece} (h : readQuad s = .ok (n, s₁))
    (hps : Pieces ps s₁ rest) : Pieces (.codeUnit n :: ps) ('\\' :: 'u' :: s) rest := by
  obtain ⟨a, b, c, d, i, j, k, l, rfl, ha, hb, hc, hd, rfl⟩ := readQuad_eq_ok_iff.1 h
  exact .codeUnit ha hb hc hd hps

/-- A code unit in front of more pieces is a Unicode escape in front of their text. -/
theorem Pieces.readQuad_eq {n : Nat} {ps : List Piece} (h : Pieces (.codeUnit n :: ps) s rest) :
    ∃ t s₁, s = '\\' :: 'u' :: t ∧ readQuad t = .ok (n, s₁) ∧ Pieces ps s₁ rest := by
  cases h with
  | codeUnit ha hb hc hd hps =>
    exact ⟨_, _, rfl, readQuad_of_digits ha hb hc hd, hps⟩

/-- An escape that is read is one piece, or two that form a surrogate pair.  The
pieces behind it are carried along, because the two halves of a pair are
neighbours in that list. -/
theorem pieces_of_readEscape {c : Char} {ps : List Piece} {cs : List Char}
    (h : readEscape s = .ok (c, s₁)) (hps : Pieces ps s₁ rest) (hcs : characters? ps = some cs) :
    ∃ ps', Pieces ps' ('\\' :: s) rest ∧ characters? ps' = some (c :: cs) := by
  unfold readEscape at h
  split at h
  · cases h
  · unfold readUnicodeEscape at h
    split at h
    · cases h
    · rename_i n r hn
      split at h
      · cases h
      · rename_i hlow
        split at h
        · rename_i hhigh
          split at h
          · cases h
          · cases h
          · split at h
            · cases h
            · rename_i hm
              split at h
              · rename_i hlow'
                obtain ⟨rfl, rfl⟩ := by simpa using h
                refine ⟨_, pieces_of_readQuad hn (pieces_of_readQuad hm hps), ?_⟩
                rw [characters?_pair (by simpa using hlow) hhigh hlow', hcs]
                rfl
              · cases h
          · cases h
        · rename_i hhigh
          obtain ⟨rfl, rfl⟩ := by simpa using h
          refine ⟨_, pieces_of_readQuad hn hps, ?_⟩
          rw [characters?_single (by simpa using hlow) (by simpa using hhigh), hcs]
          rfl
  · split at h
    · obtain ⟨rfl, rfl⟩ := by simpa using h
      exact ⟨_, .escape ‹_› hps, by simp [characters?, hcs]⟩
    · cases h

theorem pieces_of_stringBody {cs : List Char} (h : stringBody s = .ok (cs, rest)) :
    ∃ ps, Pieces ps s rest ∧ characters? ps = some cs := by
  fun_induction stringBody s generalizing cs with
  | case1 => cases h
  | case2 rest' =>
    obtain ⟨rfl, rfl⟩ := by simpa using h
    exact ⟨[], .closed _, rfl⟩
  | case3 => cases h
  | case4 t c t₁ hesc _ ih =>
    obtain ⟨⟨cs', r⟩, hb, hcs⟩ := Except.map_eq_ok_iff.1 h
    obtain ⟨rfl, rfl⟩ := by simpa using hcs
    obtain ⟨ps, hps, hc⟩ := ih hb
    exact pieces_of_readEscape hesc hps hc
  | case5 => cases h
  | case6 c t hq hb hc ih =>
    obtain ⟨⟨cs', r⟩, hbody, hcs⟩ := Except.map_eq_ok_iff.1 h
    obtain ⟨rfl, rfl⟩ := by simpa using hcs
    obtain ⟨ps, hps, hc'⟩ := ih hbody
    exact ⟨_, .plain hq hb (Nat.le_of_not_lt hc) hps, by simp [characters?, hc']⟩

/-! The other direction goes by the pieces: what is read after them is what they stand for. -/

theorem stringBody_plain {c : Char} (hq : c ≠ '"') (hb : c ≠ '\\') (hc : 0x20 ≤ c.toNat) :
    stringBody (c :: s) = (stringBody s).map fun (cs, r) => (c :: cs, r) := by
  rw [stringBody.eq_def]
  split
  · simp_all
  · simp_all
  · simp_all
  · rename_i c' t hq' hb' heq
    obtain ⟨rfl, rfl⟩ := List.cons.inj heq
    rw [if_neg (Nat.not_lt.2 hc)]

theorem stringBody_escape {c : Char} (h : readEscape s = .ok (c, s₁)) :
    stringBody ('\\' :: s) = (stringBody s₁).map fun (cs, r) => (c :: cs, r) := by
  rw [stringBody.eq_def]
  split
  · simp_all
  · simp_all
  · rename_i t heq
    obtain rfl := (List.cons.inj heq).2
    split
    · simp_all
    · simp_all
  · rename_i c' t hq hb heq
    exact (hb (List.cons.inj heq).1.symm).elim

theorem readEscape_single {n : Nat} (h : readQuad s = .ok (n, rest))
    (hlow : isLowSurrogate n = false) (hhigh : isHighSurrogate n = false) :
    readEscape ('u' :: s) = .ok (Char.ofNat n, rest) := by
  simp only [readEscape, readUnicodeEscape, h, hlow, hhigh, Bool.false_eq_true, if_false]

theorem readEscape_pair {n m : Nat} (h : readQuad s = .ok (n, '\\' :: 'u' :: s₁))
    (hm : readQuad s₁ = .ok (m, rest)) (hlow : isLowSurrogate n = false)
    (hhigh : isHighSurrogate n = true) (hlow' : isLowSurrogate m = true) :
    readEscape ('u' :: s) = .ok (pairedCharacter n m, rest) := by
  simp only [readEscape, readUnicodeEscape, h, hm, hlow, hhigh, hlow', Bool.false_eq_true, if_false,
    if_true]

theorem readEscape_simple {letter c : Char} (h : simpleEscape? letter = some c) :
    readEscape (letter :: s) = .ok (c, s) := by
  unfold readEscape
  split
  · simp_all
  · simp_all [simpleEscape?]
  · simp_all

theorem Pieces.stringBody_eq {ps : List Piece} {cs : List Char} (h : Pieces ps s rest)
    (hcs : characters? ps = some cs) : stringBody s = .ok (cs, rest) := by
  fun_induction characters? ps generalizing s cs with
  | case1 =>
    cases h
    cases hcs
    rw [stringBody]
  | case2 c ps ih =>
    obtain ⟨cs, hc, rfl⟩ := Option.map_eq_some_iff.1 hcs
    cases h with
    | plain hq hb hge hps =>
      rw [stringBody_plain hq hb hge, ih hps hc]
      rfl
    | escape hl hps =>
      rw [stringBody_escape (readEscape_simple hl), ih hps hc]
      rfl
  | case4 n hlow hhigh m ps hm ih =>
    obtain ⟨cs, hc, rfl⟩ := Option.map_eq_some_iff.1 hcs
    obtain ⟨t, s₁, rfl, hn, hps⟩ := h.readQuad_eq
    obtain ⟨t₁, s₂, rfl, hm', hps⟩ := hps.readQuad_eq
    rw [stringBody_escape (readEscape_pair hn hm' (by simpa using hlow) hhigh hm), ih hps hc]
    rfl
  | case7 n ps hlow hhigh ih =>
    obtain ⟨cs, hc, rfl⟩ := Option.map_eq_some_iff.1 hcs
    obtain ⟨t, s₁, rfl, hn, hps⟩ := h.readQuad_eq
    rw [stringBody_escape (readEscape_single hn (by simpa using hlow) (by simpa using hhigh)),
      ih hps hc]
    rfl
  | case3 | case5 | case6 => cases hcs

/-- A string literal is read as the string that its pieces stand for, and is not
read if they stand for none. -/
theorem readString_eq_ok_iff {name : String} :
    readString s = .ok (name, rest) ↔ ∃ ps, Pieces ps s rest ∧ text? ps = some name := by
  constructor
  · intro h
    obtain ⟨⟨cs, r⟩, hb, hname⟩ := Except.map_eq_ok_iff.1 h
    obtain ⟨rfl, rfl⟩ := by simpa using hname
    obtain ⟨ps, hps, hcs⟩ := pieces_of_stringBody hb
    exact ⟨ps, hps, by rw [text?, hcs, Option.map_some]⟩
  · rintro ⟨ps, hps, hname⟩
    obtain ⟨cs, hcs, rfl⟩ := Option.map_eq_some_iff.1 hname
    rw [readString, hps.stringBody_eq hcs]
    rfl

/-! ### Punctuation -/

theorem readWord_eq_ok_iff {w : List Char} {u : Unit} :
    readWord w s = .ok (u, rest) ↔ s = w ++ rest := by
  induction w generalizing s with
  | nil => simp [readWord]
  | cons c w ih =>
    cases s with
    | nil => simp [readWord]
    | cons d s =>
      by_cases h : d = c
      · simp [readWord, h, ih]
      · simp [readWord, h]

theorem readColon_eq_ok_iff : readColon s = .ok rest ↔ Blanks s (':' :: rest) := by
  rw [← skipBlanks_eq_cons_iff rfl, readColon]
  split <;> simp_all

theorem closeList_eq_ok_iff : closeList s = .ok rest ↔ Blanks s (']' :: rest) := by
  rw [← skipBlanks_eq_cons_iff rfl, closeList]
  split
  · simp_all
  · simp_all
  · rename_i h
    rw [h]
    split <;> simp
  · simp_all

end StraightLine.Saved
