import Mathlib.Data.List.Infix
import StraightLine.Proofs.Acceptance
import StraightLine.Proofs.Writing

/-!
# Readers on texts that are cut short

A reader that is given only the beginning of a text says so: it reports the end of the text, and
never anything else.  The one exception is a number, whose beginning can be a number itself; but
something has to come behind a number, and that is missed then.

## Main definitions

* `EndsEarly` — the end of the text is what was reported.
* `Takes` — a reader on everything that begins like a given text, as far as it goes.
* `TakesBefore` — the same up to the exception.

## Main statements

* `takes_readString`, `takesBefore_readLiteral` — the smallest parts.
* `takes_readTagged`, `Members.takes_fieldsWithin`, `takes_itemsWithin` — objects and lists.

## Design notes

* **One statement for both sides of the cut.**  The text given to a reader may end inside what the
  reader is to take, or go on behind it; in the second case the reader leaves what is behind to the
  next one, and there the same question is asked again.  So the place of the cut is never mentioned.
* **The bounds of the loops do not matter.**  A loop that has used up its bound reports the end of
  the text too.
-/

namespace StraightLine.Saved

variable {α β σ : Type} {u t : List Char}

/-! ### Beginnings of texts -/

/-- The beginning of a text with two parts ends inside the first part or reaches
the second.  Every proof about a cut starts with this split, and in the second
case goes on with the rest. -/
theorem prefix_append_cases {x : List Char} (h : u <+: x ++ t) :
    (u <+: x ∧ u ≠ x) ∨ ∃ w, w <+: t ∧ u = x ++ w := by
  by_cases heq : u = x
  · exact .inr ⟨[], List.nil_prefix, by rw [heq, List.append_nil]⟩
  rcases List.prefix_or_prefix_of_prefix h (List.prefix_append x t) with hux | ⟨w, rfl⟩
  · exact .inl ⟨hux, heq⟩
  · exact .inr ⟨w, (List.prefix_append_right_inj x).mp h, rfl⟩

/-- The end of the text is what was reported.  Which of the problems of this
category it is depends on where the text ends, and is left open. -/
def EndsEarly (r : Except Problem α) : Prop := ∃ p, r = .error p ∧ p.category = .endOfText

theorem EndsEarly.map {r : Except Problem α} (h : EndsEarly r) (f : α → β) :
    EndsEarly (r.map f) := by
  obtain ⟨p, rfl, hp⟩ := h
  exact ⟨p, rfl, hp⟩

/-- A step of punctuation: nothing is there, or the character that is expected.
Between these there is no third case, as the beginning of a text has no other
characters than the text. -/
theorem of_prefix_cons {scan : List Char → Except Problem β} {c : Char} {found : List Char → β}
    (hnil : EndsEarly (scan [])) (hcons : ∀ w, scan (c :: w) = .ok (found w)) (h : u <+: c :: t) :
    EndsEarly (scan u) ∨ ∃ w, w <+: t ∧ u = c :: w ∧ scan u = .ok (found w) := by
  rcases List.prefix_cons_iff.mp h with rfl | ⟨w, rfl, hw⟩
  · exact .inl hnil
  · exact .inr ⟨w, hw, rfl, hcons w⟩

/-- On whatever begins like `text` as far as it goes, the reader ends early or
takes `text` and nothing else.

The text behind, `t`, is arbitrary and is handed on: what is left, `w`, begins
like `t`.  So two readers one after the other take two texts one after the
other, and it is never asked where the cut is. -/
def Takes (reader : Reader α) (text : List Char) (a : α) : Prop :=
  ∀ ⦃u t⦄, u <+: text ++ t →
    EndsEarly (reader u) ∨ ∃ w, w <+: t ∧ u = text ++ w ∧ reader u = .ok (a, w)

/-- The same, except that the reader may have read something else up to the end;
and what comes behind `text` stops a number.  It is what can be said of a
number: `12` cut behind its first digit is a number too, and only what is
missing behind it tells that it was cut. -/
def TakesBefore (reader : Reader α) (text : List Char) (a : α) : Prop :=
  ∀ ⦃u t⦄, Stops t → u <+: text ++ t →
    EndsEarly (reader u) ∨ (∃ b, reader u = .ok (b, [])) ∨
      ∃ w, w <+: t ∧ u = text ++ w ∧ reader u = .ok (a, w)

section Takes

variable {reader : Reader α} {text : List Char} {a : α}

theorem Takes.before (h : Takes reader text a) : TakesBefore reader text a :=
  fun _ _ _ hu => (h hu).imp_right .inr

/-- What is read is turned into something else. -/
theorem Takes.map (h : Takes reader text a) (f : α → β) :
    Takes (fun s => (reader s).map fun (a, s) => (f a, s)) text (f a) := by
  intro u t hu
  rcases h hu with hearly | ⟨w, hw, hsplit, hread⟩
  · exact .inl (hearly.map _)
  · refine .inr ⟨w, hw, hsplit, ?_⟩
    simp only [hread]
    rfl

theorem TakesBefore.map (h : TakesBefore reader text a) (f : α → β) :
    TakesBefore (fun s => (reader s).map fun (a, s) => (f a, s)) text (f a) := by
  intro u t ht hu
  rcases h ht hu with hearly | ⟨b, hread⟩ | ⟨w, hw, hsplit, hread⟩
  · exact .inl (hearly.map _)
  · refine .inr (.inl ⟨f b, ?_⟩)
    simp only [hread]
    rfl
  · refine .inr (.inr ⟨w, hw, hsplit, ?_⟩)
    simp only [hread]
    rfl

/-- A text that is cut short is not taken, so the end of the text is reported.
It is the statement that is wanted of whole programs. -/
theorem Takes.endsEarly_of_ne (h : Takes reader text a) (hu : u <+: text) (hne : u ≠ text) :
    EndsEarly (reader u) := by
  have hu' : u <+: text ++ [] := by rwa [List.append_nil]
  refine (h hu').resolve_right ?_
  rintro ⟨w, hw, rfl, -⟩
  rw [List.prefix_nil.mp hw, List.append_nil] at hne
  exact hne rfl

end Takes

/-! ### String literals -/

/-- An escape that ends early ends the string literal early. -/
theorem endsEarly_stringBody_escape {s : List Char} (h : EndsEarly (readEscape s)) :
    EndsEarly (stringBody ('\\' :: s)) := by
  obtain ⟨p, hp, hcategory⟩ := h
  refine ⟨p, ?_, hcategory⟩
  rw [stringBody.eq_def]
  split
  · simp_all
  · simp_all
  · rename_i rest heq
    obtain rfl := (List.cons.inj heq).2
    split
    · simp_all
    · simp_all
  · rename_i c rest hq hb heq
    exact (hb (List.cons.inj heq).1.symm).elim

/-- Four hexadecimal digits that are cut short. -/
theorem readQuad_of_prefix_hexQuad : ∀ n < 0x20, ∀ q ∈ (Json.hexQuad n).inits, q ≠ Json.hexQuad n →
    readQuad q = .error .endInString := by
  decide

theorem readQuad_hexQuad_append (n : Nat) (hn : n < 0x20) (w : List Char) :
    readQuad (Json.hexQuad n ++ w) = .ok (n, w) := by
  obtain ⟨a, b, c, d, i, j, k, l, hquad, ha, hb, hc, hd, hvalue⟩ :=
    readQuad_eq_ok_iff.mp (readQuad_hexQuad n hn)
  rw [hquad, hvalue]
  exact readQuad_of_digits ha hb hc hd

/-- A character is written by a letter, by its number, or as it is.  Cuts inside
an escape are followed in these three cases. -/
theorem escape_cases (c : Char) :
    (∃ letter, simpleEscape? letter = some c ∧ Json.escape c = ['\\', letter]) ∨
      (c.toNat < 0x20 ∧ Json.escape c = '\\' :: 'u' :: Json.hexQuad c.toNat) ∨
      (c ≠ '"' ∧ c ≠ '\\' ∧ 0x20 ≤ c.toNat ∧ Json.escape c = [c]) := by
  unfold Json.escape
  split
  · exact .inl ⟨_, rfl, rfl⟩
  · exact .inl ⟨_, rfl, rfl⟩
  · exact .inl ⟨_, rfl, rfl⟩
  · exact .inl ⟨_, rfl, rfl⟩
  · exact .inl ⟨_, rfl, rfl⟩
  · exact .inl ⟨_, rfl, rfl⟩
  · exact .inl ⟨_, rfl, rfl⟩
  · rename_i hquote hback _ _ _ _ _
    by_cases hlt : c.toNat < 0x20
    · exact .inr (.inl ⟨hlt, if_pos hlt⟩)
    · exact .inr (.inr ⟨hquote, hback, Nat.le_of_not_lt hlt, if_neg hlt⟩)

/-- A character is read as it is written. -/
theorem stringBody_escape_append (c : Char) (w : List Char) :
    stringBody (Json.escape c ++ w) = (stringBody w).map fun (cs, r) => (c :: cs, r) := by
  rcases escape_cases c with ⟨letter, hletter, htext⟩ | ⟨hlt, htext⟩ | ⟨hquote, hback, hge, htext⟩
  · rw [htext]
    exact stringBody_escape (readEscape_simple hletter)
  · have hread := readEscape_single (readQuad_hexQuad_append c.toNat hlt w)
      (by simp [isLowSurrogate]; omega) (by simp [isHighSurrogate]; omega)
    rw [Char.ofNat_toNat] at hread
    rw [htext]
    exact stringBody_escape hread
  · rw [htext]
    exact stringBody_plain hquote hback hge

/-- A character that is cut short. -/
theorem endsEarly_stringBody_of_prefix_escape {c : Char} (h : u <+: Json.escape c)
    (hne : u ≠ Json.escape c) : EndsEarly (stringBody u) := by
  have hnil : EndsEarly (stringBody []) := ⟨.endInString, by rw [stringBody], rfl⟩
  have hback : EndsEarly (stringBody ['\\']) := endsEarly_stringBody_escape ⟨_, rfl, rfl⟩
  rcases escape_cases c with ⟨letter, -, htext⟩ | ⟨hlt, htext⟩ | ⟨-, -, -, htext⟩
  · rw [htext] at h hne
    rcases List.prefix_cons_iff.mp h with rfl | ⟨w, rfl, hw⟩
    · exact hnil
    rcases List.prefix_cons_iff.mp hw with rfl | ⟨w', rfl, hw'⟩
    · exact hback
    · rw [List.prefix_nil.mp hw'] at hne
      exact absurd rfl hne
  · rw [htext] at h hne
    rcases List.prefix_cons_iff.mp h with rfl | ⟨w, rfl, hw⟩
    · exact hnil
    rcases List.prefix_cons_iff.mp hw with rfl | ⟨q, rfl, hq⟩
    · exact hback
    have hquad := readQuad_of_prefix_hexQuad c.toNat hlt q ((List.mem_inits _ _).mpr hq)
      fun heq => hne (by rw [heq])
    apply endsEarly_stringBody_escape
    refine ⟨.endInString, ?_, rfl⟩
    simp only [readEscape, readUnicodeEscape, hquad]
  · rw [htext] at h hne
    rcases List.prefix_cons_iff.mp h with rfl | ⟨w, rfl, hw⟩
    · exact hnil
    · rw [List.prefix_nil.mp hw] at hne
      exact absurd rfl hne

theorem takes_stringBody (cs : List Char) :
    Takes stringBody (cs.flatMap Json.escape ++ ['"']) cs := by
  induction cs with
  | nil =>
      intro u t hu
      have hnil : EndsEarly (stringBody []) := ⟨.endInString, by rw [stringBody], rfl⟩
      exact of_prefix_cons hnil (fun w => by rw [stringBody]) hu
  | cons c cs ih =>
      intro u t hu
      rw [List.flatMap_cons, List.append_assoc, List.append_assoc] at hu
      rcases prefix_append_cases hu with ⟨hcut, hne⟩ | ⟨w, hw, rfl⟩
      · exact .inl (endsEarly_stringBody_of_prefix_escape hcut hne)
      · rw [← List.append_assoc] at hw
        rw [stringBody_escape_append]
        rcases ih hw with hearly | ⟨w', hw', rfl, hread⟩
        · exact .inl (hearly.map _)
        · refine .inr ⟨w', hw', by simp, ?_⟩
          rw [hread]
          rfl

/-- A string literal behind its opening quote. -/
def literalText (name : String) : List Char := name.toList.flatMap Json.escape ++ ['"']

theorem takes_readString (name : String) : Takes readString (literalText name) name := by
  have h := (takes_stringBody name.toList).map String.ofList
  rwa [String.ofList_toList] at h

/-! ### Integers -/

/-- The first digits of a natural number are the digits of a smaller one.  So a
number that is cut is read as a number in range if the whole number is in range. -/
theorem exists_of_prefix_toDigits {n : Nat} (h : u <+: Nat.toDigits 10 n) (hne : u ≠ []) :
    ∃ m ≤ n, u = Nat.toDigits 10 m ∧ (0 < n → 0 < m) := by
  induction n using Nat.strong_induction_on with
  | h n ih =>
      by_cases hn : n < 10
      · rw [Nat.toDigits_of_lt_base hn] at h
        rcases List.prefix_cons_iff.mp h with rfl | ⟨w, rfl, hw⟩
        · exact absurd rfl hne
        · rw [List.prefix_nil.mp hw, ← Nat.toDigits_of_lt_base hn]
          exact ⟨n, Nat.le_refl n, rfl, id⟩
      · have hsplit := Nat.toDigits_of_base_le (b := 10) (n := n) (by decide) (by omega)
        rw [hsplit] at h
        rcases List.prefix_concat_iff.mp h with rfl | h
        · exact ⟨n, Nat.le_refl n, hsplit.symm, id⟩
        · obtain ⟨m, hm, hu, hpos⟩ := ih (n / 10) (by omega) h
          exact ⟨m, by omega, hu, fun _ => hpos (by omega)⟩

theorem toList_toString_ofNat (m : Nat) : (toString (m : Int)).toList = Nat.toDigits 10 m :=
  Nat.toList_repr

theorem toList_toString_neg {m : Nat} (hm : 0 < m) :
    (toString (-(m : Int))).toList = '-' :: Nat.toDigits 10 m := by
  obtain ⟨k, rfl⟩ := Nat.exists_eq_add_of_le' hm
  have htext : toString (-((k + 1 : Nat) : Int)) = "-" ++ (k + 1).repr := rfl
  rw [htext, String.toList_append, Nat.toList_repr]
  rfl

/-- The beginning of an integer is empty, a sign alone, or an integer that is
closer to zero.  None of these is out of range, and that is why no other problem
than the end of the text can be reported. -/
theorem exists_of_prefix_toString {i : Int} (h : u <+: (toString i).toList) :
    u = [] ∨ u = ['-'] ∨ ∃ i' : Int, u = (toString i').toList ∧ min 0 i ≤ i' ∧ i' ≤ max 0 i := by
  by_cases hnil : u = []
  · exact .inl hnil
  refine .inr ?_
  obtain ⟨n, rfl | rfl⟩ := Int.eq_nat_or_neg i
  · rw [toList_toString_ofNat] at h
    obtain ⟨m, hm, rfl, -⟩ := exists_of_prefix_toDigits h hnil
    exact .inr ⟨m, (toList_toString_ofNat m).symm, by omega, by omega⟩
  · rcases Nat.eq_zero_or_pos n with rfl | hn
    · obtain ⟨m, hm, rfl, -⟩ := exists_of_prefix_toDigits (n := 0) h hnil
      exact .inr ⟨m, (toList_toString_ofNat m).symm, by omega, by omega⟩
    rw [toList_toString_neg hn] at h
    rcases List.prefix_cons_iff.mp h with rfl | ⟨w, rfl, hw⟩
    · exact absurd rfl hnil
    by_cases hw' : w = []
    · exact .inl (by rw [hw'])
    · obtain ⟨m, hm, rfl, hpos⟩ := exists_of_prefix_toDigits hw hw'
      exact .inr ⟨-m, (toList_toString_neg (hpos hn)).symm, by omega, by omega⟩

/-- An integer literal is read where nothing follows that a number goes on into. -/
theorem readLiteral_toString (levels : Nat) (w : Int64) {rest : List Char} (hrest : Stops rest) :
    readLiteral levels ((toString w.toInt).toList ++ rest) = .ok (.int w, rest) := by
  obtain ⟨n, hint, hsigned, hspells⟩ := spells_int w.toInt
  exact (reads_readLiteral levels hrest).mpr ⟨_, hspells rest, .int hint hsigned.symm⟩

theorem takesBefore_readLiteral (levels : Nat) (w : Int64) :
    TakesBefore (readLiteral levels) (toString w.toInt).toList (.int w) := by
  intro u t ht hu
  rcases prefix_append_cases hu with ⟨hcut, -⟩ | ⟨w', hw', rfl⟩
  · rcases exists_of_prefix_toString hcut with rfl | rfl | ⟨i, rfl, hlow, hhigh⟩
    · exact .inl ⟨.endInValue, by cases levels <;> rfl, rfl⟩
    · exact .inl ⟨.endInValue, by cases levels <;> rfl, rfl⟩
    · -- A number between zero and a machine integer is one itself.
      obtain ⟨v, rfl⟩ : ∃ v : Int64, v.toInt = i := by
        have hlower := w.le_toInt
        have hupper := w.toInt_lt
        exact ⟨Int64.ofInt i, Int64.toInt_ofInt_of_le (by omega) (by omega)⟩
      have hread := readLiteral_toString levels v (Blanks.refl []).stops_of_end
      rw [List.append_nil] at hread
      exact .inr (.inl ⟨_, hread⟩)
  · have hstops : Stops w' := by
      rintro c s rfl
      obtain ⟨s', rfl⟩ := hw'
      exact ht c _ rfl
    exact .inr (.inr ⟨w', hw', rfl, readLiteral_toString levels w hstops⟩)

/-! ### Names -/

/-- A string literal with both quotes. -/
theorem toList_quote_eq (name : String) : (Json.quote name).toList = '"' :: literalText name :=
  toList_quote name

theorem takes_readName {name : String} (hname : name ≠ "") :
    Takes readName (Json.quote name).toList name := by
  intro u t hu
  rw [toList_quote_eq] at hu ⊢
  rcases List.prefix_cons_iff.mp hu with rfl | ⟨w, rfl, hw⟩
  · exact .inl ⟨.endInValue, rfl, rfl⟩
  have hstep : readStringValue ('"' :: w) = readString w := rfl
  rcases takes_readString name hw with ⟨p, hread, hp⟩ | ⟨w', hw', rfl, hread⟩
  · exact .inl ⟨p, by rw [readName, hstep, hread], hp⟩
  · have hempty : name.isEmpty = false := by simpa using hname
    refine .inr ⟨w', hw', rfl, ?_⟩
    rw [readName, hstep, hread]
    simp only [hempty, Bool.false_eq_true, if_false]

/-! ### Objects with one field -/

/-- A key with its quotes and its colon. -/
def keyText (name : String) : List Char := '"' :: (literalText name ++ [':'])

theorem takes_readVariant {known : List String} {name : String} (hname : name ∈ known) :
    Takes (readVariant known) (keyText name) name := by
  intro u t hu
  rw [keyText, List.cons_append, List.append_assoc] at hu
  rcases List.prefix_cons_iff.mp hu with rfl | ⟨w, rfl, hw⟩
  · exact .inl ⟨.endInObject, rfl, rfl⟩
  have hskip : skipBlanks ('"' :: w) = '"' :: w := rfl
  rcases takes_readString name hw with ⟨p, hread, hp⟩ | ⟨w', hw', rfl, hread⟩
  · exact .inl ⟨p, by simp only [readVariant, hskip, hread], hp⟩
  have hknown : known.contains name = true := List.contains_iff_mem.mpr hname
  have hcolon : EndsEarly (readColon []) := ⟨.endInObject, rfl, rfl⟩
  rcases of_prefix_cons hcolon (fun s => rfl) hw' with ⟨p, hc, hp⟩ | ⟨w'', hw'', rfl, hc⟩
  · refine .inl ⟨p, ?_, hp⟩
    simp only [readVariant, hskip, hread, hknown, if_true, hc]
    rfl
  · refine .inr ⟨w'', hw'', by simp [keyText], ?_⟩
    simp only [readVariant, hskip, hread, hknown, if_true, hc]
    rfl

/-- A value that is written as its bare name. -/
theorem takes_readTagged_bare {known : List String} {bare : String → Except Problem α}
    {content : Option (String → Reader α)} {name : String} {a : α} (hname : name ∈ known)
    (hbare : bare name = .ok a) :
    Takes (readTagged known bare content) (Json.quote name).toList a := by
  intro u t hu
  rw [toList_quote_eq] at hu ⊢
  rcases List.prefix_cons_iff.mp hu with rfl | ⟨w, rfl, hw⟩
  · exact .inl ⟨.endInValue, rfl, rfl⟩
  have hskip : skipBlanks ('"' :: w) = '"' :: w := rfl
  have hknown : known.contains name = true := List.contains_iff_mem.mpr hname
  rcases takes_readString name hw with ⟨p, hread, hp⟩ | ⟨w', hw', rfl, hread⟩
  · exact .inl ⟨p, by simp only [readTagged, hskip, hread], hp⟩
  · refine .inr ⟨w', hw', rfl, ?_⟩
    simp only [readTagged, hskip, hread, hknown, if_true, hbare]
    rfl

/-- An object with one field is closed behind its content, so a number that was
taken to be complete there is missed as well.  This is where `TakesBefore`
becomes `Takes` again. -/
theorem takes_readTagged {known : List String} {bare : String → Except Problem α}
    {content : String → Reader α} {name : String} {text : List Char} {a : α} (hname : name ∈ known)
    (h : TakesBefore (content name) text a) :
    Takes (readTagged known bare (some content)) ('\x7b' :: (keyText name ++ (text ++ ['\x7d']))) a
    := by
  intro u t hu
  rw [List.cons_append, List.append_assoc, List.append_assoc] at hu
  rcases List.prefix_cons_iff.mp hu with rfl | ⟨w, rfl, hw⟩
  · exact .inl ⟨.endInValue, rfl, rfl⟩
  have hskip : skipBlanks ('\x7b' :: w) = '\x7b' :: w := rfl
  rcases takes_readVariant hname hw with ⟨p, hkey, hp⟩ | ⟨w', hw', rfl, hkey⟩
  · exact .inl ⟨p, by simp only [readTagged, hskip, hkey], hp⟩
  have hstops : Stops (['\x7d'] ++ t) := (Blanks.refl _).stops (.inr (.inr rfl))
  have hclose : EndsEarly (closeVariant []) := ⟨.endInObject, rfl, rfl⟩
  rcases h hstops hw' with ⟨p, hread, hp⟩ | ⟨b, hread⟩ | ⟨w'', hw'', rfl, hread⟩
  · exact .inl ⟨p, by simp only [readTagged, hskip, hkey, hread], hp⟩
  · refine .inl ⟨.endInObject, ?_, rfl⟩
    simp only [readTagged, hskip, hkey, hread]
    rfl
  rcases of_prefix_cons hclose (fun s => rfl) hw'' with ⟨p, hc, hp⟩ | ⟨w₃, hw₃, rfl, hc⟩
  · refine .inl ⟨p, ?_, hp⟩
    simp only [readTagged, hskip, hkey, hread, hc]
    rfl
  · refine .inr ⟨w₃, hw₃, by simp, ?_⟩
    simp only [readTagged, hskip, hkey, hread, hc]
    rfl

/-! ### Lists -/

/-- What stands in front of an item or a member: a comma, unless it is the first one. -/
def opening (first : Bool) : List Char := if first then [] else [',']

/-- Texts with commas between them, and one in front of them if others come
before.  It follows the loops over items and members, whose flag it has. -/
def separated : Bool → List (List Char) → List Char
  | _, [] => []
  | first, text :: texts => opening first ++ (text ++ separated false texts)

theorem commaSeparated_eq (texts : List (List Char)) :
    commaSeparated texts = separated true texts := by
  induction texts with
  | nil => rfl
  | cons text texts ih =>
      cases texts with
      | nil => simp [commaSeparated, separated, opening]
      | cons next texts =>
          rw [commaSeparated, ih]
          simp [separated, opening]

/-- What stands in front of an item that is an object. -/
theorem nextItem_of_prefix {first : Bool} (h : u <+: opening first ++ '\x7b' :: t) :
    EndsEarly (nextItem first u) ∨ ∃ w, w <+: t ∧ u = opening first ++ '\x7b' :: w ∧
      nextItem first u = .ok (.more ('\x7b' :: w)) := by
  cases first with
  | true => exact of_prefix_cons ⟨.endInList, rfl, rfl⟩ (fun w => rfl) h
  | false =>
      rcases List.prefix_cons_iff.mp h with rfl | ⟨w, rfl, hw⟩
      · exact .inl ⟨.endInList, rfl, rfl⟩
      rcases List.prefix_cons_iff.mp hw with rfl | ⟨w', rfl, hw'⟩
      · exact .inl ⟨.endInValue, rfl, rfl⟩
      · exact .inr ⟨w', hw', rfl, rfl⟩

/-- An object text is read as an item.  That it starts with a brace is what the
loop over items looks at before it reads one. -/
def TakesObject (item : Reader α) (text : List Char) (a : α) : Prop :=
  Takes item text a ∧ ∃ s, text = '\x7b' :: s

theorem takes_itemsWithin {item : Reader α} {texts : List (List Char)} {as : List α}
    (h : List.Forall₂ (TakesObject item) texts as) :
    ∀ bound first, Takes (itemsWithin item bound first) (separated first texts ++ [']']) as := by
  induction h with
  | nil =>
      intro bound first u t hu
      cases bound with
      | zero => exact .inl ⟨.endInList, rfl, rfl⟩
      | succ bound =>
          rcases List.prefix_cons_iff.mp hu with rfl | ⟨w, rfl, hw⟩
          · exact .inl ⟨.endInList, rfl, rfl⟩
          · exact .inr ⟨w, hw, rfl, rfl⟩
  | @cons text a texts as htext _ ih =>
      intro bound first u t hu
      obtain ⟨htakes, s, rfl⟩ := htext
      cases bound with
      | zero => exact .inl ⟨.endInList, rfl, rfl⟩
      | succ bound =>
          simp only [separated, List.append_assoc, List.cons_append] at hu
          rcases nextItem_of_prefix hu with ⟨p, hnext, hp⟩ | ⟨w, hw, rfl, hnext⟩
          · exact .inl ⟨p, by rw [itemsWithin, hnext], hp⟩
          have hitem := htakes ((List.prefix_cons_inj '\x7b').mpr hw)
          rcases hitem with ⟨p, hread, hp⟩ | ⟨w', hw', hsplit, hread⟩
          · exact .inl ⟨p, by simp only [itemsWithin, hnext, hread], hp⟩
          obtain rfl : w = s ++ w' := (List.cons.inj hsplit).2
          have hbehind : w' <+: (separated false texts ++ [']']) ++ t := by simpa using hw'
          rcases ih bound false hbehind with ⟨p, hrest, hp⟩ | ⟨w'', hw'', rfl, hrest⟩
          · refine .inl ⟨p, ?_, hp⟩
            simp only [itemsWithin, hnext, hread, hrest]
            rfl
          · refine .inr ⟨w'', hw'', by simp [separated], ?_⟩
            simp only [itemsWithin, hnext, hread, hrest]
            rfl

theorem takes_readList {item : Reader α} {texts : List (List Char)} {as : List α}
    (h : List.Forall₂ (TakesObject item) texts as) :
    Takes (readList (some item)) ('[' :: (separated true texts ++ [']'])) as := by
  intro u t hu
  rcases List.prefix_cons_iff.mp hu with rfl | ⟨w, rfl, hw⟩
  · exact .inl ⟨.endInValue, rfl, rfl⟩
  have hstep : readList (some item) ('[' :: w) = items item w := rfl
  rw [hstep]
  refine (takes_itemsWithin h _ true hw).imp_right ?_
  rintro ⟨w', hw', rfl, hread⟩
  exact ⟨w', hw', rfl, hread⟩

/-! ### Records -/

/-- What stands in front of a key, with its opening quote. -/
theorem nextKey_of_prefix {first : Bool} (h : u <+: opening first ++ '"' :: t) :
    EndsEarly (nextKey first u) ∨ ∃ w, w <+: t ∧ u = opening first ++ '"' :: w ∧
      nextKey first u = .ok (.more w) := by
  cases first with
  | true => exact of_prefix_cons ⟨.endInObject, rfl, rfl⟩ (fun w => rfl) h
  | false =>
      rcases List.prefix_cons_iff.mp h with rfl | ⟨w, rfl, hw⟩
      · exact .inl ⟨.endInObject, rfl, rfl⟩
      rcases List.prefix_cons_iff.mp hw with rfl | ⟨w', rfl, hw'⟩
      · exact .inl ⟨.endInValue, rfl, rfl⟩
      · exact .inr ⟨w', hw', rfl, rfl⟩

theorem takes_readField (name : String) {value : Reader α} {text : List Char} {a : α}
    (h : Takes value text a) : Takes (readField name none value) (':' :: text) a := by
  intro u t hu
  rcases List.prefix_cons_iff.mp hu with rfl | ⟨w, rfl, hw⟩
  · exact .inl ⟨.endInObject, rfl, rfl⟩
  have hstep : readField name none value (':' :: w) = value w := rfl
  rw [hstep]
  refine (h hw).imp_right ?_
  rintro ⟨w', hw', rfl, hread⟩
  exact ⟨w', hw', rfl, hread⟩

/-- A member of an object: its key, and the text of its value. -/
def memberText (m : String × List Char) : List Char := keyText m.1 ++ m.2

/-- Members that lead from one state to another, each of them taken in the state
in which it stands.  It is `Folds` for texts that are cut. -/
inductive Members (field : σ → String → Reader σ) : σ → List (String × List Char) → σ → Prop where
  | nil (state : σ) : Members field state [] state
  | cons {state state₁ state₂ : σ} {key : String} {text : List Char}
      {ms : List (String × List Char)} :
      Takes (field state key) (':' :: text) state₁ → Members field state₁ ms state₂ →
      Members field state ((key, text) :: ms) state₂

theorem Members.takes_fieldsWithin {field : σ → String → Reader σ} {state state' : σ}
    {ms : List (String × List Char)} (h : Members field state ms state') :
    ∀ bound first, Takes (fieldsWithin field bound first state)
      (separated first (ms.map memberText) ++ ['\x7d']) state' := by
  induction h with
  | nil state =>
      intro bound first u t hu
      cases bound with
      | zero => exact .inl ⟨.endInObject, rfl, rfl⟩
      | succ bound =>
          rcases List.prefix_cons_iff.mp hu with rfl | ⟨w, rfl, hw⟩
          · exact .inl ⟨.endInObject, rfl, rfl⟩
          · exact .inr ⟨w, hw, rfl, rfl⟩
  | @cons state state₁ state₂ key text ms hfield _ ih =>
      intro bound first u t hu
      cases bound with
      | zero => exact .inl ⟨.endInObject, rfl, rfl⟩
      | succ bound =>
          simp only [List.map_cons, separated, memberText, keyText, List.append_assoc,
            List.cons_append, List.nil_append] at hu
          rcases nextKey_of_prefix hu with ⟨p, hnext, hp⟩ | ⟨w, hw, rfl, hnext⟩
          · exact .inl ⟨p, by rw [fieldsWithin, hnext], hp⟩
          rcases takes_readString key hw with ⟨p, hkey, hp⟩ | ⟨w₁, hw₁, rfl, hkey⟩
          · exact .inl ⟨p, by simp only [fieldsWithin, hnext, hkey], hp⟩
          rcases hfield hw₁ with ⟨p, hread, hp⟩ | ⟨w₂, hw₂, rfl, hread⟩
          · exact .inl ⟨p, by simp only [fieldsWithin, hnext, hkey, hread], hp⟩
          have hbehind : w₂ <+: (separated false (ms.map memberText) ++ ['\x7d']) ++ t := by
            simpa using hw₂
          rcases ih bound false hbehind with ⟨p, hrest, hp⟩ | ⟨w₃, hw₃, rfl, hrest⟩
          · exact .inl ⟨p, by simp only [fieldsWithin, hnext, hkey, hread, hrest], hp⟩
          · refine .inr ⟨w₃, hw₃, by simp [separated, memberText, keyText], ?_⟩
            simp only [fieldsWithin, hnext, hkey, hread, hrest]

/-- A record that is written as an object, from its members. -/
theorem Members.takes_readRecord {field : σ → String → Reader σ} {state state' : σ}
    {ms : List (String × List Char)} {shape : Shape} {fromArray fromObject : Reader α}
    {complete : σ → Except Problem α} {a : α} (h : Members field state ms state')
    (hobject : ∀ s, fromObject s =
      (fields field state s).bind fun p => (complete p.1).map fun a => (a, p.2))
    (hcomplete : complete state' = .ok a) :
    Takes (readRecord shape (some (fromArray, fromObject)))
      ('\x7b' :: (separated true (ms.map memberText) ++ ['\x7d'])) a := by
  intro u t hu
  rcases List.prefix_cons_iff.mp hu with rfl | ⟨w, rfl, hw⟩
  · exact .inl ⟨.endInValue, rfl, rfl⟩
  have hstep : readRecord shape (some (fromArray, fromObject)) ('\x7b' :: w) = fromObject w := rfl
  rw [hstep, hobject]
  rcases h.takes_fieldsWithin (w.length + 1) true hw with ⟨p, hread, hp⟩ | ⟨w', hw', rfl, hread⟩
  · refine .inl ⟨p, ?_, hp⟩
    rw [fields, hread]
    rfl
  · refine .inr ⟨w', hw', rfl, ?_⟩
    rw [fields, hread]
    simp only [Except.bind, hcomplete]
    rfl

end StraightLine.Saved
