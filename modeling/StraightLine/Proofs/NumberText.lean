import StraightLine.Arithmetic
import StraightLine.Proofs.ShortestDecimal

/-!
# The text of a number tells the number

Values are written so that no two of them have the same text: an integer never has a point, a
floating number always has one, and of two floating numbers with the same sign and the same digits
around the point neither differs from the other.

## Main definitions

* `PointNumeral` — digits around a point, with the number that they denote.
* `Value.Finite` — an integer, or a finite floating number.

## Main statements

* `pointNumeral_positionalText` — positional notation denotes the decimal that it is made from.
* `floatText_injective`, `Value.text_injective` — equal texts are texts of equal numbers.

## Design notes

* **A text is read backwards as far as needed:** it splits at its only point, so it has one value,
  and that value lies in the rounding interval of a single number.
* Not-a-number and the infinities are left out: a text without a point is theirs.
-/

namespace StraightLine

theorem toList_pushn (s : String) (c : Char) (n : Nat) :
    (s.pushn c n).toList = s.toList ++ List.replicate n c := by
  induction n with
  | zero => simp [String.pushn, Nat.repeat]
  | succ n ih =>
      rw [String.pushn, Nat.repeat, String.toList_push, ← String.pushn, ih, List.append_assoc,
        List.replicate_succ']

/-- A natural number is written with digits alone. -/
theorem isDigit_of_mem_toString_nat {n : Nat} {c : Char} (h : c ∈ (toString n).toList) :
    c.isDigit = true := by
  rw [show (toString n).toList = Nat.toDigits 10 n from Nat.toList_repr] at h
  exact Nat.isDigit_of_mem_toDigits (by decide) (by decide) h

theorem notMem_toString_nat {c : Char} (hc : c.isDigit = false) (n : Nat) :
    c ∉ (toString n).toList := by
  intro hmem
  rw [isDigit_of_mem_toString_nat hmem] at hc
  cases hc

/-- A text that has digits before and after a point, with the number that it
denotes.  There may be no digits behind the point, but there is one in front of
it, so that a text starts like a number. -/
inductive PointNumeral : List Char → ℚ → Prop where
  | mk {whole fraction : List Char} (leading : whole ≠ [])
      (digits : ∀ c ∈ whole ++ fraction, c.isDigit = true) :
      PointNumeral (whole ++ '.' :: fraction)
        (Nat.ofDigitChars 10 (whole ++ fraction) 0 / 10 ^ fraction.length)

namespace PointNumeral

theorem isDigit_ne_point {c : Char} (h : c.isDigit = true) : c ≠ '.' := by
  rintro rfl
  cases h

/-- The point is where a numeral splits, so it denotes one number. -/
theorem unique {text : List Char} {q q' : ℚ} (h : PointNumeral text q)
    (h' : PointNumeral text q') : q = q' := by
  obtain ⟨-, hdigits⟩ := h
  generalize htext : _ ++ '.' :: _ = text at h'
  obtain ⟨-, hdigits'⟩ := h'
  have hsplit := (List.append_cons_inj_of_notMem
    (fun hmem => isDigit_ne_point (hdigits _ (List.mem_append_left _ hmem)) rfl)
    (fun hmem => isDigit_ne_point (hdigits _ (List.mem_append_right _ hmem)) rfl)).mp htext
  rw [hsplit.1, hsplit.2.2]

theorem of_eq {text : List Char} {q : ℚ} (whole fraction : List Char)
    (htext : text = whole ++ '.' :: fraction) (leading : whole ≠ [])
    (digits : ∀ c ∈ whole ++ fraction, c.isDigit = true)
    (hvalue : Nat.ofDigitChars 10 (whole ++ fraction) 0 = q * 10 ^ fraction.length) :
    PointNumeral text q := by
  have hq : q = Nat.ofDigitChars 10 (whole ++ fraction) 0 / 10 ^ fraction.length := by
    rw [hvalue, mul_div_cancel_right₀ _ (by positivity)]
  rw [htext, hq]
  exact .mk leading digits

/-- A numeral starts with a digit. -/
theorem isDigit_head {text : List Char} {q : ℚ} (h : PointNumeral text q) :
    ∀ c ∈ text.head?, c.isDigit = true := by
  obtain ⟨leading, hdigits⟩ := h
  obtain ⟨first, rest, rfl⟩ := List.exists_cons_of_ne_nil leading
  intro c hc
  cases hc
  exact hdigits _ List.mem_cons_self

end PointNumeral

/-- Positional notation denotes the decimal that it is made from. -/
theorem pointNumeral_positionalText (d : Decimal) :
    PointNumeral (NumberStyle.positionalText d).toList d.value := by
  have hdigits : ∀ c ∈ Nat.toDigits 10 d.digits, c.isDigit = true :=
    fun c hc => Nat.isDigit_of_mem_toDigits (by decide) (by decide) hc
  have hzeros : ∀ n, ∀ c ∈ List.replicate n '0', c.isDigit = true := by
    intro n c hc
    rw [(List.mem_replicate.mp hc).2]
    decide
  dsimp only [NumberStyle.positionalText]
  split
  · rename_i hwhole
    obtain ⟨zeros, hzero⟩ := Int.eq_ofNat_of_zero_le hwhole
    refine .of_eq (Nat.toDigits 10 d.digits ++ List.replicate zeros '0') ['0'] ?_ ?_ ?_ ?_
    · simp [toList_pushn, hzero]
    · simp [Nat.toDigits_ne_nil]
    · intro c hc
      simp only [List.mem_append, List.mem_singleton] at hc
      rcases hc with (hc | hc) | rfl
      · exact hdigits c hc
      · exact hzeros zeros c hc
      · decide
    · simp [Nat.ofDigitChars_append, Nat.ofDigitChars_replicate_zero, Nat.ofDigitChars_cons,
        Nat.ofDigitChars_ten_toDigits, Decimal.value, hzero]
      ring
  · rename_i hfraction
    generalize hplaces : (-d.exponent).toNat = places
    -- Zeros in front make the digits long enough to have one before the point.
    generalize hzero : places + 1 - (toString d.digits).length = zeros
    have hpadded : ("".pushn '0' zeros ++ toString d.digits).toList =
        List.replicate zeros '0' ++ Nat.toDigits 10 d.digits := by
      simp [toList_pushn]
    rw [hpadded]
    generalize hchars : List.replicate zeros '0' ++ Nat.toDigits 10 d.digits = chars
    have hlength : places < chars.length := by
      have hdigitCount : (toString d.digits).length = (Nat.toDigits 10 d.digits).length := by
        rw [← String.length_toList]
        exact congrArg List.length Nat.toList_repr
      rw [← hchars, List.length_append, List.length_replicate]
      omega
    refine .of_eq (chars.take (chars.length - places)) (chars.drop (chars.length - places))
      ?_ ?_ ?_ ?_
    · simp
    · rw [ne_eq, List.take_eq_nil_iff, not_or]
      exact ⟨by omega, List.ne_nil_of_length_pos (by omega)⟩
    · intro c hc
      rw [List.take_append_drop, ← hchars] at hc
      rcases List.mem_append.mp hc with hc | hc
      · exact hzeros zeros c hc
      · exact hdigits c hc
    · have hshift : (10 : ℚ) ^ d.exponent * 10 ^ places = 1 := by
        rw [← zpow_natCast, ← zpow_add₀ (by norm_num), show d.exponent + places = 0 by omega,
          zpow_zero]
      rw [List.take_append_drop, List.length_drop, Nat.sub_sub_self hlength.le, Decimal.value,
        mul_assoc, hshift, mul_one, ← hchars, Nat.ofDigitChars_append,
        Nat.ofDigitChars_replicate_zero, Nat.mul_zero, Nat.ofDigitChars_ten_toDigits]

/-! ## Floating numbers -/

/-- The text of the magnitude of a number. -/
def magnitudeText (d : Dyadic) : String :=
  if d.mantissa == 0 then "0.0"
  else NumberStyle.source.decimalText (d.shortest NumberStyle.source.tie)

/-- It denotes a number that is read as this magnitude.  Zero is a case of its
own, because it has no shortest decimal. -/
theorem exists_pointNumeral_magnitudeText {d : Dyadic} (hd : d.Canonical) :
    ∃ q, PointNumeral (magnitudeText d).toList q ∧ d.IdentifiedBy q := by
  unfold magnitudeText
  rcases Nat.eq_zero_or_pos d.mantissa with hzero | hpos
  · rw [if_pos (beq_iff_eq.mpr hzero)]
    refine ⟨0, .of_eq ['0'] ['0'] rfl (by simp) (by simp) ?_, Or.inl ⟨hzero, rfl⟩⟩
    rw [zero_mul]
    exact_mod_cast (show Nat.ofDigitChars 10 (['0'] ++ ['0']) 0 = 0 by decide)
  · rw [if_neg (by simpa using hpos.ne')]
    exact ⟨_, pointNumeral_positionalText _, Or.inr ⟨hpos, Dyadic.contains_shortest hd hpos _⟩⟩

/-- The sign in front of the digits of a number. -/
def signText (negative : Bool) : List Char := if negative then ['-'] else []

/-- A sign is no part of what is written behind it.  Texts can thus be compared
sign by sign and magnitude by magnitude. -/
theorem signText_append_inj {negative negative' : Bool} {xs ys : List Char}
    (hxs : xs.head? ≠ some '-') (hys : ys.head? ≠ some '-')
    (h : signText negative ++ xs = signText negative' ++ ys) : negative = negative' ∧ xs = ys := by
  cases negative <;> cases negative'
  · exact ⟨rfl, h⟩
  · exact absurd (congrArg List.head? h) hxs
  · exact absurd (congrArg List.head? h).symm hys
  · exact ⟨rfl, List.append_cancel_left h⟩

theorem head?_ne_sign {xs : List Char} (h : ∀ c ∈ xs.head?, c.isDigit = true) :
    xs.head? ≠ some '-' :=
  fun hhead => absurd (h '-' hhead) (by decide)

theorem toList_floatText {x : Float} (hx : x.isFinite = true) :
    (floatText x).toList = signText (Dyadic.ofFloat x).negative ++
      (magnitudeText (Dyadic.ofFloat x)).toList := by
  rw [floatText, if_pos hx]
  dsimp only [NumberStyle.finiteText, signText]
  split
  · rw [String.toList_append]
    rfl
  · rfl

/-- **Finite floating numbers with the same text are equal,** sign of zero
included.  The text denotes one rational number; it lies in the rounding
interval of both, and two numbers with a common point in their intervals are
equal. -/
theorem floatText_injective {x y : Float} (hx : x.isFinite = true) (hy : y.isFinite = true)
    (h : floatText x = floatText y) : x = y := by
  obtain ⟨q, hq, hread⟩ := exists_pointNumeral_magnitudeText (Dyadic.canonical_ofFloat x)
  obtain ⟨q', hq', hread'⟩ := exists_pointNumeral_magnitudeText (Dyadic.canonical_ofFloat y)
  have hchars := congrArg String.toList h
  rw [toList_floatText hx, toList_floatText hy] at hchars
  obtain ⟨hsign, hmagnitude⟩ := signText_append_inj (head?_ne_sign hq.isDigit_head)
    (head?_ne_sign hq'.isDigit_head) hchars
  rw [← hmagnitude] at hq'
  cases hq.unique hq'
  exact Dyadic.ofFloat_injective (Dyadic.eq_of_identifiedBy (Dyadic.canonical_ofFloat x)
    (Dyadic.canonical_ofFloat y) hsign hread hread')

/-! ## Values -/

/-- The characters that numbers are written with. -/
def isNumeric (c : Char) : Bool := c.isDigit || c == '-' || c == '.'

theorem isNumeric_of_isDigit {c : Char} (h : c.isDigit = true) : isNumeric c = true := by
  simp [isNumeric, h]

theorem isNumeric_of_mem_signText {negative : Bool} {c : Char} (h : c ∈ signText negative) :
    isNumeric c = true := by
  cases negative with
  | false => cases h
  | true =>
      rw [List.mem_singleton.mp h]
      decide

theorem PointNumeral.isNumeric {text : List Char} {q : ℚ} (h : PointNumeral text q) :
    ∀ c ∈ text, isNumeric c = true := by
  obtain ⟨-, hdigits⟩ := h
  intro c hc
  rcases List.mem_append.mp hc with hc | hc
  · exact isNumeric_of_isDigit (hdigits c (List.mem_append_left _ hc))
  · rcases List.mem_cons.mp hc with rfl | hc
    · decide
    · exact isNumeric_of_isDigit (hdigits c (List.mem_append_right _ hc))

theorem PointNumeral.point_mem {text : List Char} {q : ℚ} (h : PointNumeral text q) :
    '.' ∈ text := by
  obtain ⟨-, -⟩ := h
  simp

theorem toList_toString_int (n : ℤ) :
    (toString n).toList = signText (n < 0) ++ Nat.toDigits 10 n.natAbs := by
  cases n with
  | ofNat m =>
      rw [decide_eq_false (by simp)]
      exact Nat.toList_repr
  | negSucc m =>
      rw [decide_eq_true (Int.negSucc_lt_zero m)]
      show ("-" ++ Nat.repr (m + 1)).toList = _
      rw [String.toList_append, Nat.toList_repr]
      rfl

theorem toString_int_injective {m n : ℤ} (h : toString m = toString n) : m = n := by
  have hchars := congrArg String.toList h
  rw [toList_toString_int, toList_toString_int] at hchars
  have hhead : ∀ k : ℕ, (Nat.toDigits 10 k).head? ≠ some '-' := fun k => head?_ne_sign fun c hc =>
    Nat.isDigit_of_mem_toDigits (by decide) (by decide) (List.mem_of_mem_head? hc)
  obtain ⟨hsign, hdigits⟩ := signText_append_inj (hhead _) (hhead _) hchars
  have hnatAbs : m.natAbs = n.natAbs := by
    rw [← Nat.ofDigitChars_ten_toDigits (n := m.natAbs), hdigits, Nat.ofDigitChars_ten_toDigits]
  rw [decide_eq_decide] at hsign
  omega

namespace Value

/-- An integer, or a finite floating number. -/
def Finite : Value → Prop
  | .int _ => True
  | .float x => x.isFinite = true

instance : DecidablePred Finite
  | .int _ => inferInstanceAs (Decidable True)
  | .float x => inferInstanceAs (Decidable (x.isFinite = true))

/-- The text of a number is not empty and has no other characters.  So a number
can be told from a name and from an operator by any of its characters. -/
theorem isNumeric_text {v : Value} (hv : v.Finite) :
    v.text.toList ≠ [] ∧ ∀ c ∈ v.text.toList, isNumeric c = true := by
  cases v with
  | int n =>
      rw [text, toList_toString_int]
      refine ⟨by simp [Nat.toDigits_ne_nil], fun c hc => ?_⟩
      rcases List.mem_append.mp hc with hc | hc
      · exact isNumeric_of_mem_signText hc
      · exact isNumeric_of_isDigit (Nat.isDigit_of_mem_toDigits (by decide) (by decide) hc)
  | float x =>
      obtain ⟨q, hq, -⟩ := exists_pointNumeral_magnitudeText (Dyadic.canonical_ofFloat x)
      rw [text, toList_floatText hv]
      refine ⟨List.append_ne_nil_of_right_ne_nil _ (List.ne_nil_of_mem hq.point_mem),
        fun c hc => ?_⟩
      rcases List.mem_append.mp hc with hc | hc
      · exact isNumeric_of_mem_signText hc
      · exact hq.isNumeric c hc

/-- Only floating numbers have a point.  Plain notation writes one for every
finite number, which keeps `1` and `1.0` apart. -/
theorem point_mem_text_iff {v : Value} (hv : v.Finite) :
    '.' ∈ v.text.toList ↔ v.isFloat = true := by
  cases v with
  | int n =>
      rw [text, toList_toString_int]
      refine iff_of_false (fun hc => ?_) Bool.false_ne_true
      rcases List.mem_append.mp hc with hc | hc
      · cases hsign : decide (n.toInt < 0) <;> simp [signText, hsign] at hc
      · exact PointNumeral.isDigit_ne_point
          (Nat.isDigit_of_mem_toDigits (by decide) (by decide) hc) rfl
  | float x =>
      obtain ⟨q, hq, -⟩ := exists_pointNumeral_magnitudeText (Dyadic.canonical_ofFloat x)
      rw [text, toList_floatText hv]
      exact iff_of_true (List.mem_append_right _ hq.point_mem) rfl

/-- **Numbers with the same text are equal,** in kind and in all bits. -/
theorem text_injective {v v' : Value} (hv : v.Finite) (hv' : v'.Finite) (h : v.text = v'.text) :
    v = v' := by
  have hkind : v.isFloat = v'.isFloat := by
    rw [Bool.eq_iff_iff, ← point_mem_text_iff hv, ← point_mem_text_iff hv', h]
  cases v <;> cases v' <;> try cases hkind
  · exact congrArg Value.int (Int64.toInt_inj.mp (toString_int_injective h))
  · exact congrArg Value.float (floatText_injective hv hv' h)

end Value

end StraightLine
