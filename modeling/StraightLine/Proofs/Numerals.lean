import Mathlib.Tactic.Linarith
import StraightLine.Proofs.SavedForm

/-!
# Numerals and literals

The value that a reader gives to a numeral is the literal that the form of saved programs gives it.

## Main statements

* `Numeral.integer?_eq_some_iff` — which numerals are exact integers.
* `Saved.toValue_value?_eq_some_iff` — a numeral in range is one literal, of the kind that its
  spelling and its size decide.
-/

namespace StraightLine

theorem Word.ofInt?_eq_some_iff {n : Int} {w : Int64} : Word.ofInt? n = some w ↔ w.toInt = n := by
  have hmin : Int64.minValue.toInt = -2 ^ 63 := Int64.toInt_minValue
  have hmax : Int64.maxValue.toInt = 2 ^ 63 - 1 := Int64.toInt_maxValue
  rw [Word.ofInt?]
  constructor
  · intro h
    split at h
    · obtain rfl := Option.some.inj h
      exact Int64.toInt_ofInt_of_le (by omega) (by omega)
    · cases h
  · rintro rfl
    rw [if_pos ⟨Int64.minValue_le_toInt w, Int64.toInt_le w⟩, Int64.ofInt_toInt]

namespace Numeral

/-- More digits do not make a significand smaller. -/
theorem le_foldl_digits (significand : Nat) (ds : List Nat) :
    significand ≤ ds.foldl (fun n d => 10 * n + d) significand := by
  induction ds generalizing significand with
  | nil => exact Nat.le_refl _
  | cons d ds ih => exact Nat.le_trans (by omega) (ih (10 * significand + d))

/-- No digit is left over exactly if the value of all of them fits.  Digits are
gathered as long as they fit 64 bits; since more digits never make a number
smaller, the first one that does not fit decides. -/
theorem gather_eq_nil_iff {significand m : Nat} {ds : List Nat}
    (hs : significand ≤ greatestSignificand) :
    gather significand ds = (m, []) ↔
      m = ds.foldl (fun n d => 10 * n + d) significand ∧ m ≤ greatestSignificand := by
  induction ds generalizing significand with
  | nil =>
    rw [gather, Prod.mk.injEq, List.foldl_nil]
    constructor
    · rintro ⟨rfl, -⟩
      exact ⟨rfl, hs⟩
    · rintro ⟨rfl, -⟩
      exact ⟨rfl, rfl⟩
  | cons d ds ih =>
    rw [gather, List.foldl_cons, Nat.mul_comm 10]
    split
    · exact ih ‹_›
    · have hle := le_foldl_digits (significand * 10 + d) ds
      constructor
      · intro h
        cases h
      · rintro ⟨rfl, hm⟩
        omega

theorem gather_whole_eq_nil_iff {m : Nat} {ds : List Nat} :
    gather 0 ds = (m, []) ↔ m = ofDigits ds ∧ m < 2 ^ 64 := by
  rw [gather_eq_nil_iff (Nat.zero_le _), ofDigits]
  have : greatestSignificand = 2 ^ 64 - 1 := rfl
  omega

/-- A numeral is an exact integer if it is written as one, is not below the
least machine integer and has digits that fit 64 bits.  From `2 ^ 63` on it is
an integer here and still no machine integer. -/
theorem integer?_eq_some_iff {n : Numeral} {m : Int} :
    n.integer? = some m ↔ n.IsInteger ∧ m = n.signed ∧ -2 ^ 63 ≤ m ∧ m < 2 ^ 64 := by
  have hmin : Int64.minValue.toInt = -2 ^ 63 := Int64.toInt_minValue
  obtain ⟨negative, whole, _ | fraction, _ | exponent⟩ := n
  case none.none =>
    rcases hg : gather 0 whole with ⟨k, _ | ⟨d, lost⟩⟩
    · obtain ⟨rfl, hk⟩ := gather_whole_eq_nil_iff.1 hg
      cases negative with
      | false =>
        simp only [integer?, hg, IsInteger, signed]
        grind
      | true =>
        simp only [integer?, hg, IsInteger, signed, hmin]
        grind
    · have hk : ¬ ofDigits whole < 2 ^ 64 := by
        intro hk
        rw [gather_whole_eq_nil_iff.2 ⟨rfl, hk⟩] at hg
        cases hg
      simp only [integer?, hg, signed]
      grind
  all_goals simp [integer?, IsInteger]

theorem signed_eq {n : Numeral} (h : n.negative = false) : n.signed = ofDigits n.whole := by
  simp [signed, h]

theorem negative_eq_false_of_signed {n : Numeral} (h : 0 < n.signed) : n.negative = false := by
  cases hn : n.negative with
  | false => rfl
  | true =>
    rw [signed, if_pos hn] at h
    omega

/-- A great integer is rounded as a whole. -/
theorem rounded?_of_integer? {n : Numeral} {m : Int} (h : n.integer? = some m) (hm : 2 ^ 63 ≤ m) :
    n.rounded? = some m.toNat.toUInt64.toFloat := by
  obtain ⟨hint, rfl, -, hhi⟩ := integer?_eq_some_iff.1 h
  have hneg := negative_eq_false_of_signed (by omega : 0 < n.signed)
  rw [signed_eq hneg] at hhi ⊢
  have hsize : UInt64.size = 2 ^ 64 := rfl
  rw [rounded?, if_pos ⟨hint, hneg, by omega⟩, Int.toNat_natCast]

/-- A numeral that is no exact integer goes by its significand. -/
theorem rounded?_of_integer?_eq_none {n : Numeral} (h : n.integer? = none) :
    n.rounded? = n.float? := by
  rw [rounded?, if_neg]
  rintro ⟨hint, hneg, hlt⟩
  have hsize : UInt64.size = 2 ^ 64 := rfl
  have hsigned := signed_eq hneg
  rw [integer?_eq_some_iff.2 ⟨hint, rfl, by omega, by omega⟩] at h
  cases h

end Numeral

namespace Saved

/-- The literal of a numeral in range.  The reader decides in several steps, by
digits that fit and by sign; the form of a literal decides by spelling and size,
and both come to the same value and the same kind. -/
theorem toValue_value?_eq_some_iff {n : Numeral} {value : Value} :
    n.value?.map toValue = some value ↔ LiteralOf (.number n) value := by
  cases hi : n.integer? with
  | some m =>
    have hv : n.value?.map toValue = some (toValue (.integer m)) := by rw [Numeral.value?, hi]; rfl
    obtain ⟨hint, hm, hlo, hhi⟩ := Numeral.integer?_eq_some_iff.1 hi
    rw [hv, Option.some.injEq]
    cases hw : Word.ofInt? m with
    | some w =>
      -- The integer fits a machine integer and stays one.
      have hwm := Word.ofInt?_eq_some_iff.1 hw
      simp only [toValue, hw]
      constructor
      · rintro rfl
        exact .int hint (hwm.trans hm)
      · intro h
        cases h with
        | int _ hw' => rw [Int64.toInt_inj.1 (hwm.trans (hm.trans hw'.symm))]
        | float hne _ => exact absurd (hwm.trans hm) (hne hint w)
    | none =>
      -- The integer is beyond the signed words and is rounded.
      have hne (w : Int64) : w.toInt ≠ m := fun h => by
        rw [Word.ofInt?_eq_some_iff.2 h] at hw
        cases hw
      have hbig : 2 ^ 63 ≤ m := by
        by_contra hlt
        exact hne (.ofInt m) (Int64.toInt_ofInt_of_le hlo (by omega))
      have hr := Numeral.rounded?_of_integer? hi hbig
      simp only [toValue, hw]
      constructor
      · rintro rfl
        exact .float (fun _ => hm ▸ hne) hr
      · intro h
        cases h with
        | int _ hw' => exact absurd (hw'.trans hm.symm) (hne _)
        | float _ hx =>
          rw [hr, Option.some.injEq] at hx
          rw [hx]
  | none =>
    -- The numeral has no exact integer, so it is no literal of a machine integer either.
    have hv : n.value?.map toValue = n.float?.map .float := by
      rw [Numeral.value?, hi, Option.map_map]
      rfl
    have hr := Numeral.rounded?_of_integer?_eq_none hi
    have hne (hint : n.IsInteger) (w : Int64) : w.toInt ≠ n.signed := fun h => by
      have hlo := w.le_toInt
      have hhi := w.toInt_lt
      rw [Numeral.integer?_eq_some_iff.2 ⟨hint, rfl, by omega, by omega⟩] at hi
      cases hi
    rw [hv, ← hr, Option.map_eq_some_iff]
    constructor
    · rintro ⟨x, hx, rfl⟩
      exact .float hne hx
    · intro h
      cases h with
      | int hint hw => exact absurd hw (hne hint _)
      | float _ hx => exact ⟨_, hx, rfl⟩

end Saved

end StraightLine
