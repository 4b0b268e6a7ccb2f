import StraightLine.Proofs.Numerals

/-!
# Division of machine integers that rounds down

The machine divides toward zero.  Quotient and remainder rounded down are made of its answers by
one step; this file shows that the step is right for every dividend and every divisor that is not
zero, and that it is taken without leaving the machine integers.

## Main statements

* `Word.floorDiv?_eq` — the quotient is the exact one, refused exactly if it does not fit.
* `Word.toInt_floorMod` — the remainder is the exact one.

## Design notes

* **The step is justified over the integers first:** `fdiv_eq_tdiv_sub` and `fmod_eq_tmod_add` say
  when the two roundings differ, with the tests of the program on the right-hand side.  What is left
  for machine integers are bounds.
* **A quotient is only lowered if there is room.**  Then the remainder is not zero, so the divisor
  is neither `1` nor `-1` and the quotient is at most half as large as the dividend.
-/

namespace StraightLine.Word

/-! ## Rounding down from rounding toward zero -/

/-- The quotient rounded down is one less exactly if the division leaves a
remainder and the signs differ.  The condition is the test of the program, read
over the integers. -/
theorem fdiv_eq_tdiv_sub {a b : Int} (hb : b ≠ 0) :
    a.fdiv b = if a.tmod b ≠ 0 ∧ ¬(a < 0 ↔ b < 0) then a.tdiv b - 1 else a.tdiv b := by
  have hexact : b ∣ a ↔ a.tmod b = 0 := Int.dvd_iff_tmod_eq_zero
  rw [Int.fdiv_eq_tdiv]
  rcases Int.lt_or_gt_of_ne hb with hneg | hpos
  · rw [Int.sign_eq_neg_one_of_neg hneg]
    (repeat' split) <;> omega
  · rw [Int.sign_eq_one_of_pos hpos]
    (repeat' split) <;> omega

/-- A remainder of the division toward zero has the sign of the dividend. -/
theorem tmod_neg_iff {a b : Int} (h : a.tmod b ≠ 0) : a.tmod b < 0 ↔ a < 0 := by
  have hnonneg : 0 ≤ a → 0 ≤ a.tmod b := Int.tmod_nonneg b
  have hnonpos : a < 0 → a.tmod b ≤ 0 := by
    intro hneg
    have hopposite := Int.tmod_nonneg b (a := -a) (by omega)
    rw [Int.neg_tmod] at hopposite
    omega
  omega

/-- The remainder rounded down is larger by the divisor exactly if it is not
zero and has the other sign.  The remainder has the sign of the dividend
(`tmod_neg_iff`), so this is the condition of `fdiv_eq_tdiv_sub` once more. -/
theorem fmod_eq_tmod_add (a b : Int) :
    a.fmod b =
      if a.tmod b ≠ 0 ∧ ¬(a.tmod b < 0 ↔ b < 0) then a.tmod b + b else a.tmod b := by
  have hexact : b ∣ a ↔ a.tmod b = 0 := Int.dvd_iff_tmod_eq_zero
  have hsign : a.tmod b ≠ 0 → (a.tmod b < 0 ↔ a < 0) := tmod_neg_iff
  rw [Int.fmod_eq_tmod]
  (repeat' split) <;> omega

/-! ## Machine integers -/

theorem toInt_eq_zero_iff {w : Int64} : w.toInt = 0 ↔ w = 0 := by
  rw [← Int64.toInt_zero, Int64.toInt_inj]

/-- The tests of the program are the ones that tell the two roundings apart.
Quotient and remainder compare the sign of the divisor with that of dividend and
remainder respectively, hence the third word. -/
theorem step_iff {a b c : Int64} :
    (a % b != 0 && signsDiffer c b) = true ↔
      a.toInt.tmod b.toInt ≠ 0 ∧ ¬(c.toInt < 0 ↔ b.toInt < 0) := by
  rw [Bool.and_eq_true, bne_iff_ne, ← Int64.toInt_mod, ne_eq, ne_eq, toInt_eq_zero_iff, signsDiffer,
    bne_iff_ne, ne_eq, decide_eq_decide, Int64.lt_iff_toInt_lt, Int64.lt_iff_toInt_lt,
    Int64.toInt_zero]

/-- The quotient toward zero is a machine integer except for the least one divided by `-1`. -/
theorem div?_eq (a b : Int64) : div? a b = ofInt? (a.toInt.tdiv b.toInt) := by
  rw [div?]
  split
  · rename_i hleast
    rw [Bool.and_eq_true, beq_iff_eq, beq_iff_eq] at hleast
    rw [hleast.1, hleast.2]
    rfl
  · rename_i hother
    rw [Bool.and_eq_true, beq_iff_eq, beq_iff_eq, not_and_or] at hother
    symm
    rw [ofInt?_eq_some_iff]
    exact hother.elim (Int64.toInt_div_of_ne_left a b) (Int64.toInt_div_of_ne_right a b)

/-- Where the division leaves a remainder, the machine quotient is exact. -/
theorem toInt_div {a b : Int64} (h : a.toInt.tmod b.toInt ≠ 0) :
    (a / b).toInt = a.toInt.tdiv b.toInt := by
  refine Int64.toInt_div_of_ne_right a b fun hb => h ?_
  rw [hb, show (-1 : Int64).toInt = -1 from rfl, Int.tmod_neg, Int.tmod_one]

/-- There the divisor is neither `1` nor `-1`, so that the quotient can be
lowered without leaving the machine integers. -/
theorem toInt_div_sub_one {a b : Int64} (h : a.toInt.tmod b.toInt ≠ 0) :
    (a / b - 1).toInt = a.toInt.tdiv b.toInt - 1 := by
  have hone : b.toInt ≠ 1 := fun hb => h (by rw [hb, Int.tmod_one])
  have hminus : b.toInt ≠ -1 := fun hb => h (by rw [hb, Int.tmod_neg, Int.tmod_one])
  have hhalf : (a.toInt.tdiv b.toInt).natAbs ≤ a.toInt.natAbs / 2 := by
    rw [Int.natAbs_tdiv]
    rcases Nat.eq_zero_or_pos b.toInt.natAbs with hzero | hpos
    · rw [hzero]
      exact (Nat.div_zero _).le.trans (Nat.zero_le _)
    · exact Nat.div_le_div_left (by omega) Nat.two_pos
  have hlower := Int64.le_toInt a
  have hupper := Int64.toInt_lt a
  rw [Int64.toInt_sub, toInt_div h]
  exact Int.bmod_eq_of_le (by simp; omega) (by simp; omega)

/-- Two machine integers of different signs can be added, a remainder and its divisor for one. -/
theorem toInt_add_of_signs {a b : Int64} (h : ¬(a.toInt < 0 ↔ b.toInt < 0)) :
    (a + b).toInt = a.toInt + b.toInt := by
  have hlower := Int64.le_toInt a
  have hupper := Int64.toInt_lt a
  have hlower' := Int64.le_toInt b
  have hupper' := Int64.toInt_lt b
  rw [Int64.toInt_add]
  exact Int.bmod_eq_of_le (by simp; omega) (by simp; omega)

/-- **The quotient of the division that rounds down is exact** if it fits, and is refused
otherwise. -/
theorem floorDiv?_eq {a b : Int64} (hb : b ≠ 0) :
    floorDiv? a b = ofInt? (a.toInt.fdiv b.toInt) := by
  rw [fdiv_eq_tdiv_sub (toInt_eq_zero_iff.not.mpr hb), floorDiv?, div?_eq]
  by_cases hstep : a.toInt.tmod b.toInt ≠ 0 ∧ ¬(a.toInt < 0 ↔ b.toInt < 0)
  · rw [if_pos hstep, step_iff.mpr hstep, ofInt?_eq_some_iff.mpr (toInt_div hstep.1)]
    exact (ofInt?_eq_some_iff.mpr (toInt_div_sub_one hstep.1)).symm
  · rw [if_neg hstep, Bool.eq_false_iff.mpr (step_iff.not.mpr hstep)]
    exact Option.map_id'

/-- **The remainder of the division that rounds down is exact.** -/
theorem toInt_floorMod (a b : Int64) : (floorMod a b).toInt = a.toInt.fmod b.toInt := by
  have hrest : (a % b).toInt = a.toInt.tmod b.toInt := Int64.toInt_mod a b
  rw [fmod_eq_tmod_add, floorMod, ← hrest]
  by_cases hstep : (a % b).toInt ≠ 0 ∧ ¬((a % b).toInt < 0 ↔ b.toInt < 0)
  · rw [if_pos hstep, if_pos (step_iff.mpr (hrest ▸ hstep))]
    exact toInt_add_of_signs hstep.2
  · rw [if_neg hstep, if_neg (step_iff.not.mpr (hrest ▸ hstep))]

end StraightLine.Word
