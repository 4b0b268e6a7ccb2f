import Mathlib.Algebra.Order.Floor.Ring
import Mathlib.Data.Rat.Floor
import StraightLine.Arithmetic
import StraightLine.Proofs.FlooredDivision

/-!
# Quotient and remainder of machine integers

`//` and `%` on two machine integers fit together: quotient times divisor plus remainder is the
dividend, and the remainder is smaller than the divisor and has its sign.  Neither operator ever
takes a step that the machine cannot take.

## Main definitions

* `Word.unwrapped?` — the result of a machine operation, unless it wrapped.
* `Word.floorDivWatched?`, `Word.floorModWatched?` — the two operations with every step watched.
* `Operator.divideWatched?` — the operators, guard and all.

## Main statements

* `Word.floorDivWatched?_eq`, `Word.floorModWatched?_eq` — no step goes wrong.
* `Operator.divideWatched?_eq` — whatever the operands, a zero divisor included.
* `Operator.quotient_and_remainder` — the laws of the two operators.

## Design notes

* **A watched operation fails on its own account.**  It has no result if a step traps, or if what
  the machine computes is not the exact result of the step; that a quotient may be refused is
  another matter, and stands inside.  So "nothing goes wrong" is an equation with the unwatched
  operation.
* **Order matters.**  The remainder that decides whether a quotient is lowered is taken only after
  the quotient has been found to fit; taken first it would trap on the least integer and `-1`.
-/

namespace StraightLine

namespace Word

/-! ## Watched operations -/

/-- The result of a machine operation whose exact result is given, unless it
wrapped.  The exact result is computed over the integers beside it, so a wrapped
one shows as a difference. -/
def unwrapped? (exact : Int) (result : Int64) : Option Int64 :=
  if result.toInt = exact then some result else none

/-- The remainder of the machine, which traps on a zero divisor and where the
quotient does not fit.  The quotient that rounds down uses this one. -/
def trappingRem? (a b : Int64) : Option Int64 :=
  if b == 0 || (a == Int64.minValue && b == -1) then none
  else unwrapped? (a.toInt.tmod b.toInt) (a % b)

/-- The remainder of the machine that wraps, which traps on a zero divisor only.
The remainder that rounds down uses this one, as it has no quotient that could
be refused before. -/
def wrappingRem? (a b : Int64) : Option Int64 :=
  if b == 0 then none else unwrapped? (a.toInt.tmod b.toInt) (a % b)

/-- The quotient by a non-zero divisor that the machine checks, watched for a
result that is not the exact one.  The inner `none` is the refusal, which the
program expects. -/
def checkedDiv? (a b : Int64) : Option (Option Int64) :=
  match div? a b with
  | none => some none
  | some quotient => (unwrapped? (a.toInt.tdiv b.toInt) quotient).map some

/-- The quotient by a non-zero divisor rounded down, every step watched. -/
def floorDivWatched? (a b : Int64) : Option (Option Int64) :=
  (checkedDiv? a b).bind fun
    | none => some none
    | some quotient =>
      (trappingRem? a b).bind fun rest =>
        if rest != 0 && signsDiffer a b then
          (unwrapped? (quotient.toInt - 1) (quotient - 1)).map some
        else some (some quotient)

/-- The remainder of the division by a non-zero divisor that rounds down, every step watched. -/
def floorModWatched? (a b : Int64) : Option Int64 :=
  (wrappingRem? a b).bind fun rest =>
    if rest != 0 && signsDiffer rest b then unwrapped? (rest.toInt + b.toInt) (rest + b)
    else some rest

theorem unwrapped?_eq_some {n : Int} {w : Int64} (h : w.toInt = n) : unwrapped? n w = some w :=
  if_pos h

/-- The wrapping remainder never wraps visibly: for the least integer and `-1` it is zero, as it
should be. -/
theorem wrappingRem?_eq (a : Int64) {b : Int64} (hb : b ≠ 0) :
    wrappingRem? a b = some (a % b) := by
  rw [wrappingRem?, if_neg (by simpa using hb)]
  exact unwrapped?_eq_some (Int64.toInt_mod a b)

/-- Where the quotient fits, the remainder does not trap.  The one case in which
it would is the one in which the quotient has been refused before. -/
theorem trappingRem?_eq {a b quotient : Int64} (hb : b ≠ 0) (h : div? a b = some quotient) :
    trappingRem? a b = some (a % b) := by
  have hfits : (a == Int64.minValue && b == -1) = false := by
    by_contra hleast
    rw [div?, if_pos (by simpa using hleast)] at h
    cases h
  rw [trappingRem?, hfits, Bool.or_false, if_neg (by simpa using hb)]
  exact unwrapped?_eq_some (Int64.toInt_mod a b)

/-- A quotient that is not refused is the exact one. -/
theorem checkedDiv?_eq (a b : Int64) : checkedDiv? a b = some (div? a b) := by
  rw [checkedDiv?]
  cases h : div? a b with
  | none => rfl
  | some quotient =>
      rw [div?_eq, ofInt?_eq_some_iff] at h
      exact congrArg (Option.map some) (unwrapped?_eq_some h)

/-- **No step of the quotient goes wrong.** The remainder is taken behind the
check of the quotient, and a quotient is lowered only where there is room. -/
theorem floorDivWatched?_eq (a : Int64) {b : Int64} (hb : b ≠ 0) :
    floorDivWatched? a b = some (floorDiv? a b) := by
  rw [floorDivWatched?, checkedDiv?_eq, floorDiv?, Option.bind_some]
  cases hdiv : div? a b with
  | none => rfl
  | some quotient =>
      simp only [trappingRem?_eq hb hdiv, Option.bind_some, Option.map_some]
      split
      · -- The quotient is lowered only if the division leaves a remainder.
        rename_i hstep
        have hrest := (step_iff.mp hstep).1
        have hquotient : quotient = a / b := by
          rw [div?_eq, ofInt?_eq_some_iff, ← toInt_div hrest] at hdiv
          exact Int64.toInt_inj.mp hdiv
        rw [hquotient, unwrapped?_eq_some (by rw [toInt_div_sub_one hrest, toInt_div hrest])]
        rfl
      · rfl

/-- **No step of the remainder goes wrong.** -/
theorem floorModWatched?_eq (a : Int64) {b : Int64} (hb : b ≠ 0) :
    floorModWatched? a b = some (floorMod a b) := by
  rw [floorModWatched?, wrappingRem?_eq a hb, floorMod, Option.bind_some]
  split
  · -- Remainder and divisor have different signs, so their sum lies between them.
    rename_i hstep
    rw [Bool.and_eq_true, signsDiffer, bne_iff_ne, bne_iff_ne, ne_eq, ne_eq, decide_eq_decide,
      Int64.lt_iff_toInt_lt, Int64.lt_iff_toInt_lt, Int64.toInt_zero] at hstep
    exact unwrapped?_eq_some (toInt_add_of_signs hstep.2)
  · rfl

/-! ## Size and sign of the remainder -/

/-- The quotient rounded down is the floor of the ratio. -/
theorem fdiv_eq_floor (a b : Int) : a.fdiv b = ⌊(a : ℚ) / b⌋ := by
  have hnonneg : ∀ (c : Int) (d : Nat), c.fdiv d = ⌊(c : ℚ) / (d : Int)⌋ := by
    intro c d
    rw [Int.fdiv_eq_ediv_of_nonneg c (Int.natCast_nonneg d), Int.cast_natCast]
    exact (Rat.floor_intCast_div_natCast c d).symm
  obtain ⟨d, rfl | rfl⟩ := Int.eq_nat_or_neg b
  · exact hnonneg a d
  · rw [← Int.neg_fdiv_neg, neg_neg, hnonneg, Int.cast_neg, Int.cast_neg, neg_div, div_neg]

/-- A remainder of the division that rounds down lies between zero and the
divisor, and may be zero but not the divisor.  Size and sign of the remainder
are both read off this. -/
theorem fmod_bounds (a b : Int) :
    (0 < b → 0 ≤ a.fmod b ∧ a.fmod b < b) ∧ (b < 0 → b < a.fmod b ∧ a.fmod b ≤ 0) := by
  refine ⟨fun hpos => ⟨Int.fmod_nonneg_of_pos a hpos, Int.fmod_lt_of_pos a hpos⟩, fun hneg => ?_⟩
  have hpos : 0 < -b := Int.neg_pos_of_neg hneg
  have hlower := Int.fmod_nonneg_of_pos (-a) hpos
  have hupper := Int.fmod_lt_of_pos (-a) hpos
  rw [Int.neg_fmod_neg] at hlower hupper
  omega

/-- The remainder is smaller than the divisor and has its sign. -/
theorem floorMod_spec (a : Int64) {b : Int64} (hb : b ≠ 0) :
    |(floorMod a b).toInt| < |b.toInt| ∧
      (floorMod a b = 0 ∨ (floorMod a b).toInt.sign = b.toInt.sign) := by
  have hne : b.toInt ≠ 0 := toInt_eq_zero_iff.not.mpr hb
  obtain ⟨hpos, hneg⟩ := fmod_bounds a.toInt b.toInt
  rw [← toInt_floorMod] at hpos hneg
  rw [← toInt_eq_zero_iff]
  generalize (floorMod a b).toInt = m at *
  rcases Int.lt_or_gt_of_ne hne with hb' | hb'
  · obtain ⟨hlower, hupper⟩ := hneg hb'
    refine ⟨by rw [abs_of_nonpos hupper, abs_of_neg hb']; omega, ?_⟩
    refine (eq_or_lt_of_le hupper).imp_right fun hm => ?_
    rw [Int.sign_eq_neg_one_of_neg hm, Int.sign_eq_neg_one_of_neg hb']
  · obtain ⟨hlower, hupper⟩ := hpos hb'
    refine ⟨by rwa [abs_of_nonneg hlower, abs_of_pos hb'], ?_⟩
    refine (eq_or_lt_of_le hlower).imp Eq.symm fun hm => ?_
    rw [Int.sign_eq_one_of_pos hm, Int.sign_eq_one_of_pos hb']

/-- The quotient rounded down is refused in the one case where the exact one
does not fit, and in no case because of the rounding. -/
theorem floorDiv?_eq_none_iff {a b : Int64} :
    floorDiv? a b = none ↔ a = Int64.minValue ∧ b = -1 := by
  rw [floorDiv?, Option.map_eq_none_iff, div?]
  split
  · rename_i hleast
    simpa using hleast
  · rename_i hother
    simpa using hother

end Word

/-! ## The operators -/

namespace Operator

/-- `//` and `%` on machine integers, every step watched.  The guard against a
zero divisor stands in front of both, so none of the watched steps ever sees
one. -/
def divideWatched? (op : Operator) (a b : Int64) : Option (Except EvalError Value) :=
  if b == 0 then some (.error (.divisionByZero op))
  else
    match op with
    | .intDiv => (Word.floorDivWatched? a b).map op.fit
    | .modulus => (Word.floorModWatched? a b).map fun rest => .ok (.int rest)
    | _ => none

/-- **No step of a division goes wrong,** whatever the operands. -/
theorem divideWatched?_eq {op : Operator} (hop : op = .intDiv ∨ op = .modulus) (a b : Int64) :
    op.divideWatched? a b = some (op.apply (.int a) (.int b)) := by
  by_cases hb : b = 0
  · subst hb
    obtain rfl | rfl := hop <;> rfl
  · have hguard : ¬ (b == 0) = true := by simpa using hb
    obtain rfl | rfl := hop
    · simp only [divideWatched?, apply, applyInt, if_neg hguard, Word.floorDivWatched?_eq a hb]
      rfl
    · simp only [divideWatched?, apply, applyInt, if_neg hguard, Word.floorModWatched?_eq a hb]
      rfl

/-- **Quotient and remainder fit together.**  For a divisor that is not zero the remainder always
exists; it is smaller than the divisor, and zero or of its sign.  The quotient overflows for the
least integer and `-1` only; otherwise it is the floor of the ratio, and quotient times divisor plus
remainder is the dividend.  With every machine operation on the way watched both operators have the
results that they have unwatched, also for a divisor that is zero. -/
theorem quotient_and_remainder (l r : Int64) :
    (r ≠ 0 → ∃ m : Int64, modulus.apply (.int l) (.int r) = .ok (.int m) ∧
        |m.toInt| < |r.toInt| ∧ (m = 0 ∨ m.toInt.sign = r.toInt.sign) ∧
        (intDiv.apply (.int l) (.int r) = .error (.overflow .intDiv) ↔
          l = Int64.minValue ∧ r = -1) ∧
        (¬ (l = Int64.minValue ∧ r = -1) → ∃ q : Int64,
          intDiv.apply (.int l) (.int r) = .ok (.int q) ∧
            q.toInt * r.toInt + m.toInt = l.toInt ∧ q.toInt = ⌊(l.toInt : ℚ) / r.toInt⌋)) ∧
      ∀ op : Operator, op = .intDiv ∨ op = .modulus →
        op.divideWatched? l r = some (op.apply (.int l) (.int r)) := by
  refine ⟨fun hr => ?_, fun op hop => divideWatched?_eq hop l r⟩
  have hguard : ¬ (r == 0) = true := by simpa using hr
  obtain ⟨hsize, hsign⟩ := Word.floorMod_spec l hr
  have hquotient : intDiv.apply (.int l) (.int r) = intDiv.fit (Word.floorDiv? l r) :=
    if_neg hguard
  refine ⟨Word.floorMod l r, if_neg hguard, hsize, hsign, ?_, fun hfits => ?_⟩
  · rw [hquotient, ← Word.floorDiv?_eq_none_iff]
    cases Word.floorDiv? l r <;> simp [fit]
  · obtain ⟨q, hq⟩ := Option.ne_none_iff_exists'.mp (mt Word.floorDiv?_eq_none_iff.mp hfits)
    refine ⟨q, by rw [hquotient, hq, fit], ?_⟩
    rw [Word.floorDiv?_eq hr, Word.ofInt?_eq_some_iff] at hq
    rw [hq, Word.toInt_floorMod]
    exact ⟨Int.fdiv_mul_add_fmod l.toInt r.toInt, Word.fdiv_eq_floor l.toInt r.toInt⟩

/-- The least integer by `-1`: there is a remainder but no quotient.  By `3`, the quotient is
lowered and quotient times divisor alone is out of range. -/
theorem quotient_and_remainder_of_least :
    (-1 : Int64) ≠ 0 ∧ (3 : Int64) ≠ 0 ∧ ¬ (Int64.minValue = Int64.minValue ∧ (3 : Int64) = -1) ∧
      modulus.apply (.int Int64.minValue) (.int (-1)) = .ok (.int 0) ∧
      intDiv.apply (.int Int64.minValue) (.int (-1)) = .error (.overflow .intDiv) ∧
      intDiv.divideWatched? Int64.minValue (-1) = some (.error (.overflow .intDiv)) ∧
      ∃ m q : Int64, modulus.apply (.int Int64.minValue) (.int 3) = .ok (.int m) ∧
        intDiv.apply (.int Int64.minValue) (.int 3) = .ok (.int q) ∧
        q.toInt * 3 + m.toInt = -2 ^ 63 ∧ q.toInt * 3 < -2 ^ 63 := by
  have hone : (-1 : Int64) ≠ 0 := by decide
  have hthree : (3 : Int64) ≠ 0 := by decide
  have hfits : ¬ (Int64.minValue = Int64.minValue ∧ (3 : Int64) = -1) := by decide
  obtain ⟨hleast, hwatched⟩ := quotient_and_remainder Int64.minValue (-1)
  obtain ⟨_, hm, -, -, hoverflow, -⟩ := hleast hone
  obtain ⟨m, hm', -, hsign, -, hquotient⟩ :=
    (quotient_and_remainder Int64.minValue 3).1 hthree
  obtain ⟨q, hq, hexact, -⟩ := hquotient hfits
  have hoverflow := hoverflow.mpr ⟨rfl, rfl⟩
  refine ⟨hone, hthree, hfits, rfl, hoverflow, ?_, m, q, hm', hq, hexact, ?_⟩
  · rw [hwatched .intDiv (.inl rfl), hoverflow]
  · obtain rfl : q = -3074457345618258603 := by
      cases hq
      decide
    decide

end Operator

end StraightLine
