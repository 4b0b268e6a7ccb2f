import Mathlib.Algebra.Order.Field.Power
import Mathlib.Algebra.Order.Field.Rat
import Mathlib.Tactic.FieldSimp
import Mathlib.Tactic.Linarith
import Mathlib.Tactic.Positivity
import Mathlib.Tactic.Ring
import StraightLine.Number.Shortest

/-!
# Shortest decimals

The decimal that is written for a binary64 number rounds to that number and to no other: it lies in
the rounding interval of the number, and the intervals of two numbers have no point in common.

## Main definitions

* `Dyadic.Canonical` — what distinguishes decoded binary64 numbers among the dyadic rationals.
* `RoundingInterval.Contains` — the rationals in an interval.
* `Dyadic.IdentifiedBy` — the rationals that stand for a number.
* `Decimal.value` — the rational number that a decimal denotes.

## Main statements

* `Dyadic.ofFloat_injective` — decoding loses nothing.
* `Dyadic.eq_of_contains` — the intervals of two canonical numbers are disjoint.
* `Dyadic.isSome_nearestInteger?` — seventeen digits always suffice.
* `Dyadic.contains_shortest` — the shortest decimal lies in the interval.

## Design notes

* **Ends are compared, not numbers.**  The upper end of an interval is at most the lower end of the
  interval of any greater number; where both are equal, one of the two mantissas is odd and its
  interval open.
-/

namespace StraightLine

/-! ## Decoded numbers -/

namespace Dyadic

theorem fractionSize_eq : fractionSize = 4503599627370496 := rfl

/-- Mantissa and exponent of a binary64 number: the mantissa has at most 53
bits, and it has all of them unless the exponent is the least.  Without the
second condition one number would have several forms, and their intervals would
overlap. -/
structure Canonical (d : Dyadic) : Prop where
  leastExponent_le : leastExponent ≤ d.exponent
  mantissa_lt : d.mantissa < 2 * fractionSize
  fractionSize_le : leastExponent < d.exponent → fractionSize ≤ d.mantissa

theorem canonical_ofFloat (x : Float) : (ofFloat x).Canonical := by
  have hfraction : x.toBits.toNat % fractionSize < fractionSize :=
    Nat.mod_lt _ (by rw [fractionSize_eq]; omega)
  dsimp only [ofFloat]
  split
  · refine ⟨Int.le_refl _, ?_, fun h => absurd h (Int.lt_irrefl _)⟩
    show x.toBits.toNat % fractionSize < _
    omega
  · refine ⟨?_, ?_, fun _ => Nat.le_add_left ..⟩
    · exact Int.le_add_of_nonneg_left (Int.natCast_nonneg _)
    · show x.toBits.toNat % fractionSize + fractionSize < _
      omega

/-- Sixty-four bits are determined by their three fields.  Decoding reads each
field by division, so this is what makes it injective. -/
theorem eq_of_fields {m n : Nat} (hm : m < 2 ^ 64) (hn : n < 2 ^ 64)
    (hsign : (m / signBit == 1) = (n / signBit == 1))
    (hbiased : m / fractionSize % Nat.pow 2 11 = n / fractionSize % Nat.pow 2 11)
    (hfraction : m % fractionSize = n % fractionSize) : m = n := by
  have hsignBit : signBit = 9223372036854775808 := rfl
  have hexponents : Nat.pow 2 11 = 2048 := rfl
  rw [Bool.eq_iff_iff, beq_iff_eq, beq_iff_eq, hsignBit] at hsign
  rw [fractionSize_eq, hexponents] at hbiased
  rw [fractionSize_eq] at hfraction
  omega

/-- Decoding loses nothing. -/
theorem ofFloat_injective : Function.Injective ofFloat := by
  intro x y h
  have hbits : x.toBits.toNat = y.toBits.toNat := by
    have hx := Nat.mod_lt x.toBits.toNat (y := fractionSize) (by decide)
    have hy := Nat.mod_lt y.toBits.toNat (y := fractionSize) (by decide)
    dsimp only [ofFloat] at h
    -- A mantissa without the leading bit belongs to the least exponent field.
    split at h <;> split at h <;> rename_i hzero hzero' <;>
      obtain ⟨hnegative, hmantissa, hexponent⟩ := Dyadic.mk.inj h <;>
      rw [beq_iff_eq] at hzero hzero' <;>
      refine eq_of_fields x.toBits.toNat_lt y.toBits.toNat_lt hnegative ?_ ?_ <;> omega
  obtain ⟨⟨_, _⟩⟩ := x
  obtain ⟨⟨_, _⟩⟩ := y
  cases UInt64.toNat_inj.mp hbits
  rfl

end Dyadic

/-! ## Digits -/

namespace Decimal

theorem lt_pow_digitCount (n : Nat) : n < 10 ^ digitCount n :=
  (Nat.length_toDigits_le_iff (by decide) Nat.length_toDigits_pos).mp le_rfl

/-- A positive number is at least the power of ten of its leading digit. -/
theorem exists_digitCount_eq {n : Nat} (hn : 0 < n) : ∃ k, digitCount n = k + 1 ∧ 10 ^ k ≤ n := by
  obtain ⟨k, hk⟩ : ∃ k, digitCount n = k + 1 :=
    Nat.exists_eq_add_one.mpr Nat.length_toDigits_pos
  refine ⟨k, hk, ?_⟩
  rcases Nat.eq_zero_or_pos k with rfl | hpos
  · exact hn
  · by_contra hlt
    have hle : digitCount n ≤ k :=
      (Nat.length_toDigits_le_iff (by decide) hpos).mpr (Nat.lt_of_not_le hlt)
    omega

/-- The number that a decimal denotes. -/
def value (d : Decimal) : ℚ := d.digits * 10 ^ d.exponent

theorem value_dropZeros (fuel : Nat) (d : Decimal) : (dropZeros fuel d).value = d.value := by
  induction fuel generalizing d with
  | zero => rfl
  | succ fuel ih =>
      rw [dropZeros]
      split
      · rename_i hzero
        rw [Bool.and_eq_true, beq_iff_eq] at hzero
        have hdigits : (d.digits : ℚ) = (d.digits / 10 : ℕ) * 10 := by
          exact_mod_cast (Nat.div_mul_cancel (Nat.dvd_of_mod_eq_zero hzero.1)).symm
        rw [ih, value, value, zpow_add_one₀ (by norm_num), hdigits]
        ring
      · rfl

end Decimal

/-! ## Rational numbers in an interval -/

/-- A power as a quotient of two powers with natural exponents. -/
theorem zpow_mul_pow_toNat {b : ℚ} (hb : b ≠ 0) (e : ℤ) :
    b ^ e * b ^ (-e).toNat = b ^ e.toNat := by
  rw [← zpow_natCast, ← zpow_natCast, ← zpow_add₀ hb]
  congr 1
  omega

namespace RoundingInterval

/-- Whether a rational number lies in an interval.  The ends are integers in a
finer unit, so that no end of an interval has to be rounded; they belong to the
interval if it is closed. -/
def Contains (r : RoundingInterval) (q : ℚ) : Prop :=
  if r.closed then r.low ≤ q * r.unit ∧ q * r.unit ≤ r.high
  else r.low < q * r.unit ∧ q * r.unit < r.high

/-- For integers this is what is tested. -/
theorem covers_mul_unit_iff (r : RoundingInterval) (n : Nat) :
    r.covers (n * r.unit) = true ↔ r.Contains n := by
  unfold covers Contains
  split
  all_goals
    rw [Bool.and_eq_true, decide_eq_true_eq, decide_eq_true_eq]
    exact_mod_cast Iff.rfl

theorem covers_of_lt {r : RoundingInterval} {n : Nat} (hlow : r.low < n) (hhigh : n < r.high) :
    r.covers n = true := by
  unfold covers
  split
  · simp [hlow.le, hhigh.le]
  · simp [hlow, hhigh]

/-- Both ends of an interval belong to it, or neither does. -/
theorem Contains.le {r : RoundingInterval} {q : ℚ} (h : r.Contains q) :
    r.low ≤ q * r.unit ∧ q * r.unit ≤ r.high := by
  unfold Contains at h
  split at h
  · exact h
  · exact ⟨h.1.le, h.2.le⟩

theorem Contains.lt {r : RoundingInterval} {q : ℚ} (h : r.Contains q) (hopen : r.closed = false) :
    r.low < q * r.unit ∧ q * r.unit < r.high := by
  rwa [Contains, if_neg (by simp [hopen])] at h

/-- An integer lies in a rescaled interval if that many powers of ten lie in the
interval.  The search for a decimal tries one grid after the other, and this is
how what it finds is read back. -/
theorem contains_rescale_iff (r : RoundingInterval) (exponent : ℤ) (q : ℚ) :
    (r.rescale exponent).Contains q ↔ r.Contains (q * 10 ^ exponent) := by
  have hpos : (0 : ℚ) < 10 ^ (-exponent).toNat := by positivity
  have hunit : q * ((r.unit : ℚ) * 10 ^ exponent.toNat) =
      q * 10 ^ exponent * r.unit * 10 ^ (-exponent).toNat := by
    rw [← zpow_mul_pow_toNat (by norm_num)]
    ring
  unfold Contains
  simp only [rescale, Nat.pow_eq, Nat.cast_mul, Nat.cast_pow, Nat.cast_ofNat, hunit,
    mul_le_mul_iff_left₀ hpos, mul_lt_mul_iff_left₀ hpos]

/-- The integer that is found lies in the interval. -/
theorem contains_of_nearestInteger? {r : RoundingInterval} {tie : Tie} {n : Nat}
    (h : r.nearestInteger? tie = some n) : r.Contains n := by
  rw [← covers_mul_unit_iff]
  dsimp only [nearestInteger?] at h
  cases hbelow : r.covers (r.value / r.unit * r.unit) with
  | true =>
      cases habove : r.covers ((r.value / r.unit + 1) * r.unit) with
      | true =>
          simp only [hbelow, habove, Option.some.injEq] at h
          split at h <;> subst h
          · exact habove
          · exact hbelow
      | false =>
          simp only [hbelow, habove, Option.some.injEq] at h
          exact h ▸ hbelow
  | false =>
      cases habove : r.covers ((r.value / r.unit + 1) * r.unit) with
      | true =>
          simp only [hbelow, habove, Option.some.injEq] at h
          exact h ▸ habove
      | false => simp [hbelow, habove] at h

/-- If both ends are more than half a unit away from the number, an integer is
found.  The nearest integer is at most half a unit away, so it lies between the
ends, whether these belong to the interval or not. -/
theorem isSome_nearestInteger?_of_wide {r : RoundingInterval} (tie : Tie) (hunit : 0 < r.unit)
    (hlow : 2 * r.low + r.unit < 2 * r.value) (hhigh : 2 * r.value + r.unit < 2 * r.high) :
    (r.nearestInteger? tie).isSome = true := by
  have hsplit : r.value / r.unit * r.unit + r.value % r.unit = r.value := Nat.div_add_mod' ..
  have hrest : r.value % r.unit < r.unit := Nat.mod_lt _ hunit
  have hnext : (r.value / r.unit + 1) * r.unit = r.value / r.unit * r.unit + r.unit :=
    Nat.succ_mul ..
  -- The nearer one of the two integers next to the number is at most half a unit away.
  have hcovers : r.covers (r.value / r.unit * r.unit) = true ∨
      r.covers ((r.value / r.unit + 1) * r.unit) = true := by
    by_cases hnear : 2 * (r.value % r.unit) ≤ r.unit
    · exact Or.inl (covers_of_lt (by omega) (by omega))
    · exact Or.inr (covers_of_lt (by omega) (by omega))
  dsimp only [nearestInteger?]
  rcases hcovers with hbelow | habove
  · rw [hbelow]
    cases r.covers ((r.value / r.unit + 1) * r.unit) <;> rfl
  · rw [habove]
    cases r.covers (r.value / r.unit * r.unit) <;> rfl

/-- The power of ten of the leading digit is not above the number. -/
theorem ten_zpow_magnitude_le {r : RoundingInterval} (hvalue : 0 < r.value) (hunit : 0 < r.unit) :
    (10 : ℚ) ^ r.magnitude * r.unit ≤ r.value := by
  unfold magnitude
  split
  · rename_i hle
    obtain ⟨k, hk, hpow⟩ := Decimal.exists_digitCount_eq (Nat.div_pos hle hunit)
    have hvalue : 10 ^ k * r.unit ≤ r.value :=
      (Nat.mul_le_mul_right _ hpow).trans (Nat.div_mul_le_self ..)
    rw [hk, Nat.cast_add, Nat.cast_one, add_sub_cancel_right, zpow_natCast]
    exact_mod_cast hvalue
  · -- The quotient the other way round, rounded up, is at most a power of ten.
    generalize hq : (r.unit + r.value - 1) / r.value = q
    have hround := Nat.div_add_mod' (r.unit + r.value - 1) r.value
    have hrest := Nat.mod_lt (r.unit + r.value - 1) hvalue
    rw [hq] at hround
    have hpow := Decimal.lt_pow_digitCount (q - 1)
    generalize Decimal.digitCount (q - 1) = k at hpow ⊢
    have hle : r.unit ≤ 10 ^ k * r.value :=
      (show r.unit ≤ q * r.value by omega).trans (Nat.mul_le_mul_right _ (by omega))
    have hle' : (r.unit : ℚ) ≤ 10 ^ k * r.value := by exact_mod_cast hle
    rw [zpow_neg, zpow_natCast, inv_mul_le_iff₀ (by positivity)]
    exact hle'

/-- On the grid that starts `count` places below the leading digit, the number
has at least that many more digits.  It bounds the unit of the grid by the
number itself, and from there by the width of its interval. -/
theorem ten_pow_mul_unit_le {r : RoundingInterval} (hvalue : 0 < r.value) (hunit : 0 < r.unit)
    (count : Nat) : 10 ^ count * (r.rescale (r.magnitude - count)).unit ≤
      (r.rescale (r.magnitude - count)).value := by
  have hgrid : (10 : ℚ) ^ count * 10 ^ (r.magnitude - count) = 10 ^ r.magnitude := by
    rw [← zpow_natCast, ← zpow_add₀ (by norm_num)]
    congr 1
    omega
  have hle : (10 : ℚ) ^ count * (r.unit * 10 ^ (r.magnitude - count).toNat) ≤
      r.value * 10 ^ (-(r.magnitude - count)).toNat := by
    calc (10 : ℚ) ^ count * (r.unit * 10 ^ (r.magnitude - count).toNat)
        = 10 ^ r.magnitude * r.unit * 10 ^ (-(r.magnitude - count)).toNat := by
          rw [← zpow_mul_pow_toNat (by norm_num), ← hgrid]
          ring
      _ ≤ r.value * 10 ^ (-(r.magnitude - count)).toNat := by
          gcongr
          exact ten_zpow_magnitude_le hvalue hunit
  exact_mod_cast hle

end RoundingInterval

/-! ## The interval of a binary64 number -/

namespace Dyadic

/-- How far the interval of a number reaches below it, in quarters of its last
place.  Below a power of two the numbers lie twice as dense, so there the
interval reaches half as far. -/
def reachBelow (d : Dyadic) : Nat :=
  if d.mantissa == fractionSize && leastExponent < d.exponent then 1 else 2

/-- The lower end of the rounding interval. -/
def lowEnd (d : Dyadic) : ℚ := (4 * d.mantissa - d.reachBelow : ℕ) * 2 ^ d.exponent / 4

/-- The upper end of the rounding interval. -/
def highEnd (d : Dyadic) : ℚ := (4 * d.mantissa + 2 : ℕ) * 2 ^ d.exponent / 4

theorem reachBelow_cases (d : Dyadic) :
    d.reachBelow = 1 ∧ d.mantissa = fractionSize ∧ leastExponent < d.exponent ∨
      d.reachBelow = 2 ∧ (leastExponent < d.exponent → d.mantissa ≠ fractionSize) := by
  unfold reachBelow
  split
  · rename_i h
    rw [Bool.and_eq_true, beq_iff_eq, decide_eq_true_eq] at h
    exact Or.inl ⟨rfl, h⟩
  · rename_i h
    rw [Bool.and_eq_true, beq_iff_eq, decide_eq_true_eq] at h
    exact Or.inr ⟨rfl, fun hexponent hmantissa => h ⟨hmantissa, hexponent⟩⟩

/-- A point of the interval lies between its ends; it is no end if the mantissa
is odd.  Ties are rounded to the even mantissa, which is why the interval of an
odd one is open. -/
theorem bounds_of_contains {d : Dyadic} {q : ℚ} (h : (RoundingInterval.ofDyadic d).Contains q) :
    (d.lowEnd ≤ q ∧ q ≤ d.highEnd) ∧ (d.mantissa % 2 = 1 → d.lowEnd < q ∧ q < d.highEnd) := by
  have hend : ∀ n : ℕ, ((n * Nat.pow 2 d.exponent.toNat : ℕ) : ℚ) =
      n * 2 ^ d.exponent / 4 * (4 * 2 ^ (-d.exponent).toNat) := by
    intro n
    rw [Nat.pow_eq, Nat.cast_mul, Nat.cast_pow, Nat.cast_ofNat, ← zpow_mul_pow_toNat two_ne_zero]
    ring
  have hlow : ((RoundingInterval.ofDyadic d).low : ℚ) =
      d.lowEnd * (4 * 2 ^ (-d.exponent).toNat) := hend _
  have hhigh : ((RoundingInterval.ofDyadic d).high : ℚ) =
      d.highEnd * (4 * 2 ^ (-d.exponent).toNat) := hend _
  have hunit : ((RoundingInterval.ofDyadic d).unit : ℚ) = 4 * 2 ^ (-d.exponent).toNat := by
    simp [RoundingInterval.ofDyadic]
  have hscale : (0 : ℚ) < 4 * 2 ^ (-d.exponent).toNat := by positivity
  constructor
  · have hle := h.le
    rw [hlow, hhigh, hunit] at hle
    exact ⟨le_of_mul_le_mul_right hle.1 hscale, le_of_mul_le_mul_right hle.2 hscale⟩
  · intro hodd
    have hlt := h.lt (show (d.mantissa % 2 == 0) = false by simp [hodd])
    rw [hlow, hhigh, hunit] at hlt
    exact ⟨lt_of_mul_lt_mul_right hlt.1 hscale.le, lt_of_mul_lt_mul_right hlt.2 hscale.le⟩

/-- Numbers in a rounding interval are positive. -/
theorem pos_of_contains {d : Dyadic} {q : ℚ} (hpos : 0 < d.mantissa)
    (h : (RoundingInterval.ofDyadic d).Contains q) : 0 < q := by
  have hreach : 0 < 4 * d.mantissa - d.reachBelow := by
    rcases d.reachBelow_cases with ⟨hreach, -⟩ | ⟨hreach, -⟩ <;> omega
  have hlow : 0 < d.lowEnd := by
    have : (0 : ℚ) < (4 * d.mantissa - d.reachBelow : ℕ) := by exact_mod_cast hreach
    unfold lowEnd
    positivity
  exact hlow.trans_le (bounds_of_contains h).1.1

/-- The interval of a number ends where the interval of a number with greater exponent starts, or
before; if it ends there, it is open.  The greater number has a leading bit, which is worth at least
twice as much as it would be in the smaller one. -/
theorem highEnd_le_lowEnd_of_exponent_lt {d d' : Dyadic} (hd : d.Canonical) (hd' : d'.Canonical)
    (hless : d.exponent < d'.exponent) :
    d.highEnd ≤ d'.lowEnd ∧ (d.highEnd = d'.lowEnd → d.mantissa % 2 = 1) := by
  have hlt := hd.mantissa_lt
  have hleast : leastExponent < d'.exponent := Int.lt_of_le_of_lt hd.leastExponent_le hless
  have hleading : fractionSize ≤ d'.mantissa := hd'.fractionSize_le hleast
  have hends : 4 * d.mantissa + 2 ≤ 2 * (4 * d'.mantissa - d'.reachBelow) ∧
      (4 * d.mantissa + 2 = 2 * (4 * d'.mantissa - d'.reachBelow) → d.mantissa % 2 = 1) := by
    rw [fractionSize_eq] at hlt hleading
    rcases d'.reachBelow_cases with ⟨hreach, -⟩ | ⟨hreach, hne⟩
    · omega
    · have hne := hne hleast
      rw [fractionSize_eq] at hne
      omega
  have hpos : (0 : ℚ) < 2 ^ d.exponent := by positivity
  have hdouble : (2 : ℚ) * 2 ^ d.exponent ≤ 2 ^ d'.exponent := by
    rw [← zpow_one_add₀ two_ne_zero]
    exact zpow_le_zpow_right₀ one_le_two (by omega)
  have hle : ((4 * d.mantissa + 2 : ℕ) : ℚ) ≤ 2 * (4 * d'.mantissa - d'.reachBelow : ℕ) := by
    exact_mod_cast hends.1
  unfold highEnd lowEnd
  generalize 4 * d.mantissa + 2 = n at hends hle ⊢
  generalize 4 * d'.mantissa - d'.reachBelow = n' at hends hle ⊢
  have hstep : (n : ℚ) * 2 ^ d.exponent ≤ 2 * n' * 2 ^ d.exponent := by gcongr
  have hstep' : (n' : ℚ) * (2 * 2 ^ d.exponent) ≤ n' * 2 ^ d'.exponent := by gcongr
  refine ⟨by linarith, fun heq => hends.2 ?_⟩
  have hsame : (n : ℚ) * 2 ^ d.exponent = 2 * n' * 2 ^ d.exponent := by linarith
  exact_mod_cast mul_right_cancel₀ hpos.ne' hsame

/-- The same for two numbers with one exponent: where their intervals touch, their mantissas are
next to each other, so one of them is odd. -/
theorem highEnd_le_lowEnd_of_mantissa_lt {d d' : Dyadic} (hexponent : d.exponent = d'.exponent)
    (hless : d.mantissa < d'.mantissa) :
    d.highEnd ≤ d'.lowEnd ∧
      (d.highEnd = d'.lowEnd → d.mantissa % 2 = 1 ∨ d'.mantissa % 2 = 1) := by
  have hends : 4 * d.mantissa + 2 ≤ 4 * d'.mantissa - d'.reachBelow ∧
      (4 * d.mantissa + 2 = 4 * d'.mantissa - d'.reachBelow →
        d.mantissa % 2 = 1 ∨ d'.mantissa % 2 = 1) := by
    rcases d'.reachBelow_cases with ⟨hreach, -⟩ | ⟨hreach, -⟩ <;> omega
  have hpos : (0 : ℚ) < 2 ^ d.exponent := by positivity
  unfold highEnd lowEnd
  rw [← hexponent]
  refine ⟨by gcongr; exact hends.1, fun heq => hends.2 ?_⟩
  have hsame := mul_right_cancel₀ hpos.ne' ((div_left_inj' four_ne_zero).mp heq)
  exact_mod_cast hsame

/-- **The intervals of two binary64 numbers have no point in common.** The
number with the greater exponent, or at the same exponent with the greater
mantissa, has its interval above that of the other; where the two touch, one of
them is open. -/
theorem eq_of_contains {d d' : Dyadic} {q : ℚ} (hd : d.Canonical) (hd' : d'.Canonical)
    (h : (RoundingInterval.ofDyadic d).Contains q)
    (h' : (RoundingInterval.ofDyadic d').Contains q) :
    d.mantissa = d'.mantissa ∧ d.exponent = d'.exponent := by
  -- If one number were less than the other, its upper end would be at `q` or before.
  have hapart : ∀ {a b : Dyadic}, a.Canonical → b.Canonical →
      (RoundingInterval.ofDyadic a).Contains q → (RoundingInterval.ofDyadic b).Contains q →
      ¬ (a.exponent < b.exponent ∨ a.exponent = b.exponent ∧ a.mantissa < b.mantissa) := by
    intro a b ha hb hqa hqb hless
    obtain ⟨⟨-, hhigh⟩, hopen⟩ := bounds_of_contains hqa
    obtain ⟨⟨hlow, -⟩, hopen'⟩ := bounds_of_contains hqb
    obtain ⟨hle, hodd⟩ : a.highEnd ≤ b.lowEnd ∧
        (a.highEnd = b.lowEnd → a.mantissa % 2 = 1 ∨ b.mantissa % 2 = 1) := by
      rcases hless with hexponent | ⟨hexponent, hmantissa⟩
      · obtain ⟨hle, hodd⟩ := highEnd_le_lowEnd_of_exponent_lt ha hb hexponent
        exact ⟨hle, fun heq => Or.inl (hodd heq)⟩
      · exact highEnd_le_lowEnd_of_mantissa_lt hexponent hmantissa
    rcases hodd (le_antisymm hle (hlow.trans hhigh)) with hodd | hodd
    · exact absurd ((hle.trans hlow).trans_lt (hopen hodd).2) (lt_irrefl _)
    · exact absurd ((hopen' hodd).1.trans_le (hhigh.trans hle)) (lt_irrefl _)
  have hless := hapart hd hd' h h'
  have hgreater := hapart hd' hd h' h
  omega

/-- Whether a rational number identifies the magnitude of a binary64 number: zero is identified by
zero, any other number by the points of its interval. -/
def IdentifiedBy (d : Dyadic) (q : ℚ) : Prop :=
  d.mantissa = 0 ∧ q = 0 ∨ 0 < d.mantissa ∧ (RoundingInterval.ofDyadic d).Contains q

/-- Sign and magnitude make the number. -/
theorem eq_of_identifiedBy {d d' : Dyadic} {q : ℚ} (hd : d.Canonical) (hd' : d'.Canonical)
    (hsign : d.negative = d'.negative) (h : d.IdentifiedBy q) (h' : d'.IdentifiedBy q) :
    d = d' := by
  -- Only the least exponent goes with the mantissa zero.
  have hleast : ∀ {a : Dyadic}, a.Canonical → a.mantissa = 0 → a.exponent = leastExponent := by
    intro a ha hzero
    have hle := ha.leastExponent_le
    have hleading := ha.fractionSize_le
    rw [hzero, fractionSize_eq] at hleading
    omega
  have hmagnitude : d.mantissa = d'.mantissa ∧ d.exponent = d'.exponent := by
    rcases h with ⟨hzero, hq⟩ | ⟨hpos, hcontains⟩ <;>
      rcases h' with ⟨hzero', hq'⟩ | ⟨hpos', hcontains'⟩
    · exact ⟨hzero.trans hzero'.symm, (hleast hd hzero).trans (hleast hd' hzero').symm⟩
    · exact absurd hq (pos_of_contains hpos' hcontains').ne'
    · exact absurd hq' (pos_of_contains hpos hcontains).ne'
    · exact eq_of_contains hd hd' hcontains hcontains'
  obtain ⟨hmantissa, hexponent⟩ := hmagnitude
  cases d
  cases d'
  exact (Dyadic.mk.injEq ..).mpr ⟨hsign, hmantissa, hexponent⟩

/-! ## The shortest decimal -/

/-- **Seventeen digits suffice:** on a grid on which a number has that many, one
of its neighbours lies in its interval.  So the search for a decimal need not go
further, and its last grid always has an answer. -/
theorem isSome_nearestInteger? {d : Dyadic} (hd : d.Canonical) (hpos : 0 < d.mantissa) (tie : Tie)
    {exponent : ℤ}
    (h : 10 ^ 16 * ((RoundingInterval.ofDyadic d).rescale exponent).unit ≤
      ((RoundingInterval.ofDyadic d).rescale exponent).value) :
    (((RoundingInterval.ofDyadic d).rescale exponent).nearestInteger? tie).isSome = true := by
  -- A quarter of the last place of the number, as a numerator of its interval.
  let place := Nat.pow 2 d.exponent.toNat * Nat.pow 10 (-exponent).toNat
  have hplace : 0 < place :=
    Nat.mul_pos (Nat.pow_pos (by decide)) (Nat.pow_pos (by decide))
  have hunit : 0 < ((RoundingInterval.ofDyadic d).rescale exponent).unit :=
    Nat.mul_pos (Nat.mul_pos (by decide) (Nat.pow_pos (by decide))) (Nat.pow_pos (by decide))
  have hvalue : ((RoundingInterval.ofDyadic d).rescale exponent).value =
      4 * (d.mantissa * place) := by
    show 4 * d.mantissa * Nat.pow 2 d.exponent.toNat * Nat.pow 10 (-exponent).toNat = _
    rw [Nat.mul_assoc, Nat.mul_assoc]
  have hlow : ((RoundingInterval.ofDyadic d).rescale exponent).low =
      4 * (d.mantissa * place) - d.reachBelow * place := by
    show (4 * d.mantissa - d.reachBelow) * Nat.pow 2 d.exponent.toNat *
      Nat.pow 10 (-exponent).toNat = _
    rw [Nat.mul_assoc, Nat.sub_mul, Nat.mul_assoc]
  have hhigh : ((RoundingInterval.ofDyadic d).rescale exponent).high =
      4 * (d.mantissa * place) + 2 * place := by
    show (4 * d.mantissa + 2) * Nat.pow 2 d.exponent.toNat * Nat.pow 10 (-exponent).toNat = _
    rw [Nat.mul_assoc, Nat.add_mul, Nat.mul_assoc]
  clear_value place
  have hleast : place ≤ d.mantissa * place := Nat.le_mul_of_pos_left _ hpos
  have hgreatest : d.mantissa * place ≤ 9007199254740991 * place :=
    Nat.mul_le_mul_right _ (by have := hd.mantissa_lt; rw [fractionSize_eq] at this; omega)
  -- Half a step of the grid is less than the distance from the number to its nearer end.
  have hfine : ((RoundingInterval.ofDyadic d).rescale exponent).unit <
      2 * (d.reachBelow * place) ∧ d.reachBelow * place ≤ 2 * place := by
    rw [hvalue] at h
    rcases d.reachBelow_cases with ⟨hreach, hmantissa, -⟩ | ⟨hreach, -⟩
    · rw [hmantissa, fractionSize_eq] at h
      rw [hreach]
      omega
    · rw [hreach]
      omega
  refine RoundingInterval.isSome_nearestInteger?_of_wide tie hunit ?_ ?_
  · omega
  · omega

end Dyadic

/-- **The shortest decimal of a binary64 number lies in its rounding interval.** -/
theorem Dyadic.contains_shortest {d : Dyadic} (hd : d.Canonical) (hpos : 0 < d.mantissa)
    (tie : Tie) : (RoundingInterval.ofDyadic d).Contains (d.shortest tie).value := by
  dsimp only [shortest]
  cases hfind : (List.range 17).findSome? _ with
  | some decimal =>
      obtain ⟨count, -, hgrid⟩ := List.exists_of_findSome?_eq_some hfind
      obtain ⟨digits, hdigits, rfl⟩ := Option.map_eq_some_iff.mp hgrid
      rw [Option.getD_some, Decimal.value_dropZeros]
      exact (RoundingInterval.contains_rescale_iff ..).mp
        (RoundingInterval.contains_of_nearestInteger? hdigits)
  | none =>
      -- The grid with seventeen digits has a point in the interval.
      have hnone := List.findSome?_eq_none_iff.mp hfind 16 (by decide)
      rw [Option.map_eq_none_iff, ← Option.not_isSome_iff_eq_none] at hnone
      refine absurd (isSome_nearestInteger? hd hpos tie ?_) hnone
      exact RoundingInterval.ten_pow_mul_unit_le
        (Nat.mul_pos (Nat.mul_pos (by decide) hpos) (Nat.pow_pos (by decide)))
        (Nat.mul_pos (by decide) (Nat.pow_pos (by decide))) 16

end StraightLine
