import StraightLine.Proofs.FiniteNumbers
import StraightLine.Value

/-!
# Zero among the binary64 numbers

Only the two zeros are equal to zero, and converting a machine integer gives one of them for zero
alone.

## Main definitions

* `Binary64.NonZero` — a number before it is packed which does not become a zero.

## Main statements

* `Binary64.beq_zero_iff` — the numbers that are equal to zero.
* `Binary64.ofWord_beq_zero` — no machine integer but zero is converted to a zero.
* `Value.isZero_iff` — the values that a division refuses as divisor.

## Design notes

* **Packing is where a number could be lost.**  What is packed keeps the lower bits of its mantissa,
  so a number stays different from zero if its mantissa has no more bits than are kept and its
  exponent is not below the least; rounding sees to that.
-/

namespace StraightLine

namespace Binary64

open Float.Model (Format UnpackedFloat totalExponent)
open Float.Model.UnpackedFloat

/-! ## The zeros -/

/-- Not a zero, with a mantissa that fits and an exponent that is not below the
least.  Packing keeps all bits of such a number; a mantissa that did not fit
would be cut off and could become zero. -/
def NonZero : UnpackedFloat → Prop
  | .zero _ => False
  | .finite _ mantissa exponent _ => mantissa < 2 ^ 53 ∧ -1074 ≤ exponent
  | .infinity _ => True
  | .notANumber => True

/-- What is unpacked is a zero, and then no bit but the sign is set, or it is
not one and fits.  Subnormal numbers are on the second side, with the least
exponent. -/
theorem unpack_spec (b : BitVec Format.binary64.numBits) :
    ((∃ s, unpack Format.binary64 b = .zero s) ∧ unpackExponent b = 0#_ ∧ unpackMantissa b = 0#_) ∨
      NonZero (unpack Format.binary64 b) := by
  have hlt : (unpackMantissa b).toNat < 2 ^ 52 := (unpackMantissa b).isLt
  have hbias : Format.binary64.exponentBias = 1023 := rfl
  unfold unpack
  dsimp only
  by_cases hones : unpackExponent b = -1#_
  · rw [if_pos hones]
    by_cases hmantissa : unpackMantissa b = 0#_
    · rw [if_pos hmantissa]
      exact .inr trivial
    · rw [if_neg hmantissa]
      exact .inr trivial
  · rw [if_neg hones]
    by_cases hzero : unpackExponent b = 0#_
    · rw [if_pos hzero]
      by_cases hmantissa : unpackMantissa b = 0#_
      · rw [dif_pos hmantissa]
        exact .inl ⟨⟨_, rfl⟩, hzero, hmantissa⟩
      · rw [dif_neg hmantissa]
        refine .inr ⟨by omega, ?_⟩
        rw [hbias]
        omega
    · rw [if_neg hzero]
      have hpos : (unpackExponent b).toNat ≠ 0 := fun h => hzero (BitVec.eq_of_toNat_eq h)
      refine .inr ⟨(1#1 ++ unpackMantissa b).isLt, ?_⟩
      rw [hbias]
      omega

/-- A packed number is a zero if no bit but the sign is set. -/
theorem fields_of_unpack_eq_zero {b : BitVec Format.binary64.numBits} {s : Sign}
    (h : unpack Format.binary64 b = .zero s) :
    unpackExponent b = 0#_ ∧ unpackMantissa b = 0#_ := by
  refine ((unpack_spec b).resolve_right fun hnonzero => ?_).2
  rwa [h] at hnonzero

/-- What is equal to zero is a zero. -/
theorem unpack_of_beq_zero {x : Float} (h : (x == 0.0) = true) :
    ∃ s, x.toModel.unpack = .zero s := by
  have hcompare : (x.toModel.unpack.compare (.zero .positive) == some .eq) = true := h
  generalize x.toModel.unpack = u at hcompare
  cases u with
  | zero s => exact ⟨s, rfl⟩
  | infinity s | finite s m e hm => cases s <;> cases hcompare
  | notANumber => cases hcompare

/-- A number is given by its bits.  Two numbers that compare as equal may have
different ones, so equations between floating numbers are proved through this. -/
theorem ext_toNat {x y : Float}
    (h : x.toModel.toBits.toBitVec.toNat = y.toModel.toBits.toBitVec.toNat) : x = y := by
  obtain ⟨⟨⟨bits⟩, _⟩⟩ := x
  obtain ⟨⟨⟨bits'⟩, _⟩⟩ := y
  obtain rfl : bits = bits' := BitVec.eq_of_toNat_eq h
  rfl

theorem toNat_unpackExponent (b : BitVec Format.binary64.numBits) :
    (unpackExponent b).toNat = b.toNat / 2 ^ 52 % 2 ^ 11 := by
  rw [unpackExponent, BitVec.toNat_cast, BitVec.extractLsb_toNat, Nat.shiftRight_eq_div_pow]
  rfl

theorem toNat_unpackMantissa (b : BitVec Format.binary64.numBits) :
    (unpackMantissa b).toNat = b.toNat % 2 ^ 52 := by
  rw [unpackMantissa, BitVec.toNat_cast, BitVec.extractLsb_toNat]
  rfl

/-- **Only the two zeros are equal to zero.** The comparison goes by the
unpacked number, which is a zero of some sign, and its bits are then known. -/
theorem beq_zero_iff {x : Float} : (x == 0.0) = true ↔ x = 0.0 ∨ x = -0.0 := by
  constructor
  · intro h
    obtain ⟨s, hzero⟩ := unpack_of_beq_zero h
    obtain ⟨hexponent, hmantissa⟩ := fields_of_unpack_eq_zero hzero
    have hexponent := (toNat_unpackExponent _).symm.trans (congrArg BitVec.toNat hexponent)
    have hmantissa := (toNat_unpackMantissa _).symm.trans (congrArg BitVec.toNat hmantissa)
    rw [BitVec.toNat_ofNat, Nat.zero_mod] at hexponent hmantissa
    -- What is left of the bits is the sign, which is the highest of them.
    have hbits : x.toModel.toBits.toBitVec.toNat = 0 ∨
        x.toModel.toBits.toBitVec.toNat = 2 ^ 63 := by
      have hlt := x.toModel.toBits.toBitVec.isLt
      generalize x.toModel.toBits.toBitVec.toNat = n at *
      omega
    exact hbits.imp ext_toNat ext_toNat
  · rintro (rfl | rfl) <;> decide

/-! ## Packing -/

/-- What is not zero is not packed as a zero. -/
theorem unpack_pack_ne_zero {u : UnpackedFloat} (h : NonZero u) (s : Sign) :
    unpack Format.binary64 (pack Format.binary64 u) ≠ .zero s := by
  have hones : (-1#_ : BitVec Format.binary64.exponentBits) ≠ 0#_ := by decide
  intro hzero
  obtain ⟨hexponent, hmantissa⟩ := fields_of_unpack_eq_zero hzero
  cases u with
  | zero => exact h
  | infinity s' => exact hones (unpackExponent_packComponents.symm.trans hexponent)
  | notANumber => exact hones (unpackExponent_packComponents.symm.trans hexponent)
  | finite s' m e hm =>
      obtain ⟨hlt, he⟩ := h
      have hbias : Format.binary64.exponentBias = 1023 := rfl
      unfold pack at hexponent hmantissa
      dsimp only at hexponent hmantissa
      split_ifs at hexponent hmantissa with hbig hnormal
      · exact hones (unpackExponent_packComponents.symm.trans hexponent)
      · -- The exponent field of a normal number is not zero.
        rw [unpackExponent_packComponents] at hexponent
        have hvalue := congrArg BitVec.toNat hexponent
        rw [BitVec.toNat_ofNat, BitVec.toNat_ofNat, hbias] at hvalue
        rw [hbias] at hbig
        omega
      · -- The mantissa of any other number has no more bits than are kept.
        have hsize : Format.binary64.mantissaBits = 53 := rfl
        have hlog := log2_le_of_lt hlt
        have hlt' : m < 2 ^ 52 := (Nat.log2_lt hm.ne').mp (by omega)
        rw [unpackMantissa_packComponents] at hmantissa
        have hvalue := congrArg BitVec.toNat hmantissa
        rw [BitVec.toNat_ofNat, BitVec.toNat_ofNat] at hvalue
        omega

/-! ## Rounding -/

theorem mantissa_shiftRight (em : ExtendedMantissa) (n : Nat) :
    (em >>> n).mantissa = em.mantissa / 2 ^ n := by
  induction n with
  | zero => exact (Nat.div_one _).symm
  | succ n ih =>
      rw [Nat.pow_succ, ← Nat.div_div_eq_div_mul, ← ih]
      rfl

theorem le_roundedMantissa (em : ExtendedMantissa) : em.mantissa ≤ em.roundedMantissa := by
  obtain ⟨mantissa, roundBit, stickyBit⟩ := em
  cases roundBit <;> cases stickyBit <;>
    simp only [ExtendedMantissa.roundedMantissa, ExtendedMantissa.accuracy,
      Accuracy.roundToNearestEven] <;> omega

/-- A number that is not far below the least one keeps some of its bits when it
is shifted to the exponent of the format, and no more than there is room for. -/
theorem shiftToTargetExponent_nonZero {m : Nat} {e : Int} (hm : 0 < m)
    (he : -1074 ≤ (m.log2 : Int) + e) :
    0 < (shiftToTargetExponent Format.binary64 m e .exact).1.mantissa ∧
      (shiftToTargetExponent Format.binary64 m e .exact).1.mantissa < 2 ^ 53 ∧
      -1074 ≤ (shiftToTargetExponent Format.binary64 m e .exact).2 := by
  obtain ⟨-, hexponent⟩ := shiftToTargetExponent_spec m e
  have hmantissa : (shiftToTargetExponent Format.binary64 m e .exact).1.mantissa =
      m / 2 ^ (max ((m.log2 : Int) + 1 + e - 53) (-1074) - e).toNat := mantissa_shiftRight _ _
  generalize hshift : (max ((m.log2 : Int) + 1 + e - 53) (-1074) - e).toNat = shift at hmantissa
  have hlow : 2 ^ m.log2 ≤ m := Nat.log2_self_le hm.ne'
  have hhigh : m < 2 ^ (m.log2 + 1) := Nat.lt_log2_self
  rw [hmantissa, hexponent]
  refine ⟨Nat.div_pos ?_ (Nat.two_pow_pos _), ?_, by omega⟩
  · calc 2 ^ shift ≤ 2 ^ m.log2 := Nat.pow_le_pow_right (by decide) (by omega)
      _ ≤ m := hlow
  · rw [Nat.div_lt_iff_lt_mul (Nat.two_pow_pos _), ← Nat.pow_add]
    calc m < 2 ^ (m.log2 + 1) := hhigh
      _ ≤ 2 ^ (53 + shift) := Nat.pow_le_pow_right (by decide) (by omega)

/-- A number that is not far below the least one is not rounded to zero. -/
theorem nonZero_roundWithAccuracy (s : Sign) {m : Nat} {e : Int} (hm : 0 < m)
    (he : -1074 ≤ (m.log2 : Int) + e) :
    NonZero (roundWithAccuracy Format.binary64 s m e .exact) := by
  unfold roundWithAccuracy
  obtain ⟨hpos, -, hexponent⟩ := shiftToTargetExponent_nonZero hm he
  generalize shiftToTargetExponent Format.binary64 m e .exact = first at *
  obtain ⟨em, e₁⟩ := first
  dsimp only at *
  have hrounded : 0 < em.roundedMantissa := Nat.lt_of_lt_of_le hpos (le_roundedMantissa em)
  obtain ⟨hpos', hlt, hexponent'⟩ :=
    shiftToTargetExponent_nonZero (e := e₁) hrounded (by omega)
  generalize shiftToTargetExponent Format.binary64 em.roundedMantissa e₁ .exact = second at *
  obtain ⟨em', e₂⟩ := second
  dsimp only at *
  rw [dif_neg hpos'.ne']
  exact ⟨hlt, hexponent'⟩

/-! ## Converting integers -/

/-- No integer of 64 bits but zero is converted to a zero. -/
theorem toFloat_ne_zero {n : UInt64} (hn : n ≠ 0) (s : Sign) :
    n.toFloat.toModel.unpack ≠ .zero s := by
  apply unpack_pack_ne_zero
  show NonZero (UnpackedFloat.normalize Format.binary64 (n.toNat : Int) 0 .positive)
  have hpos : 0 < n.toNat := Nat.pos_of_ne_zero fun h => hn (UInt64.toNat_inj.mp h)
  rw [UnpackedFloat.normalize, Int.compare_eq_gt.mpr (by omega)]
  dsimp only
  rw [UnpackedFloat.round, Int.toNat_natCast]
  dsimp only [decreaseExponent]
  apply nonZero_roundWithAccuracy
  · rw [Nat.shiftLeft_eq]
    exact Nat.mul_pos hpos (Nat.two_pow_pos _)
  · have htarget : Format.binary64.targetExponent (totalExponent n.toNat 0) =
        max ((n.toNat.log2 : Int) + 1 + 0 - 53) (-1074) := rfl
    rw [htarget]
    omega

/-- The negative of a number that is not zero is not zero. -/
theorem neg_ne_zero {x : Float} (h : ∀ s, x.toModel.unpack ≠ .zero s) (s : Sign) :
    (-x).toModel.unpack ≠ .zero s := by
  have hx : NonZero x.toModel.unpack :=
    (unpack_spec _).resolve_left fun ⟨⟨s, hs⟩, _⟩ => h s hs
  apply unpack_pack_ne_zero
  show NonZero x.toModel.unpack.neg
  generalize x.toModel.unpack = u at hx
  cases u <;> exact hx

/-- **No machine integer but zero is converted to a zero.** So the guard of
binary64 arithmetic, which sees the converted divisor, refuses the same integers
as the guard of integer arithmetic. -/
theorem ofWord_beq_zero (n : Int64) : (ofWord n == 0.0) = (n == 0) := by
  by_cases hn : n = 0
  · subst hn
    decide
  · rw [beq_eq_false_iff_ne.mpr hn, Bool.eq_false_iff]
    intro hzero
    obtain ⟨s, hs⟩ := unpack_of_beq_zero hzero
    have hword : n.toUInt64 ≠ 0 := fun h => hn (Int64.toBitVec_inj.mp (congrArg UInt64.toBitVec h))
    have hneg : 0 - n.toUInt64 ≠ 0 := fun h => hword (by grind)
    unfold ofWord at hs
    split at hs
    · exact neg_ne_zero (toFloat_ne_zero hneg) s hs
    · exact toFloat_ne_zero hword s hs

end Binary64

namespace Value

/-- **A division refuses the integer zero and the two floating zeros as divisor.** -/
theorem isZero_iff {v : Value} :
    v.isZero = true ↔ v = .int 0 ∨ v = .float 0.0 ∨ v = .float (-0.0) := by
  cases v with
  | int n => simp [isZero]
  | float x => simp [isZero, Binary64.beq_zero_iff]

/-- A value is zero if its number is, whatever its kind. -/
theorem toFloat_beq_zero (v : Value) : (v.toFloat == 0.0) = v.isZero := by
  cases v with
  | int n => exact Binary64.ofWord_beq_zero n
  | float x => rfl

end Value

end StraightLine
