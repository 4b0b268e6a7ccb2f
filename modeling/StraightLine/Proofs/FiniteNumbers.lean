import StraightLine.Proofs.Numerals

/-!
# Numerals have finite numbers

A literal that is read from a text is never infinite and never not-a-number: what goes by its
significand is checked after scaling, and an integer of 64 bits is far from the greatest number.

## Main definitions

* `Binary64.InRange` — a number before it is packed which is not too large to be packed.

## Main statements

* `Binary64.isFinite_neg`, `Binary64.isFinite_toFloat` — operations that stay finite.
* `Numeral.isFinite_of_rounded?` — the number of a numeral is finite.

## Design notes

* **Only exponents are followed.**  Rounding shifts the mantissa to the right and raises the
  exponent; how far depends on the number of bits, and for 64 bits a bound far below the greatest
  exponent is enough.  What the rounded number is does not matter here.
-/

namespace StraightLine

namespace Binary64

open Float.Model (Format UnpackedFloat totalExponent)
open Float.Model.UnpackedFloat

/-! ## Packing -/

/-- The greatest exponent of a finite number whose mantissa is an integer. -/
def greatestExponent : Int := 971

/-- Zero, or a number whose exponent is in range.  The mantissa is not
mentioned: with an exponent in range, any mantissa that is packed gives a finite
number. -/
def InRange : UnpackedFloat → Prop
  | .zero _ => True
  | .finite _ _ exponent _ => exponent ≤ greatestExponent
  | .infinity _ => False
  | .notANumber => False

/-- A packed number is finite if not all bits of its exponent field are set. -/
theorem isFinite_unpack_iff (b : BitVec Format.binary64.numBits) :
    (unpack Format.binary64 b).isFinite = true ↔ unpackExponent b ≠ -1#_ := by
  unfold unpack
  dsimp only
  by_cases hones : unpackExponent b = -1#_
  · rw [if_pos hones]
    apply iff_of_false _ (not_not_intro hones)
    by_cases hmantissa : unpackMantissa b = 0#_
    · rw [if_pos hmantissa]
      exact Bool.false_ne_true
    · rw [if_neg hmantissa]
      exact Bool.false_ne_true
  · rw [if_neg hones]
    apply iff_of_true _ hones
    by_cases hzero : unpackExponent b = 0#_
    · rw [if_pos hzero]
      by_cases hmantissa : unpackMantissa b = 0#_
      · rw [dif_pos hmantissa]
        rfl
      · rw [dif_neg hmantissa]
        rfl
    · rw [if_neg hzero]
      rfl

/-- A finite number has an exponent in range.  With the converse for packing,
operations on unpacked numbers need to be followed in their exponents only. -/
theorem inRange_unpack {b : BitVec Format.binary64.numBits}
    (h : (unpack Format.binary64 b).isFinite = true) : InRange (unpack Format.binary64 b) := by
  have hones := (isFinite_unpack_iff b).mp h
  have hne : (unpackExponent b).toNat ≠ 2047 := by
    intro heq
    exact hones (BitVec.eq_of_toNat_eq (heq.trans (by decide)))
  have hlt := (unpackExponent b).isLt
  have hbias : Format.binary64.exponentBias = 1023 := rfl
  have hsize : (2 : Nat) ^ Format.binary64.exponentBits = 2048 := rfl
  rw [hsize] at hlt
  unfold unpack
  dsimp only
  rw [if_neg hones]
  by_cases hzero : unpackExponent b = 0#_
  · rw [if_pos hzero]
    by_cases hmantissa : unpackMantissa b = 0#_
    · rw [dif_pos hmantissa]
      trivial
    · rw [dif_neg hmantissa]
      show ((unpackExponent b).toNat : Int) - _ + 1 ≤ greatestExponent
      rw [hzero, hbias]
      decide
  · rw [if_neg hzero]
    show ((unpackExponent b).toNat : Int) - _ ≤ greatestExponent
    rw [hbias, greatestExponent]
    omega

/-- A number in range stays finite when it is packed. -/
theorem isFinite_pack {u : UnpackedFloat} (h : InRange u) :
    (Float.Model.pack u).isFinite = true := by
  show (unpack Format.binary64 (pack Format.binary64 u)).isFinite = true
  rw [isFinite_unpack_iff]
  cases u with
  | infinity | notANumber => exact h.elim
  | zero s =>
      show unpackExponent (packedZero Format.binary64 s) ≠ -1#_
      rw [packedZero, unpackExponent_packComponents]
      decide
  | finite s m e hm =>
      have hbias : Format.binary64.exponentBias = 1023 := rfl
      have hsize : (2 : Nat) ^ Format.binary64.exponentBits = 2048 := rfl
      have he : e ≤ 971 := h
      unfold pack
      dsimp only
      generalize hbiased : (e + (Format.binary64.exponentBias : Int) +
        (Format.binary64.mantissaBitsWithoutImplicit : Int)).toNat = biased
      have hbits : Format.binary64.mantissaBitsWithoutImplicit = 52 := rfl
      have hlt : biased < 2047 := by
        rw [← hbiased, hbias, hbits]
        omega
      rw [if_neg (by omega)]
      split
      · rw [unpackExponent_packComponents]
        intro hones
        have hvalue := congrArg BitVec.toNat hones
        rw [BitVec.toNat_ofNat, hsize, Nat.mod_eq_of_lt (by omega)] at hvalue
        exact Nat.ne_of_lt hlt (hvalue.trans (by decide))
      · rw [unpackExponent_packComponents]
        decide

/-- The negative of a finite number is finite. -/
theorem isFinite_neg {x : Float} (h : x.isFinite = true) : (-x).isFinite = true := by
  have hx : InRange x.toModel.unpack := inRange_unpack h
  have hneg : InRange x.toModel.unpack.neg := by
    generalize x.toModel.unpack = u at hx
    cases u with
    | infinity | notANumber => exact hx.elim
    | zero => trivial
    | finite => exact hx
  exact isFinite_pack hneg

/-! ## Rounding -/

/-- Shifting to the right does not make a mantissa greater. -/
theorem mantissa_shiftRight_le (em : ExtendedMantissa) (n : Nat) :
    (em >>> n).mantissa ≤ em.mantissa := by
  induction n with
  | zero => exact Nat.le_refl _
  | succ n ih => exact Nat.le_trans (Nat.div_le_self _ 2) ih

theorem roundedMantissa_le (em : ExtendedMantissa) : em.roundedMantissa ≤ em.mantissa + 1 := by
  obtain ⟨mantissa, roundBit, stickyBit⟩ := em
  cases roundBit <;> cases stickyBit <;>
    simp only [ExtendedMantissa.roundedMantissa, ExtendedMantissa.accuracy,
      Accuracy.roundToNearestEven] <;> omega

/-- Where a shift to the exponent of the format leads.  The exponent becomes the
least one at which the mantissa fits its bits, or stays if it fits already; the
mantissa does not grow. -/
theorem shiftToTargetExponent_spec (m : Nat) (e : Int) :
    (shiftToTargetExponent Format.binary64 m e .exact).1.mantissa ≤ m ∧
      (shiftToTargetExponent Format.binary64 m e .exact).2 =
        max e (max ((m.log2 : Int) + 1 + e - 53) (-1074)) := by
  constructor
  · exact mantissa_shiftRight_le _ _
  · have htarget : Format.binary64.targetExponent (totalExponent m e) =
        max ((m.log2 : Int) + 1 + e - 53) (-1074) := rfl
    show e + ((Format.binary64.targetExponent (totalExponent m e) - e).toNat : Int) = _
    rw [htarget]
    omega

theorem log2_le_of_lt {m n : Nat} (h : m < 2 ^ (n + 1)) : m.log2 ≤ n := by
  rcases Nat.eq_zero_or_pos m with rfl | hpos
  · exact Nat.zero_le _
  · exact Nat.le_of_lt_succ ((Nat.log2_lt hpos.ne').mpr h)

/-- A number of at most 117 bits, none of them far behind the point, is rounded
to one in range.  The bound is generous, because what is rounded here has 64
bits and an exponent of zero. -/
theorem inRange_roundWithAccuracy (s : Sign) {m : Nat} {e : Int} (hm : m < 2 ^ 117)
    (he : e ≤ 0) : InRange (roundWithAccuracy Format.binary64 s m e .exact) := by
  unfold roundWithAccuracy
  obtain ⟨hmantissa, hexponent⟩ := shiftToTargetExponent_spec m e
  generalize shiftToTargetExponent Format.binary64 m e .exact = first at *
  obtain ⟨em, e₁⟩ := first
  dsimp only at *
  have hrounded : em.roundedMantissa < 2 ^ 118 := by
    have hle := roundedMantissa_le em
    omega
  obtain ⟨-, hexponent'⟩ := shiftToTargetExponent_spec em.roundedMantissa e₁
  generalize shiftToTargetExponent Format.binary64 em.roundedMantissa e₁ .exact = second at *
  obtain ⟨em', e₂⟩ := second
  dsimp only at *
  have hlog := log2_le_of_lt (n := 116) hm
  have hlog' := log2_le_of_lt (n := 117) hrounded
  by_cases hzero : em'.mantissa = 0
  · rw [dif_pos hzero]
    trivial
  · rw [dif_neg hzero]
    show e₂ ≤ 971
    omega

/-- An integer of 64 bits is converted to a finite number. -/
theorem isFinite_toFloat (n : UInt64) : n.toFloat.isFinite = true := by
  show (Float.Model.pack (ofUInt64 Format.binary64 n)).isFinite = true
  apply isFinite_pack
  show InRange (UnpackedFloat.normalize Format.binary64 (n.toNat : Int) 0 .positive)
  rw [UnpackedFloat.normalize]
  have hn := n.toNat_lt
  split
  · rename_i hlt
    rw [Int.compare_eq_lt] at hlt
    omega
  · trivial
  · -- The digits are first moved away from the point, by as many places as there is room.
    rw [UnpackedFloat.round]
    dsimp only [decreaseExponent]
    apply inRange_roundWithAccuracy
    · have htarget : Format.binary64.targetExponent (totalExponent (n.toNat : Int).toNat 0) =
          max (((n.toNat : Int).toNat.log2 : Int) + 1 + 0 - 53) (-1074) := rfl
      rw [htarget, Int.toNat_natCast, Nat.shiftLeft_eq]
      have hshift : (0 - max ((n.toNat.log2 : Int) + 1 + 0 - 53) (-1074)).toNat ≤ 52 := by omega
      calc n.toNat * 2 ^ (0 - max ((n.toNat.log2 : Int) + 1 + 0 - 53) (-1074)).toNat
          ≤ n.toNat * 2 ^ 52 := Nat.mul_le_mul_left _ (Nat.pow_le_pow_right (by decide) hshift)
        _ < 2 ^ 117 := by omega
    · omega

end Binary64

namespace Numeral

/-- What is scaled is checked.  The scaled number may well be infinite, but then
there is no result. -/
theorem isFinite_of_scale? {significand : Nat} {exponent : Int} {x : Float}
    (h : scale? significand exponent = some x) : x.isFinite = true := by
  unfold scale? at h
  extract_lets start scaled at h
  split at h
  · rename_i hscaled
    rwa [← Option.some_inj.mp h]
  · cases h

theorem isFinite_of_float? {n : Numeral} {x : Float} (h : n.float? = some x) :
    x.isFinite = true := by
  obtain ⟨y, hy, rfl⟩ := Option.map_eq_some_iff.mp h
  have hfinite := isFinite_of_scale? hy
  split
  · exact Binary64.isFinite_neg hfinite
  · exact hfinite

/-- **The number of a numeral is finite.** -/
theorem isFinite_of_rounded? {n : Numeral} {x : Float} (h : n.rounded? = some x) :
    x.isFinite = true := by
  rw [rounded?] at h
  split at h
  · cases h
    exact Binary64.isFinite_toFloat _
  · exact isFinite_of_float? h

end Numeral

end StraightLine
