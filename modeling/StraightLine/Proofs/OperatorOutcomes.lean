import StraightLine.Proofs.ExactArithmetic
import StraightLine.Proofs.ZeroNumbers

/-!
# What comes of an operator

Integer arithmetic and binary64 arithmetic are separate functions with separate guards.  They agree
on when an operator refuses its operands, on what error it then reports, and on the kind of its
result otherwise.

## Main definitions

* `Operator.Refuses` — the operator divides and the divisor is zero, of whatever kind.
* `Operator.Overflows` — the exact result of two integers does not fit a machine integer.
* `Operator.resultKind` — the kind of a result, by the kinds of the operands.
* `Operator.Outcome` — the three things that can come of an operator.

## Main statements

* `Operator.apply_outcome` — which of the three it is.
* `Operator.apply_spec` — every error and every result, and where integers are promoted.

## Design notes

* **A zero divisor comes first.**  The three outcomes exclude each other, so each error is reported
  in exactly one case; that is what makes equivalences of the implications.
* **Promotion does not lose a zero.**  The guard of binary64 arithmetic looks at the promoted
  divisor, the one of integer arithmetic at the integer itself.
-/

namespace StraightLine

namespace Operator

/-- The exact result of an operator on integers, if it is an operator whose
result can be too large for a machine integer.  A remainder never is, and `/`
and `**` have results that are no integers. -/
def exactResult? : Operator → Int → Int → Option Int
  | .plus, a, b => some (a + b)
  | .minus, a, b => some (a - b)
  | .times, a, b => some (a * b)
  | .intDiv, a, b => some (a.fdiv b)
  | .floatDiv, _, _ | .modulus, _, _ | .exponentiation, _, _ => none

/-- Both operands are integers and the exact result does not fit a machine
integer.  For floating operands there is no such thing, as their results have an
infinity to go to. -/
def Overflows (op : Operator) : Value → Value → Prop
  | .int a, .int b =>
    ∃ n ∈ op.exactResult? a.toInt b.toInt, ¬ (-2 ^ 63 ≤ n ∧ n ≤ 2 ^ 63 - 1)
  | _, _ => False

instance (op : Operator) (left right : Value) : Decidable (op.Overflows left right) :=
  match left, right with
  | .int a, .int b =>
    inferInstanceAs (Decidable
      (∃ n ∈ op.exactResult? a.toInt b.toInt, ¬ (-2 ^ 63 ≤ n ∧ n ≤ 2 ^ 63 - 1)))
  | .int _, .float _ | .float _, .int _ | .float _, .float _ => inferInstanceAs (Decidable False)

/-- The operator divides and the divisor is zero.  The dividend does not matter,
nor does the kind of the zero or its sign. -/
def Refuses (op : Operator) (right : Value) : Prop := op.divides = true ∧ right.isZero = true

instance (op : Operator) (right : Value) : Decidable (op.Refuses right) :=
  inferInstanceAs (Decidable (_ ∧ _))

/-- The kind of the result: integer arithmetic stays with integers.  One
floating operand, or one of `/` and `**`, is enough for a floating result. -/
def resultKind (op : Operator) (left right : Kind) : Kind :=
  if op.isIntegral && left == .int && right == .int then .int else .float

/-- What can come of an operator.

The three cases exclude each other, so that knowing an operator has one of these
outcomes decides its result up to the value: an error occurs exactly under its
condition, and a result has the kind that the operands announce. -/
inductive Outcome (op : Operator) (left right : Value) : Except EvalError Value → Prop where
  | refused : op.Refuses right → Outcome op left right (.error (.divisionByZero op))
  | overflow : ¬ op.Refuses right → op.Overflows left right →
      Outcome op left right (.error (.overflow op))
  | value (v : Value) : ¬ op.Refuses right → ¬ op.Overflows left right →
      v.kind = op.resultKind left.kind right.kind → Outcome op left right (.ok v)

/-! ## Integer arithmetic -/

section Integers

variable {op : Operator} {a b : Int64}

theorem refuses_int_iff : op.Refuses (.int b) ↔ op.divides = true ∧ b = 0 := by
  rw [Refuses, Value.isZero, beq_iff_eq]

theorem not_overflows_of_none (h : op.exactResult? a.toInt b.toInt = none) :
    ¬ op.Overflows (.int a) (.int b) := by
  rintro ⟨n, hn, -⟩
  rw [h] at hn
  cases hn

/-- An exact result either fits or overflows. -/
theorem fit_outcome {n : Int} (hop : op.isIntegral = true) (hzero : ¬ op.Refuses (.int b))
    (hn : op.exactResult? a.toInt b.toInt = some n) :
    Outcome op (.int a) (.int b) (op.fit (Word.ofInt? n)) := by
  have hmin : Int64.minValue.toInt = -2 ^ 63 := Int64.toInt_minValue
  have hmax : Int64.maxValue.toInt = 2 ^ 63 - 1 := Int64.toInt_maxValue
  have hoverflows : op.Overflows (.int a) (.int b) ↔ ¬ (-2 ^ 63 ≤ n ∧ n ≤ 2 ^ 63 - 1) := by
    simp [Overflows, hn]
  rw [Word.ofInt?, hmin, hmax]
  split
  · rename_i hfits
    refine .value _ hzero (hoverflows.not.mpr (not_not_intro hfits)) ?_
    rw [resultKind, hop]
    rfl
  · rename_i hlarge
    exact .overflow hzero (hoverflows.mpr hlarge)

/-- A division refuses zero before anything else.  What is known of the result
is only needed for other divisors. -/
theorem divide_outcome {result : Except EvalError Value} (hop : op.divides = true)
    (hresult : b ≠ 0 → Outcome op (.int a) (.int b) result) :
    Outcome op (.int a) (.int b)
      (if b == 0 then .error (.divisionByZero op) else result) := by
  by_cases hzero : b = 0
  · rw [if_pos (beq_iff_eq.mpr hzero)]
    exact .refused (refuses_int_iff.mpr ⟨hop, hzero⟩)
  · rw [if_neg (mt beq_iff_eq.mp hzero)]
    exact hresult hzero

theorem applyInt_outcome (op : Operator) (a b : Int64) :
    Outcome op (.int a) (.int b) (op.applyInt a b) := by
  have hplain : ∀ {op : Operator}, op.divides = false → ¬ op.Refuses (.int b) := by
    intro op hop h
    exact absurd h.1 (by simp [hop])
  have hnonzero : ∀ {op : Operator}, b ≠ 0 → ¬ op.Refuses (.int b) :=
    fun hb h => hb (refuses_int_iff.mp h).2
  cases op with
  | plus | minus | times => exact fit_outcome rfl (hplain rfl) rfl
  | intDiv =>
      refine divide_outcome rfl fun hb => ?_
      rw [Word.floorDiv?_eq hb]
      exact fit_outcome rfl (hnonzero hb) rfl
  | floatDiv | modulus =>
      exact divide_outcome rfl fun hb =>
        .value _ (hnonzero hb) (not_overflows_of_none rfl) rfl
  | exponentiation => exact .value _ (hplain rfl) (not_overflows_of_none rfl) rfl

end Integers

/-! ## Binary64 arithmetic -/

/-- Binary64 arithmetic has no error but the zero divisor.  Whether the divisor
is zero is asked by a comparison that takes both zeros for equal. -/
theorem applyFloat_eq_error_iff {op : Operator} {x y : Float} {e : EvalError} :
    op.applyFloat x y = .error e ↔
      e = .divisionByZero op ∧ op.divides = true ∧ (y == 0.0) = true := by
  unfold applyFloat
  split
  · rename_i hzero
    rw [Bool.and_eq_true] at hzero
    simp [hzero, eq_comm]
  · rename_i hother
    rw [Bool.and_eq_true] at hother
    simp [hother]

theorem applyFloat_outcome {op : Operator} {left right : Value}
    (hfloat : left.kind = .float ∨ right.kind = .float) :
    Outcome op left right ((op.applyFloat left.toFloat right.toFloat).map .float) := by
  have hrefuses : op.Refuses right ↔ op.divides = true ∧ (right.toFloat == 0.0) = true := by
    rw [Refuses, Value.toFloat_beq_zero]
  have hoverflows : ¬ op.Overflows left right := by
    cases left <;> cases right <;> simp [Overflows] at hfloat ⊢
  cases hresult : op.applyFloat left.toFloat right.toFloat with
  | error e =>
      obtain ⟨rfl, hzero⟩ := applyFloat_eq_error_iff.mp hresult
      exact .refused (hrefuses.mpr hzero)
  | ok x =>
      refine .value _ (fun h => ?_) hoverflows ?_
      · rw [applyFloat_eq_error_iff.mpr ⟨rfl, hrefuses.mp h⟩] at hresult
        cases hresult
      · obtain h | h := hfloat <;> simp [resultKind, h]

/-- `/` and `**` do to integers what they do to the promoted ones. -/
theorem applyInt_of_promoting {op : Operator} (hop : op = floatDiv ∨ op = exponentiation)
    (a b : Int64) :
    op.applyInt a b = (op.applyFloat (Binary64.ofWord a) (Binary64.ofWord b)).map .float := by
  obtain rfl | rfl := hop
  · simp only [applyInt, applyFloat, divides, Bool.true_and, Binary64.ofWord_beq_zero]
    split <;> rfl
  · rfl

/-! ## Values -/

/-- **What comes of an operator.** Of the two arithmetics it is the same: they
are separate functions, and each of them is shown to have an outcome. -/
theorem apply_outcome (op : Operator) (left right : Value) :
    Outcome op left right (op.apply left right) := by
  cases left with
  | float x => exact applyFloat_outcome (.inl rfl)
  | int a =>
      cases right with
      | float y => exact applyFloat_outcome (.inr rfl)
      | int b => exact applyInt_outcome op a b

/-- The kind of a result is known from the kinds of the operands. -/
theorem kind_of_apply {op : Operator} {left right v : Value} (h : op.apply left right = .ok v) :
    v.kind = op.resultKind left.kind right.kind := by
  have houtcome := op.apply_outcome left right
  rw [h] at houtcome
  cases houtcome with
  | value _ _ _ hkind => exact hkind

theorem refuses_iff {op : Operator} {right : Value} :
    op.Refuses right ↔ op ∈ [floatDiv, intDiv, modulus] ∧
      (right = .int 0 ∨ right = .float 0.0 ∨ right = .float (-0.0)) := by
  rw [Refuses, Value.isZero_iff]
  apply and_congr_left'
  cases op <;> decide

theorem resultKind_eq_int_iff {op : Operator} {left right : Kind} :
    op.resultKind left right = .int ↔
      left = .int ∧ right = .int ∧ op ∈ [plus, minus, times, intDiv, modulus] := by
  cases op <;> cases left <;> cases right <;> decide

/-- **Errors and kinds are the same for both arithmetics.**  A division by zero is reported by `/`,
`//` and `%` alone, for the integer zero and both floating zeros and whatever the dividend is; an
overflow is reported for two integers whose exact result does not fit, unless the divisor is zero;
in every other case there is a result, and it is an integer exactly if both operands are and the
operator is neither `/` nor `**`.  These two do to integers what binary64 arithmetic does to the
promoted ones. -/
theorem apply_spec (op : Operator) (left right : Value) :
    (op.Refuses right ↔ op ∈ [floatDiv, intDiv, modulus] ∧
        (right = .int 0 ∨ right = .float 0.0 ∨ right = .float (-0.0))) ∧
      (∀ op', op.apply left right = .error (.divisionByZero op') ↔ op' = op ∧ op.Refuses right) ∧
      (∀ op', op.apply left right = .error (.overflow op') ↔
        op' = op ∧ ¬ op.Refuses right ∧ op.Overflows left right) ∧
      (¬ op.Refuses right → ¬ op.Overflows left right → ∃ v, op.apply left right = .ok v ∧
        (v.kind = .int ↔ left.kind = .int ∧ right.kind = .int ∧
          op ∈ [plus, minus, times, intDiv, modulus])) ∧
      ((op = floatDiv ∨ op = exponentiation) → ∀ a b : Int64, left = .int a → right = .int b →
        op.apply left right =
          (op.applyFloat (Binary64.ofWord a) (Binary64.ofWord b)).map .float) := by
  have houtcome := op.apply_outcome left right
  refine ⟨refuses_iff, fun op' => ?_, fun op' => ?_, fun hzero hfits => ?_, ?_⟩
  · generalize op.apply left right = result at houtcome
    cases houtcome <;> simp_all [eq_comm]
  · generalize op.apply left right = result at houtcome
    cases houtcome <;> simp_all [eq_comm]
  · generalize op.apply left right = result at houtcome
    cases houtcome with
    | refused h => exact absurd h hzero
    | overflow _ h => exact absurd h hfits
    | value v _ _ hkind => exact ⟨v, rfl, by rw [hkind, resultKind_eq_int_iff]⟩
  · rintro hop a b rfl rfl
    rw [apply, applyInt_of_promoting hop]

/-- For the least integer and `-1` the quotient overflows and the remainder is an integer; a
floating zero of either sign is refused as divisor of an integer. -/
theorem apply_spec_of_least :
    intDiv.apply (.int Int64.minValue) (.int (-1)) = .error (.overflow .intDiv) ∧
      (∃ v, modulus.apply (.int Int64.minValue) (.int (-1)) = .ok v ∧ v.kind = .int) ∧
      intDiv.apply (.int Int64.minValue) (.float (-0.0)) = .error (.divisionByZero .intDiv) ∧
      (∃ v, plus.apply (.int Int64.maxValue) (.float 1.0) = .ok v ∧ v.kind = .float) ∧
      floatDiv.apply (.int Int64.minValue) (.int 0) =
        (floatDiv.applyFloat (Binary64.ofWord Int64.minValue) (Binary64.ofWord 0)).map .float := by
  obtain ⟨-, -, hquotient, -, -⟩ := apply_spec .intDiv (.int Int64.minValue) (.int (-1))
  obtain ⟨-, -, -, hremainder, -⟩ := apply_spec .modulus (.int Int64.minValue) (.int (-1))
  obtain ⟨-, hzero, -, -, -⟩ := apply_spec .intDiv (.int Int64.minValue) (.float (-0.0))
  obtain ⟨-, -, -, hsum, -⟩ := apply_spec .plus (.int Int64.maxValue) (.float 1.0)
  obtain ⟨-, -, -, -, hpromoted⟩ := apply_spec .floatDiv (.int Int64.minValue) (.int 0)
  obtain ⟨v, hv, hint⟩ := hremainder (by decide) (by decide)
  obtain ⟨w, hw, hfloat⟩ := hsum (by decide) (by decide)
  refine ⟨(hquotient _).mpr ⟨rfl, by decide, by decide⟩, ⟨v, hv, hint.mpr (by decide)⟩,
    (hzero _).mpr ⟨rfl, by decide⟩, ⟨w, hw, ?_⟩, hpromoted (.inl rfl) _ _ rfl rfl⟩
  cases hkind : w.kind with
  | float => rfl
  | int => exact absurd (hfloat.mp hkind).2.1 (by decide)

end Operator

end StraightLine
