/-
Abacus.Proofs.NumberSystem.Negligible — which decimals count as zero.

A decimal is meant to count as zero if it is within the tolerance that integers
have (`OneTolerance`), and the cotangent to have its poles where the tangent does
(`PoleRule`).  The nearest integer is zero, and near, for exactly these numbers
(`isNear_zero_iff`).  The test of the binary exponent is stricter: it takes the
numbers below `2 ^ -134`, which is less than half of the tolerance
(`isNegligible_iff`), and the cotangent goes by it (`cot_eq_domain_iff`).
-/
import Abacus.Proofs.NumberSystem.PowerLaw
import Abacus.Proofs.NumberSystem.Tolerance

namespace Abacus.NumberSystem.Decimal

/-! ## The rules -/

/-- A number counts as zero if it is within the tolerance of zero, and then zero is the nearest
integer and near. -/
structure OneTolerance (t : Finite Format.decimal) : Prop where
  negligible : isNegligible (.finite t) = true ↔ |t.value| < 1 / 10 ^ toleranceDigits
  near : |t.value| < 1 / 10 ^ toleranceDigits ↔
    t.nearestInteger = 0 ∧ t.isNearInteger toleranceDigits = true

/-- The cotangent is outside its domain if the tangent is within the tolerance of zero. -/
def PoleRule (x : Finite Format.decimal) : Prop :=
  (∃ fault, apply .cot (.finite x) = .error (.domain fault)) ↔
    ∃ t, x.tan = .finite t ∧ |t.value| < 1 / 10 ^ toleranceDigits

/-! ## Zero as an integer -/

/-- Zero is the nearest integer of a number, and near, if the number is within the tolerance. -/
theorem isNear_zero_iff (t : Finite Format.decimal) :
    |t.value| < 1 / 10 ^ toleranceDigits ↔
      t.nearestInteger = 0 ∧ t.isNearInteger toleranceDigits = true := by
  have hzero : IsNear t.value 0 ↔ |t.value| < 1 / 10 ^ toleranceDigits := by
    rw [IsNear, Int.cast_zero, sub_zero]
  rw [← hzero, t.isNearInteger_iff]
  constructor
  · intro hnear
    have hnearest : t.nearestInteger = 0 :=
      t.isNearestInteger_nearestInteger.unique hnear.isNearestInteger
    exact ⟨hnearest, by rwa [hnearest]⟩
  · rintro ⟨hnearest, hnear⟩
    rwa [hnearest] at hnear

/-! ## The test of the exponent -/

/-- The binary exponent is compared with `-133`, so the numbers up to `2 ^ -134` pass. -/
theorem isNegligible_iff (t : Finite Format.decimal) :
    isNegligible (.finite t) = true ↔ |t.value| < 1 / 2 ^ 134 := by
  have hlarge : -134 < t.binaryExponent ↔ 2 ^ (-134 : ℤ) ≤ t.magnitude :=
    Finite.lt_binaryExponent_iff (by decide)
  have hzero (h : t.isZero = true) : t.binaryExponent < negligibleExponent := by
    rw [← Finite.magnitude_eq_zero_iff] at h
    rw [h] at hlarge
    have hsmall : ¬-134 < t.binaryExponent := mt hlarge.1 (not_le.2 (by positivity))
    rw [negligibleExponent]
    omega
  have hbelow : t.magnitude < 1 / 2 ^ 134 ↔ ¬-134 < t.binaryExponent := by
    rw [hlarge, not_le]
    norm_num
  rw [isNegligible, Bool.or_eq_true, decide_eq_true_eq, or_iff_right_of_imp hzero,
    negligibleExponent, Finite.abs_value, hbelow]
  omega

theorem two_pow_lt_tolerance : (1 : ℚ) / 2 ^ 134 < 1 / 10 ^ toleranceDigits := by
  norm_num [toleranceDigits]

/-- The tolerances are the same for all numbers but those between both. -/
theorem oneTolerance_iff (t : Finite Format.decimal) :
    OneTolerance t ↔ |t.value| < 1 / 2 ^ 134 ∨ 1 / 10 ^ toleranceDigits ≤ |t.value| := by
  constructor
  · intro h
    rw [← isNegligible_iff, h.negligible]
    exact lt_or_ge _ _
  · intro h
    refine ⟨?_, isNear_zero_iff t⟩
    rw [isNegligible_iff]
    rcases h with hsmall | hlarge
    · exact iff_of_true hsmall (hsmall.trans two_pow_lt_tolerance)
    · exact iff_of_false (not_lt.2 (two_pow_lt_tolerance.le.trans hlarge)) (not_lt.2 hlarge)

/-! ## Poles of the cotangent -/

/-- The reciprocal of what is not zero is defined. -/
theorem checked_one_div_ne_domain {t : Decimal} {negative : Bool} (ht : t.HasSign negative)
    (hzero : t.isZero = false) (origin : Origin) (fault : DomainFault) :
    (Floating.one.div t).checked origin ≠ .error (.domain fault) := by
  obtain ⟨one, hone, -⟩ := Floating.isInt_ofInt hasWholeNumbers_decimal (n := 1) (by decide)
  rw [show (Floating.one : Decimal) = .finite one from hone]
  obtain ⟨y, hy, -⟩ | hoverflow := (one.div_hasSign ht hzero).checked origin
  · rw [hy]
    nofun
  · rw [hoverflow]
    nofun

/-- The cotangent is outside its domain where the tangent is negligible or undefined. -/
theorem cot_eq_domain_iff (x : Finite Format.decimal) :
    (∃ fault, apply .cot (.finite x) = .error (.domain fault)) ↔
      x.tan = .nan ∨ ∃ t, x.tan = .finite t ∧ |t.value| < 1 / 2 ^ 134 := by
  have hcot : apply .cot (.finite x) =
      if isNegligible x.tan then .error (.domain (.cotangentPole (render (.finite x))))
      else (Floating.one.div x.tan).checked (.function .cot) := rfl
  rw [hcot]
  cases x.tan with
  | nan => exact iff_of_true ⟨.undefined (.function .cot), rfl⟩ (.inl rfl)
  | infinite negative =>
    refine iff_of_false ?_ (by simp)
    rintro ⟨fault, h⟩
    exact checked_one_div_ne_domain .infinite rfl (.function .cot) fault h
  | finite t =>
    have hbelow : (Floating.finite t = .nan ∨
        ∃ t', Floating.finite t = .finite t' ∧ |t'.value| < 1 / 2 ^ 134) ↔
          isNegligible (.finite t) = true := by
      simp [isNegligible_iff]
    rw [hbelow]
    split_ifs with hnegligible
    · exact iff_of_true ⟨_, rfl⟩ hnegligible
    · refine iff_of_false ?_ hnegligible
      rintro ⟨fault, h⟩
      have hzero : t.isZero = false := by
        rw [Bool.eq_false_iff]
        intro hz
        exact hnegligible (by simp [isNegligible, hz])
      exact checked_one_div_ne_domain (.finite rfl) hzero (.function .cot) fault h

/-- A decimal counts as zero exactly if it is below `2 ^ -134`.  Zero is its nearest integer, and
near, exactly if it is below `10 ^ -40`, so both tolerances are one for all decimals but those
from `2 ^ -134` up to `10 ^ -40`.  The cotangent is outside its domain exactly where the computed
tangent is below `2 ^ -134`, or undefined. -/
theorem zero_test_is_stricter (t x : Finite Format.decimal) :
    (isNegligible (.finite t) = true ↔ |t.value| < 1 / 2 ^ 134) ∧
      (|t.value| < 1 / 10 ^ toleranceDigits ↔
        t.nearestInteger = 0 ∧ t.isNearInteger toleranceDigits = true) ∧
      (OneTolerance t ↔ |t.value| < 1 / 2 ^ 134 ∨ 1 / 10 ^ toleranceDigits ≤ |t.value|) ∧
      ((∃ fault, apply .cot (.finite x) = .error (.domain fault)) ↔
        x.tan = .nan ∨ ∃ y, x.tan = .finite y ∧ |y.value| < 1 / 2 ^ 134) :=
  ⟨isNegligible_iff t, isNear_zero_iff t, oneTolerance_iff t, cot_eq_domain_iff x⟩

/-- Three quarters of `2 ^ -133` are within `10 ^ -40` of zero, and so is their tangent, but they
do not count as zero, and have a cotangent. -/
theorem not_oneTolerance_below_two_pow :
    let t : Finite Format.decimal := ⟨false, 3 * 2 ^ 254, -389, by decide +kernel⟩
    ¬OneTolerance t ∧ ¬PoleRule t := by
  intro t
  have hvalue : |t.value| = 3 / 2 ^ 135 := by
    rw [Finite.abs_value]
    change ((3 * 2 ^ 254 : ℕ) : ℚ) * 2 ^ (-389 : ℤ) = _
    rw [show (-389 : ℤ) = -254 + -135 by norm_num, two_zpow_add]
    norm_num
  have hlow : 1 / 2 ^ 134 ≤ |t.value| := by
    rw [hvalue]
    norm_num
  have hhigh : |t.value| < 1 / 10 ^ toleranceDigits := by
    rw [hvalue]
    norm_num [toleranceDigits]
  have htan : t.tan = .finite t := by decide +kernel
  constructor
  · rw [oneTolerance_iff, not_or]
    exact ⟨not_lt.2 hlow, not_le.2 hhigh⟩
  · intro hrule
    rw [PoleRule, cot_eq_domain_iff, htan] at hrule
    rcases hrule.2 ⟨t, rfl, hhigh⟩ with h | ⟨t', ht', hbelow⟩
    · cases h
    · cases ht'
      exact absurd hbelow (not_lt.2 hlow)

end Abacus.NumberSystem.Decimal
