/-
Abacus.Proofs.NumberSystem.Factorials — which decimals have a factorial.

One rule is meant to decide (`FactorialRule`): a number that is not within the
tolerance of an integer is outside the domain, and so is one near a negative
integer; beyond the limit the factorial is out of range, and up to it the
result is the decimal nearest to the factorial.  The rule holds below `2 ^ 64`
and for all numbers near an integer (`factorial_follows_rule`).  Larger numbers
are refused by their size alone, so those with a fraction count as too large.
-/
import Abacus.Proofs.Floating.Closest
import Abacus.Proofs.NumberSystem.WholeNumbers

namespace Abacus.NumberSystem.Decimal

/-! ## The rule -/

/-- The number is within the tolerance of the integer. -/
def IsNear (v : ℚ) (n : ℤ) : Prop :=
  |v - n| < 1 / 10 ^ toleranceDigits

/-- What the factorial of a number is, when the nearest integer decides. -/
inductive FactorialRule (v : ℚ) (n : ℤ) : Except EvaluationError Decimal → Prop
  | fractional {fault} : ¬IsNear v n → FactorialRule v n (.error (.domain fault))
  | negative {fault} : IsNear v n → n < 0 → FactorialRule v n (.error (.domain fault))
  | tooLarge {fault} : IsNear v n → factorialLimit < n →
      FactorialRule v n (.error (.overflow fault))
  | value {y : Finite Format.decimal} : IsNear v n → 0 ≤ n → n ≤ factorialLimit →
      y.IsNearest (n.toNat.factorial : ℕ) → FactorialRule v n (.ok (.finite y))

/-! ## Sizes -/

/-- Numbers of more than 64 bits before the point are those from `2 ^ 64` on. -/
theorem lt_binaryExponent_iff (x : Finite Format.decimal) :
    64 < x.binaryExponent ↔ 2 ^ 64 ≤ |x.value| := by
  rw [Finite.lt_binaryExponent_iff (by decide), Finite.abs_value]
  exact_mod_cast Iff.rfl

/-- A number of that size is refused for its sign or for its size, whatever its fraction. -/
theorem factorial_of_large {x : Finite Format.decimal} (h : 2 ^ 64 ≤ |x.value|) :
    factorial (.finite x) =
      if x.value < 0 then .error (.domain (.negativeFactorial (render (.finite x))))
      else .error (.overflow (.factorialLimit (render (.finite x)) factorialLimit)) := by
  have hzero : x.isZero = false := by
    rw [Bool.eq_false_iff, Ne, ← Finite.value_eq_zero_iff]
    intro hvalue
    rw [hvalue] at h
    norm_num at h
  have hbits := (lt_binaryExponent_iff x).2 h
  unfold factorial
  dsimp only
  rw [if_pos hbits, Finite.negative_eq hzero]
  simp only [decide_eq_true_eq]

/-! ## Results -/

/-- Factorials up to the limit are within the range of decimals. -/
theorem factorial_le_two_pow {n : ℕ} (h : n ≤ factorialLimit) :
    n.factorial ≤ 2 ^ (14 * factorialLimit) := by
  calc
    n.factorial ≤ n ^ n := n.factorial_le_pow
    _ ≤ (2 ^ 14) ^ n := Nat.pow_le_pow_left (h.trans (by decide)) n
    _ ≤ (2 ^ 14) ^ factorialLimit := Nat.pow_le_pow_right (by decide) h
    _ = 2 ^ (14 * factorialLimit) := (pow_mul 2 14 factorialLimit).symm

/-- The product is written out and read again, as the number nearest to it. -/
theorem exists_factorial_isNearest {n : ℕ} (h : n ≤ factorialLimit) :
    ∃ y : Finite Format.decimal,
      (Decimal.read (toString (productUpTo 1 n))).checked .factorial = .ok (.finite y) ∧
        y.IsNearest (n.factorial : ℕ) := by
  have hlimit : (14 * factorialLimit : ℕ) < Format.decimal.maxExponent := by decide
  obtain ⟨y, hy, hnearest⟩ := (read_toString_standsFor n.factorial).exists_isNearest (by decide)
    (factorial_le_two_pow h) hlimit
  refine ⟨y, ?_, hnearest⟩
  rw [productUpTo_eq, one_mul, hy]
  rfl

/-! ## The rule holds -/

theorem factorial_of_small {x : Finite Format.decimal} (h : |x.value| < 2 ^ 64) :
    FactorialRule x.value x.nearestInteger (factorial (.finite x)) := by
  have hbits : ¬64 < x.binaryExponent := by rwa [lt_binaryExponent_iff, not_le]
  have hdecides : x.isNearInteger toleranceDigits = true ↔ IsNear x.value x.nearestInteger :=
    x.isNearInteger_iff toleranceDigits
  unfold factorial
  dsimp only
  rw [if_neg hbits]
  by_cases hnear : IsNear x.value x.nearestInteger
  · rw [hdecides.2 hnear, Bool.not_true, if_neg Bool.false_ne_true]
    split_ifs with hneg hlimit
    · exact .negative hnear hneg
    · exact .tooLarge hnear hlimit
    · obtain ⟨y, hy, hnearest⟩ :=
        exists_factorial_isNearest (n := x.nearestInteger.toNat) (by omega)
      rw [hy]
      exact .value hnear (not_lt.1 hneg) (not_lt.1 hlimit) hnearest
  · rw [Bool.eq_false_iff.2 (mt hdecides.1 hnear), Bool.not_false, if_pos rfl]
    exact .fractional hnear

/-- The factorial of every decimal is what the rule says, except that a number from `2 ^ 64` on
that is not near an integer is refused as too large. -/
theorem factorial_follows_rule (x : Finite Format.decimal) {n : ℤ}
    (hn : IsNearestInteger x.value n) :
    (x.value < 2 ^ 64 ∨ IsNear x.value n → FactorialRule x.value n (factorial (.finite x))) ∧
      (2 ^ 64 ≤ x.value → ∃ fault, factorial (.finite x) = .error (.overflow fault)) := by
  have hhalf := abs_le.1 hn.abs_sub_le
  constructor
  · intro h
    rcases lt_or_ge |x.value| (2 ^ 64) with hsmall | hlarge
    · rw [hn.unique x.isNearestInteger_nearestInteger]
      exact factorial_of_small hsmall
    · rw [factorial_of_large hlarge]
      split_ifs with hsign
      · -- a negative number is outside the domain, near an integer or not
        by_cases hnear : IsNear x.value n
        · rw [abs_of_neg hsign] at hlarge
          have hneg : (n : ℚ) < 0 := by
            norm_num at hlarge
            linarith
          exact .negative hnear (by exact_mod_cast hneg)
        · exact .fractional hnear
      · -- a number near an integer is near one beyond the limit
        rw [abs_of_nonneg (not_lt.1 hsign)] at hlarge
        have hlimit : ((factorialLimit : ℤ) : ℚ) < n := by
          rw [factorialLimit]
          norm_num at hlarge ⊢
          linarith
        exact .tooLarge (h.resolve_left hlarge.not_gt) (by exact_mod_cast hlimit)
  · intro hlarge
    have hpos : 0 < x.value := lt_of_lt_of_le (by norm_num) hlarge
    rw [factorial_of_large (by rwa [abs_of_pos hpos]), if_neg hpos.not_gt]
    exact ⟨_, rfl⟩

/-- Four and a little more is near four; one half above `2 ^ 64` is refused as too large. -/
theorem factorial_follows_rule_four :
    let x : Finite Format.decimal := ⟨false, 2 ^ 255 + 2 ^ 53, -253, by decide +kernel⟩
    let y : Finite Format.decimal := ⟨false, (2 ^ 65 + 1) * 2 ^ 190, -191, by decide +kernel⟩
    (IsNearestInteger x.value 4 ∧ IsNear x.value 4 ∧
        FactorialRule x.value 4 (factorial (.finite x))) ∧
      IsNearestInteger y.value (2 ^ 64 + 1) ∧ 2 ^ 64 ≤ y.value ∧
        ∃ fault, factorial (.finite y) = .error (.overflow fault) := by
  intro x y
  have hx : IsNearestInteger x.value 4 := by
    have hnearest : x.nearestInteger = 4 := by decide +kernel
    rw [← hnearest]
    exact x.isNearestInteger_nearestInteger
  have hnear : IsNear x.value 4 := by
    have hvalue : x.value = 4 + 1 / 2 ^ 200 := by
      norm_num [x, Finite.value, Finite.signedMantissa, Finite.withSign]
    rw [IsNear, hvalue, toleranceDigits]
    norm_num [abs_of_pos]
  have hy : IsNearestInteger y.value (2 ^ 64 + 1) := by
    have hnearest : y.nearestInteger = 2 ^ 64 + 1 := by decide +kernel
    rw [← hnearest]
    exact y.isNearestInteger_nearestInteger
  have hlarge : 2 ^ 64 ≤ y.value := by
    norm_num [y, Finite.value, Finite.signedMantissa, Finite.withSign]
  exact ⟨⟨hx, hnear, (factorial_follows_rule x hx).1 (.inr hnear)⟩, hy, hlarge,
    (factorial_follows_rule y hy).2 hlarge⟩

/-- One half above `2 ^ 64` is near no integer, and yet it is not refused for that. -/
theorem not_factorialRule_half_above_limit :
    ¬ ∀ (x : Finite Format.decimal) (n : ℤ), IsNearestInteger x.value n →
      FactorialRule x.value n (factorial (.finite x)) := by
  intro h
  set x : Finite Format.decimal :=
    ⟨false, (2 ^ 65 + 1) * 2 ^ 190, -191, by decide +kernel⟩ with hx
  have hvalue : x.value = 2 ^ 64 + 1 / 2 := by
    norm_num [hx, Finite.value, Finite.signedMantissa, Finite.withSign]
  have hpos : 0 < x.value := by
    rw [hvalue]
    norm_num
  have hlarge : 2 ^ 64 ≤ |x.value| := by
    rw [abs_of_pos hpos, hvalue]
    norm_num
  have hrule := h x x.nearestInteger x.isNearestInteger_nearestInteger
  rw [factorial_of_large hlarge, if_neg hpos.not_gt] at hrule
  cases hrule with
  | tooLarge hnear _ =>
    have hfar : x.isNearInteger toleranceDigits = false := by decide +kernel
    exact absurd ((x.isNearInteger_iff toleranceDigits).2 hnear) (by rw [hfar]; decide)

end Abacus.NumberSystem.Decimal
