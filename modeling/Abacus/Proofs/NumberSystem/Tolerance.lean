/-
Abacus.Proofs.NumberSystem.Tolerance — integers, exactly and up to the tolerance.

The factorial and the power ask three things about a number: which integer is
nearest, whether the number is an integer, and whether it is within the tolerance
of one.  All three are decided exactly, whatever the mantissa, the sign and the
exponent (`nearestInteger_is_exact`).  The tolerance is less than a half, so only
the nearest integer can be within it (`IsNear.isNearestInteger`).
-/
import Abacus.Proofs.NumberSystem.Factorials

namespace Abacus.NumberSystem.Decimal

/-- An integer within the tolerance has no rival: every other one is further away. -/
theorem IsNear.isNearestInteger {v : ℚ} {n : ℤ} (h : IsNear v n) : IsNearestInteger v n := by
  have hhalf : |v - n| < 1 / 2 := lt_of_lt_of_le h (by norm_num [toleranceDigits])
  have hcloser {k : ℤ} (hk : k ≠ n) : |v - n| < |v - k| := by
    have hapart : (1 : ℚ) ≤ |(k : ℚ) - n| := by
      exact_mod_cast Int.one_le_abs (sub_ne_zero.2 hk)
    have htriangle : |(k : ℚ) - n| ≤ |v - k| + |v - n| := by
      rw [abs_sub_comm v k]
      exact abs_sub_le (k : ℚ) v n
    linarith
  constructor
  · intro k
    rcases eq_or_ne k n with rfl | hk
    · exact le_refl _
    · exact (hcloser hk).le
  · intro k hk
    rcases eq_or_ne k n with rfl | hne
    · exact le_refl _
    · exact absurd hk (hcloser hne).ne'

variable {f : Format}

/-- For every finite number of every format: the nearest integer is the closest one, a half
going away from zero; the number is found integral exactly when it is an integer, and then it
is the nearest one; and it is found near exactly when it is less than `10 ^ -40` from it. -/
theorem nearestInteger_is_exact (x : Finite f) :
    IsNearestInteger x.value x.nearestInteger ∧
      (x.isIntegral = true ↔ ∃ n : ℤ, x.value = n) ∧
      (x.isIntegral = true → x.value = x.nearestInteger) ∧
      (x.isNearInteger toleranceDigits = true ↔ |x.value - x.nearestInteger| < 1 / 10 ^ 40) := by
  refine ⟨x.isNearestInteger_nearestInteger, Finite.isIntegral_iff, ?_,
    x.isNearInteger_iff toleranceDigits⟩
  intro hintegral
  obtain ⟨n, hn⟩ := Finite.isIntegral_iff.1 hintegral
  rw [Finite.nearestInteger_of_value hn, hn]

end Abacus.NumberSystem.Decimal
