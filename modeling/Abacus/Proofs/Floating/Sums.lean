/-
Abacus.Proofs.Floating.Sums — how close sums are.

Terms of which one is far below the other are not added exactly before they are
rounded: only the sign of the smaller one is kept, in three bits below the
larger one.  Such terms do not cancel each other, so a sum is always rounded
from a number that is closer to it than the precision
(`sumBeforeRounding_close`), and it is zero only where the terms are opposites.
-/
import Abacus.Proofs.Floating.Scaling

namespace Abacus

/-- What is closer to a number than half of it has its sign. -/
theorem neg_iff_of_close {s t : ℚ} (hs : s ≠ 0) (h : |t - s| ≤ |s| / 2) :
    t ≠ 0 ∧ (t < 0 ↔ s < 0) := by
  have hpos : 0 < |s| := abs_pos.2 hs
  obtain ⟨hbelow, habove⟩ := abs_le.1 h
  rcases abs_cases s with ⟨habs, hsign⟩ | ⟨habs, hsign⟩
  · have ht : 0 < t := by linarith
    exact ⟨ht.ne', iff_of_false ht.not_gt hsign.not_gt⟩
  · have ht : t < 0 := by linarith
    exact ⟨ht.ne, iff_of_true ht hsign⟩

namespace Finite

variable {f : Format}

/-- A number that is no subnormal one fills its bits. -/
theorem two_zpow_le_magnitude {x : Finite f} (h : f.minExponent < x.exponent) :
    (2 : ℚ) ^ (x.exponent + f.precision - 1) ≤ x.magnitude := by
  have hfull : 2 ^ (f.precision - 1) ≤ x.mantissa := x.canonical.2.2.2.resolve_right h.ne'
  have hpos := two_zpow_pos x.exponent
  rw [show x.exponent + f.precision - 1 = ((f.precision - 1 : ℕ) : ℤ) + x.exponent by
    rw [f.precision_sub_one]; ring, two_zpow_add, zpow_natCast, magnitude]
  exact mul_le_mul_of_nonneg_right (by exact_mod_cast hfull) hpos.le

/-- One unit with the sign of a smaller number is off by the unit at most. -/
theorem abs_sign_mul_sub_le {y : Finite f} {unit : ℚ} (h : y.magnitude ≤ unit) :
    |(y.signedMantissa.sign : ℚ) * unit - y.value| ≤ unit := by
  have hnonneg := y.magnitude_nonneg
  have hvalue : y.value = (y.signedMantissa.sign : ℚ) * y.magnitude := by
    have hsign : (y.signedMantissa.sign : ℚ) * |(y.signedMantissa : ℚ)| = y.signedMantissa := by
      exact_mod_cast Int.sign_mul_abs y.signedMantissa
    rw [← abs_value, value, abs_mul, abs_of_pos (two_zpow_pos _), ← mul_assoc, hsign]
  have hsmall : |(y.signedMantissa.sign : ℚ)| ≤ 1 := by
    rcases Int.sign_trichotomy y.signedMantissa with hs | hs | hs <;> simp [hs]
  rw [hvalue, ← mul_sub, abs_mul, abs_of_nonneg (sub_nonneg.2 h)]
  calc
    |(y.signedMantissa.sign : ℚ)| * (unit - y.magnitude) ≤ 1 * (unit - y.magnitude) :=
      mul_le_mul_of_nonneg_right hsmall (sub_nonneg.2 h)
    _ ≤ unit := by linarith

/-- A term far below the other one is replaced by one unit with its sign. -/
theorem sumOntoSmaller_sub {x y : Finite f} (h : f.precision + 3 < x.exponent - y.exponent) :
    ((x.sumOntoSmaller y).1 : ℚ) * 2 ^ (x.sumOntoSmaller y).2 - (x.value + y.value) =
      y.signedMantissa.sign * 2 ^ (x.exponent - 3) - y.value := by
  have hparts : x.sumOntoSmaller y =
      (8 * x.signedMantissa + y.signedMantissa.sign, x.exponent - 3) := by
    unfold sumOntoSmaller
    dsimp only
    rw [if_neg (by omega)]
  have hx : x.value = 8 * x.signedMantissa * 2 ^ (x.exponent - 3) := by
    rw [value, show x.exponent = x.exponent - 3 + 3 by ring, two_zpow_add (x.exponent - 3) 3]
    norm_num
    ring
  rw [hparts, hx]
  push_cast
  ring

theorem sumOntoSmaller_close {x y : Finite f} (h : y.exponent ≤ x.exponent) :
    |((x.sumOntoSmaller y).1 : ℚ) * 2 ^ (x.sumOntoSmaller y).2 - (x.value + y.value)| ≤
      |x.value + y.value| / 2 ^ (f.precision + 1) := by
  by_cases hgap : x.exponent - y.exponent ≤ f.precision + 3
  · rw [sumOntoSmaller_value h (.inl hgap), sub_self, abs_zero]
    positivity
  · have hbelow : y.magnitude ≤ 2 ^ (x.exponent - 3) :=
      y.magnitude_lt_of_exponent.le.trans (two_zpow_le (by omega))
    have hnormal : f.minExponent < x.exponent := by
      have := y.canonical.2.1
      omega
    have hunit : (2 : ℚ) ^ (x.exponent - 3) ≤ x.magnitude / 2 ^ (f.precision + 2) := by
      rw [le_div_iff₀ (by positivity), ← zpow_natCast, ← two_zpow_add]
      refine le_trans (two_zpow_le ?_) (two_zpow_le_magnitude hnormal)
      push_cast
      omega
    -- the smaller term takes less than half of the larger one away
    have hhalf : x.magnitude / 2 ≤ |x.value + y.value| := by
      have hfew : x.magnitude / 2 ^ (f.precision + 2) ≤ x.magnitude / 2 :=
        div_le_div_of_nonneg_left x.magnitude_nonneg two_pos
          (le_self_pow₀ one_le_two (Nat.succ_ne_zero _))
      have hrest := abs_sub_abs_le_abs_add x.value y.value
      rw [abs_value, abs_value] at hrest
      linarith
    rw [sumOntoSmaller_sub (not_le.1 hgap)]
    calc
      |(y.signedMantissa.sign : ℚ) * 2 ^ (x.exponent - 3) - y.value| ≤ 2 ^ (x.exponent - 3) :=
        abs_sign_mul_sub_le hbelow
      _ ≤ x.magnitude / 2 ^ (f.precision + 2) := hunit
      _ = x.magnitude / 2 / 2 ^ (f.precision + 1) := by rw [div_div, ← pow_succ']
      _ ≤ |x.value + y.value| / 2 ^ (f.precision + 1) :=
        div_le_div_of_nonneg_right hhalf (by positivity)

/-- A sum is rounded from a number that is closer to it than the precision. -/
theorem sumBeforeRounding_close (x y : Finite f) :
    |x.sumBeforeRounding y - (x.value + y.value)| ≤
      |x.value + y.value| / 2 ^ (f.precision + 1) := by
  unfold sumBeforeRounding sumParts
  split_ifs with h
  · exact sumOntoSmaller_close h
  · rw [add_comm x.value]
    exact sumOntoSmaller_close (not_le.1 h).le

/-- Opposites have the sum zero. -/
theorem add_of_value_add_eq_zero {x y : Finite f} (h : x.value + y.value = 0) :
    ∃ z : Finite f, x.add y = .finite z ∧ z.isZero = true := by
  have hsum := x.sumBeforeRounding_close y
  rw [h, sub_zero, abs_zero, zero_div, abs_nonpos_iff] at hsum
  obtain ⟨negative, -, hround⟩ := x.add_standsFor y
  rw [hsum, abs_zero, f.nearest_zero] at hround
  obtain ⟨z, hz, -, hmagnitude⟩ := hround.exists_finite (two_zpow_pos _)
  exact ⟨z, hz, magnitude_eq_zero_iff.1 hmagnitude⟩

/-- Well within the range a sum is a number hardly further away than the precision, with its
sign. -/
theorem add_of_inRange {x y : Finite f}
    (hlow : 2 ^ (f.minExponent + f.precision) ≤ |x.value + y.value|)
    (hhigh : 2 * |x.value + y.value| < 2 ^ f.maxExponent) :
    ∃ z : Finite f, x.add y = .finite z ∧ z.negative = decide (x.value + y.value < 0) ∧
      |z.magnitude - (|x.value + y.value|)| ≤ |x.value + y.value| * (2 / 2 ^ f.precision) := by
  have hclose := x.sumBeforeRounding_close y
  set s := x.value + y.value
  have hpos : 0 < |s| := (two_zpow_pos _).trans_le hlow
  have hhalf : |s| / 2 ^ (f.precision + 1) ≤ |s| / 2 :=
    div_le_div_of_nonneg_left hpos.le two_pos (le_self_pow₀ one_le_two (Nat.succ_ne_zero _))
  have hsign := neg_iff_of_close (abs_pos.1 hpos) (hclose.trans hhalf)
  obtain ⟨negative, hnegative, hround⟩ := x.add_standsFor y
  have hnear := f.abs_nearest_sub_le_of_close hlow ((abs_abs_sub_abs_le _ _).trans hclose)
  have hone : (2 : ℚ) / 2 ^ f.precision ≤ 1 := by
    rw [div_le_one (by positivity)]
    exact le_self_pow₀ one_le_two f.precision_pos.ne'
  have hsmall := (abs_le.1 (hnear.trans (mul_le_of_le_one_right hpos.le hone))).2
  obtain ⟨z, hz, hzsign, hzmagnitude⟩ := hround.exists_finite (by linarith)
  refine ⟨z, hz, ?_, by rwa [hzmagnitude]⟩
  rw [hzsign, hnegative hsign.1]
  exact decide_eq_decide.2 hsign.2

end Finite

end Abacus
