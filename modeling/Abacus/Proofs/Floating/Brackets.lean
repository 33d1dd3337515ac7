/-
Abacus.Proofs.Floating.Brackets — how narrow the brackets of powers are.

Each squaring squares the ratio of the ends of a bracket, and each cut
multiplies it by a little more than one.  So the ratio of a bracket around
`base ^ n` is that of about `2 * n` cuts (`power_within`).
-/
import Abacus.Proofs.Floating.Powers

namespace Abacus

theorem ceilDiv_mul_lt (num : ℕ) {den : ℕ} (h : 0 < den) :
    ceilDiv num den * den < num + den := by
  have hle := Nat.div_mul_le_self (num + (den - 1)) den
  unfold ceilDiv
  omega

namespace Bracket

/-- The upper end is at most this many times the lower one. -/
def Within (b : Bracket) (ratio : ℚ) : Prop :=
  b.upper ≤ ratio * b.lower

/-- The ratio that a cut to so many bits may add. -/
def slack (bits : ℕ) : ℚ :=
  1 + 8 / 2 ^ bits

theorem one_le_slack (bits : ℕ) : 1 ≤ slack bits :=
  le_add_of_nonneg_right (by positivity)

variable {b : Bracket} {ratio : ℚ}

theorem Within.square (h : b.Within ratio) : b.square.Within (ratio ^ 2) := by
  have hsquare := pow_le_pow_left₀ (Nat.cast_nonneg _) h 2
  change ((b.upper * b.upper : ℕ) : ℚ) ≤ ratio ^ 2 * (b.lower * b.lower : ℕ)
  push_cast
  linarith [mul_pow ratio (b.lower : ℚ) 2, sq (b.upper : ℚ), sq (b.lower : ℚ)]

theorem Within.scale (h : b.Within ratio) (n : ℕ) : (b.scale n).Within ratio := by
  change ((n * b.upper : ℕ) : ℚ) ≤ ratio * (n * b.lower : ℕ)
  push_cast
  rw [mul_left_comm]
  exact mul_le_mul_of_nonneg_left h (Nat.cast_nonneg n)

/-- A cut to so many bits moves both ends by one unit at most, of which the bracket keeps
`2 ^ (bits - 1)`. -/
theorem Within.trim (h : b.Within ratio) (hone : 1 ≤ ratio) (htwo : ratio ≤ 2) {bits : ℕ}
    (hbits : 4 ≤ bits) : (b.trim bits).Within (ratio * slack bits) := by
  have hslack := one_le_slack bits
  rcases Nat.eq_zero_or_pos (b.upper.log2 + 1 - bits) with hnone | hsome
  · have htrim : b.trim bits = b := by
      simp [Bracket.trim, hnone, ceilDiv]
    rw [htrim]
    exact h.trans (mul_le_mul_of_nonneg_right (le_mul_of_one_le_right (by linarith) hslack)
      (Nat.cast_nonneg _))
  set extra := b.upper.log2 + 1 - bits with hextra
  have hupper : ((b.trim bits).upper : ℚ) * 2 ^ extra ≤ b.upper + 2 ^ extra := by
    have hlt : (b.trim bits).upper * 2 ^ extra < b.upper + 2 ^ extra :=
      ceilDiv_mul_lt b.upper (Nat.two_pow_pos extra)
    exact_mod_cast hlt.le
  have hlower : (b.lower : ℚ) ≤ ((b.trim bits).lower + 1) * 2 ^ extra := by
    have hlt := Nat.lt_div_mul_add (a := b.lower) (Nat.two_pow_pos extra)
    rw [← Nat.shiftRight_eq_div_pow] at hlt
    have hle : b.lower ≤ ((b.trim bits).lower + 1) * 2 ^ extra := by
      rw [Nat.add_one_mul]
      exact hlt.le
    exact_mod_cast hle
  have hkept : (2 : ℚ) ^ bits * 2 ^ extra ≤ 2 * b.upper := by
    have hne : b.upper ≠ 0 := by
      intro hzero
      rw [hzero, Nat.log2_zero] at hextra
      omega
    have hle : 2 ^ bits * 2 ^ extra ≤ 2 * b.upper := by
      rw [← pow_add, show bits + extra = b.upper.log2 + 1 by omega, pow_succ']
      exact Nat.mul_le_mul_left 2 (Nat.log2_self_le hne)
    exact_mod_cast hle
  change ((b.trim bits).upper : ℚ) ≤ ratio * slack bits * (b.trim bits).lower
  generalize ((b.trim bits).upper : ℚ) = u at hupper ⊢
  generalize ((b.trim bits).lower : ℚ) = l at hlower ⊢
  have hunit : (0 : ℚ) < 2 ^ extra := by positivity
  generalize (2 : ℚ) ^ extra = unit at hupper hlower hkept hunit
  have hsmall : (8 : ℚ) / 2 ^ bits ≤ 1 / 2 := by
    rw [div_le_div_iff₀ (by positivity) two_pos]
    have := pow_le_pow_right₀ (one_le_two (α := ℚ)) hbits
    linarith
  have hupper' : (b.upper : ℚ) ≤ ratio * b.lower := h
  have hfour : 4 * unit ≤ b.upper * (8 / 2 ^ bits) := by
    rw [mul_div_assoc', le_div_iff₀ (by positivity)]
    linarith
  rw [slack] at hslack ⊢
  generalize (8 : ℚ) / 2 ^ bits = η at hsmall hfour hslack ⊢
  refine le_of_mul_le_mul_right (hupper.trans ?_) hunit
  calc
    b.upper + unit ≤ b.upper * (1 + η) - 2 * (1 + 1 / 2) * unit := by linarith
    _ ≤ ratio * b.lower * (1 + η) - ratio * (1 + η) * unit := by gcongr
    _ = ratio * (1 + η) * (b.lower - unit) := by ring
    _ ≤ ratio * (1 + η) * (l * unit) := by gcongr; linarith
    _ = ratio * (1 + η) * l * unit := by ring

/-- The ends of a bracket around a power are as far apart as about `2 * n` cuts may make
them. -/
theorem power_within {bits : ℕ} (hbits : 4 ≤ bits) (base n : ℕ)
    (h : slack bits ^ (2 * n - 1) ≤ 2) : (power bits base n).Within (slack bits ^ (2 * n - 1)) := by
  induction n using Nat.strong_induction_on with
  | _ n ih =>
    have hslack := one_le_slack bits
    rcases Nat.eq_zero_or_pos n with rfl | hn
    · rw [power, if_pos rfl, Within]
      simp
    have hhalf := ih (n / 2) (by omega)
      ((pow_le_pow_right₀ hslack (by omega)).trans h)
    have hexponent : 2 * (2 * (n / 2) - 1) + 1 ≤ 2 * n - 1 := by omega
    have hsquare : ((power bits base (n / 2)).square).Within
        (slack bits ^ (2 * (2 * (n / 2) - 1))) := by
      rw [mul_comm 2 (2 * (n / 2) - 1), pow_mul]
      exact hhalf.square
    have hle : slack bits ^ (2 * (2 * (n / 2) - 1)) ≤ 2 :=
      (pow_le_pow_right₀ hslack (by omega)).trans h
    have hcut {b : Bracket} (hb : b.Within (slack bits ^ (2 * (2 * (n / 2) - 1)))) :
        (b.trim bits).Within (slack bits ^ (2 * n - 1)) := by
      have htrim := hb.trim (one_le_pow₀ hslack) hle hbits
      rw [← pow_succ] at htrim
      exact htrim.trans (mul_le_mul_of_nonneg_right (pow_le_pow_right₀ hslack hexponent)
        (Nat.cast_nonneg _))
    rw [power, if_neg hn.ne']
    dsimp only
    split_ifs
    · exact hcut (hsquare.scale base)
    · exact hcut hsquare

/-- A power of a number a little above one, as long as the exponent is small beside it. -/
theorem one_add_pow_le {η : ℚ} (hη : 0 ≤ η) {k : ℕ} (hk : 2 * k * η ≤ 1) :
    (1 + η) ^ k ≤ 1 + 2 * k * η := by
  induction k with
  | zero => simp
  | succ k ih =>
    push_cast at hk ⊢
    have hprev : 2 * k * η ≤ 1 := by nlinarith
    have hcross : 2 * k * η * η ≤ 1 * η := mul_le_mul_of_nonneg_right hprev hη
    calc
      (1 + η) ^ (k + 1) = (1 + η) ^ k * (1 + η) := pow_succ _ _
      _ ≤ (1 + 2 * k * η) * (1 + η) := by gcongr; exact ih hprev
      _ = 1 + 2 * k * η + η + 2 * k * η * η := by ring
      _ ≤ 1 + 2 * (k + 1) * η := by linarith

/-- Exponents up to this leave no more than one unit of what is kept to the lower ends of
brackets, where they have the guard bits of a power. -/
def largestExponent : ℕ := 2 ^ 120

/-- The lower end of a bracket with guard bits is hardly below the power. -/
theorem pow_le_lower (bits base : ℕ) {n : ℕ} (hn : n ≤ largestExponent) :
    (base : ℚ) ^ n ≤ (1 + 1 / 2 ^ bits) * ((power (bits + Truncated.powerGuard) base n).lower *
      2 ^ (power (bits + Truncated.powerGuard) base n).shift) := by
  have hfew : (2 * n - 1 : ℕ) ≤ (2 ^ 121 : ℚ) := by
    have hle : 2 * n - 1 ≤ 2 ^ 121 := by
      unfold largestExponent at hn
      omega
    exact_mod_cast hle
  have hη : 2 * (2 * n - 1 : ℕ) * ((8 : ℚ) / 2 ^ (bits + Truncated.powerGuard)) ≤ 1 / 2 ^ bits := by
    have hsplit : (8 : ℚ) / 2 ^ (bits + Truncated.powerGuard) = 1 / 2 ^ 125 * (1 / 2 ^ bits) := by
      rw [Truncated.powerGuard, pow_add]
      field_simp
      norm_num
    rw [hsplit, ← mul_assoc]
    refine mul_le_of_le_one_left (by positivity) ?_
    rw [mul_one_div, div_le_one (by positivity)]
    linarith
  have hone : (1 : ℚ) / 2 ^ bits ≤ 1 :=
    div_le_one_of_le₀ (one_le_pow₀ one_le_two) (by positivity)
  have hpow := one_add_pow_le (by positivity) (hη.trans hone)
  have hbits : 4 ≤ bits + Truncated.powerGuard := Nat.le_add_left_of_le (by decide)
  have hwithin := power_within hbits base n (hpow.trans (by linarith))
  have hupper := (encloses_power (bits + Truncated.powerGuard) base n).le_upper
  generalize power (bits + Truncated.powerGuard) base n = b at hwithin hupper ⊢
  calc
    (base : ℚ) ^ n ≤ b.upper * 2 ^ b.shift := by exact_mod_cast hupper
    _ ≤ (1 + 1 / 2 ^ bits) * b.lower * 2 ^ b.shift := by
      refine mul_le_mul_of_nonneg_right (hwithin.trans ?_) (by positivity)
      exact mul_le_mul_of_nonneg_right (hpow.trans (by linarith)) (Nat.cast_nonneg _)
    _ = (1 + 1 / 2 ^ bits) * (b.lower * 2 ^ b.shift) := mul_assoc _ _ _

end Bracket

end Abacus
