/-
Abacus.Proofs.Floating.NearestInteger — the integer nearest to a number.

`IsNearestInteger` says what it is: no integer is closer, and of two that are
as close it is the one further from zero.  `Finite.nearestInteger` is this
integer (`isNearestInteger_nearestInteger`), and `Finite.isNearInteger` tells
exactly whether it is closer than a power of ten (`isNearInteger_iff`).
-/
import Abacus.Proofs.Floating.WholeNumbers

namespace Abacus

/-- No integer is closer to the number, and one that is as close is not further from
zero. -/
structure IsNearestInteger (v : ℚ) (n : ℤ) : Prop where
  closest : ∀ k : ℤ, |v - n| ≤ |v - k|
  away : ∀ k : ℤ, |v - k| = |v - n| → |k| ≤ |n|

namespace IsNearestInteger

variable {v : ℚ} {m n : ℤ}

theorem abs_sub_le (h : IsNearestInteger v n) : |v - n| ≤ 1 / 2 :=
  (h.closest (round v)).trans (abs_sub_round v)

theorem neg (h : IsNearestInteger v n) : IsNearestInteger (-v) (-n) := by
  have hflip (k : ℤ) : |-v - k| = |v - (-k : ℤ)| := by
    rw [← abs_neg]
    congr 1
    push_cast
    ring
  constructor
  · intro k
    rw [hflip, hflip, neg_neg]
    exact h.closest (-k)
  · intro k hk
    rw [hflip, hflip, neg_neg] at hk
    have hle := h.away (-k) hk
    rwa [abs_neg] at hle ⊢

theorem unique (hm : IsNearestInteger v m) (hn : IsNearestInteger v n) : m = n := by
  have hdist : |v - m| = |v - n| := le_antisymm (hm.closest n) (hn.closest m)
  have habs : |m| = |n| := le_antisymm (hn.away m hdist) (hm.away n hdist.symm)
  rcases abs_eq_abs.1 habs with heq | hflip
  · exact heq
  · -- opposite integers are as close to zero alone, which is closer to itself
    rw [hflip, Int.cast_neg, sub_neg_eq_add] at hdist
    have hzero : n = 0 := by
      rcases abs_eq_abs.1 hdist with h | h
      · have : (n : ℚ) = 0 := by linarith
        exact_mod_cast this
      · have hv : v = 0 := by linarith
        have hle := hn.closest 0
        rw [hv, Int.cast_zero, sub_zero, zero_sub, abs_neg, abs_zero] at hle
        exact_mod_cast abs_eq_zero.1 (le_antisymm hle (abs_nonneg _))
    rw [hflip, hzero, neg_zero]

end IsNearestInteger

theorem isNearestInteger_round {v : ℚ} (hv : 0 ≤ v) :
    IsNearestInteger v (Tie.up.round v : ℕ) := by
  have hround := Tie.up.abs_round_sub_le hv
  rw [abs_sub_comm] at hround
  have hnonneg {k : ℤ} (hk : |v - k| ≤ 1 / 2) : 0 ≤ k := by
    have hle := (abs_le.1 hk).2
    have hlt : ((-1 : ℤ) : ℚ) < k := by
      push_cast
      linarith
    have : -1 < k := by exact_mod_cast hlt
    omega
  constructor
  · intro k
    rw [Int.cast_natCast]
    by_contra hcloser
    rw [not_le] at hcloser
    have hhalf := hcloser.trans_le hround
    obtain ⟨k, rfl⟩ := Int.eq_ofNat_of_zero_le (hnonneg hhalf.le)
    rw [Int.cast_natCast] at hcloser hhalf
    rw [Tie.up.round_eq_of_abs_sub_lt hv (by rwa [abs_sub_comm])] at hcloser
    exact lt_irrefl _ hcloser
  · intro k hk
    rw [Int.cast_natCast] at hk
    have hhalf := hk.trans_le hround
    obtain ⟨k, rfl⟩ := Int.eq_ofNat_of_zero_le (hnonneg hhalf)
    rw [Nat.abs_cast, Nat.abs_cast, Int.ofNat_le, Tie.round_up_eq_floor hv]
    refine Nat.le_floor ?_
    rw [Int.cast_natCast] at hhalf
    linarith [(abs_le.1 hhalf).1]

namespace Finite

variable {f : Format}

theorem isNearestInteger_nearestInteger (x : Finite f) :
    IsNearestInteger x.value x.nearestInteger := by
  have hround := isNearestInteger_round x.magnitude_nonneg
  rw [← nearestMagnitude_eq] at hround
  rw [value_eq]
  unfold nearestInteger withSign
  split_ifs
  · exact hround.neg
  · exact hround

theorem abs_value_sub_nearestInteger (x : Finite f) :
    |x.value - x.nearestInteger| = |x.magnitude - x.nearestMagnitude| := by
  rw [value_eq]
  unfold nearestInteger withSign
  split_ifs
  · rw [Int.cast_neg, Int.cast_natCast, neg_sub_neg, abs_sub_comm]
  · rw [Int.cast_natCast]

/-- Being near an integer is decided exactly. -/
theorem isNearInteger_iff (x : Finite f) (digits : ℕ) :
    x.isNearInteger digits = true ↔ |x.value - x.nearestInteger| < 1 / 10 ^ digits := by
  rw [abs_value_sub_nearestInteger]
  unfold isNearInteger
  split_ifs with hwhole hsmall
  · refine iff_of_true rfl ?_
    rw [nearestMagnitude_eq, magnitude_of_nonneg hwhole, Tie.round_natCast, sub_self, abs_zero]
    positivity
  · refine iff_of_true rfl ?_
    have hzero : x.nearestMagnitude = 0 := by
      rw [nearestMagnitude, if_neg hwhole, if_pos (by omega)]
    rw [hzero, Nat.cast_zero, sub_zero, abs_of_nonneg x.magnitude_nonneg]
    calc
      x.magnitude < 2 ^ (-(4 * digits : ℕ) : ℤ) :=
        magnitude_lt_two_zpow (by push_cast; exact hsmall.le)
      _ = 1 / 16 ^ digits := by
        rw [zpow_neg, zpow_natCast, pow_mul, one_div]
        norm_num
      _ ≤ 1 / 10 ^ digits := by gcongr; norm_num
  · have hexp : x.exponent < 0 := not_le.1 hwhole
    have hunit : (0 : ℚ) < (2 ^ (-x.exponent).toNat : ℕ) := by positivity
    have hten : (0 : ℚ) < 10 ^ digits := by positivity
    rw [magnitude_of_neg hexp]
    dsimp only
    have hcast : (2 : ℤ) ^ (-x.exponent).toNat = (2 ^ (-x.exponent).toNat : ℕ) :=
      (Nat.cast_pow 2 _).symm
    rw [decide_eq_true_eq, hcast]
    generalize 2 ^ (-x.exponent).toNat = unit at hunit ⊢
    generalize x.nearestMagnitude = n
    have hdist : |(x.mantissa : ℚ) / unit - n| = ((n * unit : ℤ) - x.mantissa).natAbs / unit := by
      rw [Nat.cast_natAbs, Int.cast_abs, ← abs_of_pos hunit, ← abs_div, abs_of_pos hunit]
      push_cast
      rw [sub_div, mul_div_cancel_right₀ _ hunit.ne', abs_sub_comm]
    rw [hdist, div_lt_div_iff₀ hunit hten, one_mul]
    exact_mod_cast Iff.rfl

end Finite

end Abacus
