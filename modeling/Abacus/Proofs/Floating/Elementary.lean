/-
Abacus.Proofs.Floating.Elementary — signs and sizes of elementary functions.

However far an enclosure is refined, its rounding is that of the lower end of
one of the enclosures that were tried (`settle_eq`).  Two facts about lower
ends are enough for powers: that of a logarithm is small, so logarithms are
finite, and that of an exponential is not below zero, so powers of a positive
number are positive, zero or infinite, and always defined (`pow_hasSign`).
-/
import Abacus.Decimal.Basic
import Abacus.Proofs.Enclosure.Sizes
import Abacus.Proofs.Floating.Powers

namespace Abacus

/-! ## Signs -/

namespace Floating

variable {f : Format}

/-- A number or an infinity with this sign; NaN has neither. -/
inductive HasSign (negative : Bool) : Floating f → Prop where
  | infinite : HasSign negative (.infinite negative)
  | finite {x : Finite f} (h : x.negative = negative) : HasSign negative (.finite x)

variable {negative : Bool} {x y : Floating f}

theorem StandsFor.hasSign {v : ℚ} (h : x.StandsFor negative v) : x.HasSign negative := by
  match x, h with
  | .infinite s, h =>
    obtain rfl : s = negative := h.1
    exact .infinite
  | .finite x, h => exact .finite h.1

theorem HasSign.zeroUnlessInvertible (h : x.HasSign false) :
    x.zeroUnlessInvertible.HasSign false := by
  cases h with
  | infinite => exact .infinite
  | finite h =>
    rw [Floating.zeroUnlessInvertible]
    split_ifs
    · exact .finite rfl
    · exact .finite h

end Floating

namespace Format

variable (f : Format)

theorem round_hasSign (negative : Bool) (num : ℕ) {den : ℕ} (hden : 0 < den) (scale : ℤ) :
    (f.round negative num den scale).HasSign negative :=
  (f.round_standsFor negative num hden scale).hasSign

theorem roundProduct_hasSign (negative : Bool) (num : ℕ) {den : ℕ} (hden : 0 < den)
    (scale : ℤ) : (f.roundProduct negative num den scale).HasSign negative := by
  unfold roundProduct roundTwice
  dsimp only
  split
  · exact f.round_hasSign negative num hden scale
  · split
    · exact .finite rfl
    · exact f.round_hasSign negative _ one_pos _

end Format

theorem Floating.one_hasSign {f : Format} : (one : Floating f).HasSign false :=
  f.round_hasSign (decide ((1 : ℤ) < 0)) 1 one_pos 0

/-- A quotient has the sign of its operands, unless it is undefined. -/
theorem Finite.div_hasSign {f : Format} (x : Finite f) {y : Floating f} {negative : Bool}
    (hy : y.HasSign negative) (hzero : y.isZero = false) :
    ((Floating.finite x).div y).HasSign (x.negative != negative) := by
  cases hy with
  | infinite => exact .finite rfl
  | @finite y hy =>
    have hzero : y.isZero = false := hzero
    change (if y.isZero then _ else x.div y).HasSign _
    rw [hzero, if_neg Bool.false_ne_true, ← hy]
    exact f.roundProduct_hasSign _ _ (mantissa_pos hzero) _

/-! ## Settling on a number -/

namespace Format

variable (f : Format)

/-- A search ends with one of its attempts or with the final answer. -/
theorem refine_cases (attempt : ℕ → Option (Floating f)) (final : Unit → Floating f)
    (fuel bits : ℕ) :
    (∃ k < fuel, attempt (bits * 2 ^ k) = some (f.refine attempt final fuel bits)) ∨
      f.refine attempt final fuel bits = final () := by
  induction fuel generalizing bits with
  | zero => exact .inr rfl
  | succ fuel ih =>
    rw [refine]
    split
    · next x hx => exact .inl ⟨0, Nat.succ_pos fuel, by rwa [pow_zero, mul_one]⟩
    · refine (ih (2 * bits)).imp_left ?_
      rintro ⟨k, hk, hattempt⟩
      refine ⟨k + 1, Nat.succ_lt_succ hk, ?_⟩
      rwa [pow_succ, mul_comm (2 ^ k), ← mul_assoc, mul_comm bits]

/-- Where every enclosure exists, the result is the rounding of the lower end
of one of them. -/
theorem settle_eq (extra : ℕ) (enclose : ℕ → Enclosure) :
    ∃ w ≤ (f.precision + 64 + extra) * 2 ^ refinements,
      f.settle extra (fun w => some (enclose w)) =
        f.round ((enclose w).lower < 0) (enclose w).lower.natAbs 1 (enclose w).scale := by
  unfold settle
  dsimp only [Option.bind_some]
  set bits := f.precision + 64 + extra
  obtain ⟨k, hk, hattempt⟩ | hfinal := f.refine_cases
    (fun w => (enclose w).round? f)
    (fun _ => f.round ((enclose (bits * 2 ^ refinements)).lower < 0)
      (enclose (bits * 2 ^ refinements)).lower.natAbs 1 (enclose (bits * 2 ^ refinements)).scale)
    refinements bits
  · exact ⟨bits * 2 ^ k, Nat.mul_le_mul_left _ (Nat.pow_le_pow_right two_pos hk.le),
      (f.eq_of_common? hattempt).1.symm⟩
  · exact ⟨_, le_rfl, hfinal⟩

/-- Enclosures of numbers that are not negative settle on such a number. -/
theorem settle_hasSign (extra : ℕ) (enclose : ℕ → Enclosure) (h : ∀ w, 0 ≤ (enclose w).lower) :
    (f.settle extra (fun w => some (enclose w))).HasSign false := by
  obtain ⟨w, -, hsettle⟩ := f.settle_eq extra enclose
  rw [hsettle, ← decide_eq_false (h w).not_gt]
  exact f.round_hasSign _ _ one_pos _

end Format

/-! ## Powers of positive numbers -/

/-- An exponential is a square, and its enclosure says so. -/
theorem Interval.exp_lower_nonneg (w : ℕ) (x : Interval) : 0 ≤ (x.exp w).lower :=
  square_lower_nonneg w _

namespace Finite

theorem enclosePow_lower_nonneg {f : Format} (x y : Finite f) (w : ℕ) :
    0 ≤ (x.enclosePow w y).lower :=
  Interval.exp_lower_nonneg w _

variable {x : Finite Format.decimal}

/-- The exponents of the format have at most 32 bits. -/
theorem natAbs_exponent_le (x : Finite Format.decimal) : x.exponent.natAbs ≤ 2 ^ 32 := by
  have hmin : -2147483904 ≤ x.exponent := x.canonical.2.1
  have hmax : x.exponent + 256 ≤ 2147483647 := x.canonical.2.2.1
  omega

theorem log2_mantissa_le (x : Finite Format.decimal) : x.mantissa.log2 ≤ 255 := by
  rcases Nat.eq_zero_or_pos x.mantissa with h | h
  · rw [h]
    exact Nat.zero_le _
  · exact Nat.lt_succ_iff.1 ((Nat.log2_lt h.ne').2 x.canonical.1)

/-- Logarithms are far within the range. -/
theorem exists_log (x : Finite Format.decimal) : ∃ l, x.log = .finite l := by
  obtain ⟨w, hw, hlog⟩ := Format.decimal.settle_eq 0
    (fun w => .ofInterval w (Interval.log w x.mantissa x.exponent) 0)
  have hw : w ≤ 20480 := hw
  dsimp only [Enclosure.ofInterval] at hlog
  set l := Interval.log w x.mantissa x.exponent
  have hround := Format.decimal.round_standsFor (l.lower < 0) l.lower.natAbs one_pos (0 - w)
  have hsize : (l.lower.natAbs : ℚ) / (1 : ℕ) * 2 ^ ((0 : ℤ) - w) ≤
      ((1 : ℕ) : ℚ) * 2 ^ (50 : ℤ) := by
    have hlower : l.lower.natAbs ≤ 2 ^ 50 * 2 ^ w := by
      have hexp := x.natAbs_exponent_le
      have hmant := x.log2_mantissa_le
      calc
        l.lower.natAbs ≤ l.magnitude := le_max_left _ _
        _ ≤ 2 * ((w + 2) * 2 ^ w) * (x.exponent.natAbs + x.mantissa.log2 + 2) :=
          Interval.magnitude_log_le w x.mantissa x.exponent
        _ ≤ 2 * ((20480 + 2) * 2 ^ w) * (2 ^ 32 + 255 + 2) := by gcongr
        _ = 2 * (20480 + 2) * (2 ^ 32 + 255 + 2) * 2 ^ w := by ring
        _ ≤ 2 ^ 50 * 2 ^ w := Nat.mul_le_mul_right _ (by norm_num)
    have hcast : (l.lower.natAbs : ℚ) ≤ 2 ^ 50 * 2 ^ w := by exact_mod_cast hlower
    rw [Nat.cast_one, div_one, one_mul, zero_sub, zpow_neg, zpow_natCast, ← div_eq_mul_inv,
      div_le_iff₀ (by positivity)]
    exact_mod_cast hcast
  have hnearest := Format.decimal.nearest_mono (by positivity) hsize
  rw [Format.decimal.nearest_of_representable (Nat.one_le_two_pow) (by decide)] at hnearest
  obtain ⟨y, hy, -⟩ := hround.exists_finite (hnearest.trans_lt
    (by rw [Nat.cast_one, one_mul]; exact zpow_lt_zpow_right₀ one_lt_two (by decide)))
  exact ⟨y, hlog.trans hy⟩

/-- A power of a positive number is never negative, and never undefined. -/
theorem pow_hasSign (x y : Finite Format.decimal) : (x.pow y).HasSign false := by
  obtain ⟨l, hl⟩ := x.exists_log
  unfold pow
  rw [hl]
  dsimp only
  split_ifs
  · exact Floating.one_hasSign
  · exact .infinite
  · exact .finite rfl
  · exact (Format.decimal.settle_hasSign 0 (fun w => x.enclosePow w y)
      (x.enclosePow_lower_nonneg y)).zeroUnlessInvertible

end Finite

end Abacus
