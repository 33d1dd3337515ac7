/-
Abacus.Proofs.Enclosure.Sizes — how large the ends of an interval can get.

Rounding outwards adds no more than the last place, and a factor of magnitude
at most one makes no end larger.  So the sum of a series whose terms do not
grow is at most the first term for each step that was taken, and the
enclosure of a logarithm stays far below the range of every format in use
(`magnitude_log_le`).
-/
import Mathlib.Tactic.Ring
import Mathlib.Tactic.Linarith
import Mathlib.Tactic.Positivity
import Mathlib.Tactic.GCongr
import Abacus.Enclosure.Functions

namespace Abacus

/-! ## Rounded integers -/

/-- A quotient rounded down is no larger than its numerator. -/
theorem abs_fdiv_le {num den : ℤ} (hden : 0 < den) {bound : ℕ} (h : |num| ≤ bound * den) :
    |num.fdiv den| ≤ bound := by
  rw [abs_le] at h ⊢
  rw [Int.fdiv_eq_ediv_of_nonneg _ hden.le]
  constructor
  · exact Int.le_ediv_of_mul_le hden (by linarith)
  · exact Int.ediv_le_of_le_mul hden h.2

theorem abs_fceil_le {num den : ℤ} (hden : 0 < den) {bound : ℕ} (h : |num| ≤ bound * den) :
    |fceil num den| ≤ bound := by
  rw [fceil, abs_neg]
  exact abs_fdiv_le hden (by rwa [abs_neg])

theorem abs_shiftDown_le {m : ℤ} {w bound : ℕ} (h : |m| ≤ bound * 2 ^ w) :
    |shiftDown m (-w)| ≤ bound := by
  unfold shiftDown
  split_ifs with hw
  · obtain rfl : w = 0 := by omega
    simpa using h
  · rw [neg_neg, Int.toNat_natCast, Int.shiftRight_eq_div_pow,
      ← Int.fdiv_eq_ediv_of_nonneg _ (by positivity)]
    exact abs_fdiv_le (by positivity) (by exact_mod_cast h)

theorem abs_shiftUp_le {m : ℤ} {w bound : ℕ} (h : |m| ≤ bound * 2 ^ w) :
    |shiftUp m (-w)| ≤ bound := by
  rw [shiftUp, abs_neg]
  exact abs_shiftDown_le (by rwa [abs_neg])

namespace Interval

variable {x y : Interval} {w bound : ℕ}

/-! ## Operations -/

theorem magnitude_le_iff : x.magnitude ≤ bound ↔ |x.lower| ≤ bound ∧ |x.upper| ≤ bound := by
  rw [magnitude, max_le_iff, Int.abs_eq_natAbs, Int.abs_eq_natAbs]
  norm_cast

theorem abs_lower_le (x : Interval) : |x.lower| ≤ x.magnitude :=
  (magnitude_le_iff.1 le_rfl).1

theorem abs_upper_le (x : Interval) : |x.upper| ≤ x.magnitude :=
  (magnitude_le_iff.1 le_rfl).2

theorem magnitude_add_le (x y : Interval) : (x.add y).magnitude ≤ x.magnitude + y.magnitude := by
  rw [magnitude_le_iff]
  push_cast
  exact ⟨(abs_add_le _ _).trans (add_le_add x.abs_lower_le y.abs_lower_le),
    (abs_add_le _ _).trans (add_le_add x.abs_upper_le y.abs_upper_le)⟩

theorem magnitude_widen_le (x : Interval) (amount : ℕ) :
    (x.widen amount).magnitude ≤ x.magnitude + amount := by
  rw [magnitude_le_iff]
  push_cast
  have hamount : |(amount : ℤ)| = amount := abs_of_nonneg (Int.natCast_nonneg amount)
  constructor
  · exact ((abs_sub _ _).trans_eq (by rw [hamount])).trans (by linarith [x.abs_lower_le])
  · exact ((abs_add_le _ _).trans_eq (by rw [hamount])).trans (by linarith [x.abs_upper_le])

theorem magnitude_scale (n : ℤ) (x : Interval) :
    (x.scale n).magnitude = n.natAbs * x.magnitude := by
  unfold scale
  split_ifs
  · simp only [magnitude, Int.natAbs_mul, Nat.mul_max_mul_left]
  · simp only [magnitude, Int.natAbs_mul, Nat.mul_max_mul_left, max_comm]

theorem magnitude_divNat_le (x : Interval) {n : ℕ} (hn : 0 < n) :
    (x.divNat n).magnitude ≤ x.magnitude := by
  have hgrow : (x.magnitude : ℤ) ≤ x.magnitude * n :=
    le_mul_of_one_le_right (Int.natCast_nonneg _) (by exact_mod_cast hn)
  exact magnitude_le_iff.2
    ⟨abs_fdiv_le (by exact_mod_cast hn) (x.abs_lower_le.trans hgrow),
      abs_fceil_le (by exact_mod_cast hn) (x.abs_upper_le.trans hgrow)⟩

theorem magnitude_ofRatio_le {num den : ℤ} (hden : 0 < den) (h : |num| ≤ den) (w : ℕ) :
    (ofRatio w num den).magnitude ≤ 2 ^ w := by
  have hnum : |num * 2 ^ w| ≤ ((2 ^ w : ℕ) : ℤ) * den := by
    rw [abs_mul, abs_of_pos (by positivity : (0 : ℤ) < 2 ^ w), mul_comm]
    push_cast
    gcongr
  exact magnitude_le_iff.2 ⟨abs_fdiv_le hden hnum, abs_fceil_le hden hnum⟩

/-- A factor between minus one and one makes nothing larger. -/
theorem magnitude_mul_le (x : Interval) (hy : y.magnitude ≤ 2 ^ w) :
    (x.mul w y).magnitude ≤ x.magnitude := by
  have hend {a b : ℤ} (ha : |a| ≤ x.magnitude) (hb : |b| ≤ y.magnitude) :
      |a * b| ≤ (x.magnitude : ℤ) * 2 ^ w := by
    rw [abs_mul]
    exact mul_le_mul ha (hb.trans (by exact_mod_cast hy)) (abs_nonneg b) (Int.natCast_nonneg _)
  have ha := hend x.abs_lower_le y.abs_lower_le
  have hb := hend x.abs_lower_le y.abs_upper_le
  have hc := hend x.abs_upper_le y.abs_lower_le
  have hd := hend x.abs_upper_le y.abs_upper_le
  rw [abs_le] at ha hb hc hd
  refine magnitude_le_iff.2 ⟨abs_shiftDown_le (abs_le.2 ?_), abs_shiftUp_le (abs_le.2 ?_)⟩
  · exact ⟨le_min (le_min ha.1 hb.1) (le_min hc.1 hd.1),
      (min_le_left _ _).trans ((min_le_left _ _).trans ha.2)⟩
  · exact ⟨ha.1.trans ((le_max_left _ _).trans (le_max_left _ _)),
      max_le (max_le ha.2 hb.2) (max_le hc.2 hd.2)⟩

/-- No square is below zero, also where rounding outwards would say so. -/
theorem square_lower_nonneg (w : ℕ) (x : Interval) : 0 ≤ (x.square w).lower :=
  le_max_left _ _

/-! ## Series -/

/-- Powers that stay below a bound add that bound at every step, and twice
more where the series is cut off. -/
theorem magnitude_sumOddParts_le {next : Interval → Interval}
    (hnext : ∀ power, power.magnitude ≤ bound → (next power).magnitude ≤ bound)
    {power : Interval} (hpower : power.magnitude ≤ bound) (fuel k : ℕ) (sum : Interval) :
    (sumOddParts next fuel k power sum).magnitude ≤ sum.magnitude + (fuel + 2) * bound := by
  have hcut (power sum : Interval) (h : power.magnitude ≤ bound) :
      (sum.widen (2 * power.magnitude)).magnitude ≤ sum.magnitude + 2 * bound :=
    (magnitude_widen_le _ _).trans (by omega)
  induction fuel generalizing k power sum with
  | zero =>
    rw [sumOddParts, zero_add]
    exact hcut power sum hpower
  | succ fuel ih =>
    have hsplit : (fuel + 1 + 2) * bound = bound + (fuel + 2) * bound := by ring
    have htwo : 2 * bound ≤ (fuel + 2) * bound := Nat.mul_le_mul_right _ (by omega)
    rw [sumOddParts, hsplit]
    split_ifs
    · exact (hcut power sum hpower).trans (by omega)
    · calc
        _ ≤ (sum.add (power.divNat (2 * k + 1))).magnitude + (fuel + 2) * bound :=
          ih (hnext power hpower) (k + 1) _
        _ ≤ sum.magnitude + bound + (fuel + 2) * bound :=
          Nat.add_le_add_right ((magnitude_add_le _ _).trans (Nat.add_le_add_left
            ((magnitude_divNat_le power (by omega)).trans hpower) _)) _
        _ = sum.magnitude + (bound + (fuel + 2) * bound) := by ring

theorem magnitude_ofInt_zero (w : ℕ) : (ofInt w 0).magnitude = 0 := by
  simp [ofInt, magnitude]

theorem magnitude_atanhSmall_le (hx : x.magnitude ≤ 2 ^ w) :
    (atanhSmall w x).magnitude ≤ (w + 2) * 2 ^ w := by
  have hsquare : (x.mul w x).magnitude ≤ 2 ^ w := (magnitude_mul_le x hx).trans hx
  have := magnitude_sumOddParts_le
    (fun power hpower => (magnitude_mul_le power hsquare).trans hpower) hx w 0 (ofInt w 0)
  rwa [magnitude_ofInt_zero, zero_add] at this

theorem magnitude_logTwo_le (w : ℕ) : (logTwo w).magnitude ≤ 2 * ((w + 2) * 2 ^ w) := by
  have hfirst : (ofRatio w 1 3).magnitude ≤ 2 ^ w :=
    magnitude_ofRatio_le (by norm_num) (by norm_num) w
  have hsum : (atanhInverse w 3).magnitude ≤ (ofInt w 0).magnitude + (w + 2) * 2 ^ w :=
    magnitude_sumOddParts_le
      (fun power hpower => (magnitude_divNat_le power (by norm_num)).trans hpower) hfirst w 0 _
  rw [magnitude_ofInt_zero, zero_add] at hsum
  rw [logTwo, magnitude_scale]
  exact Nat.mul_le_mul_left 2 hsum

/-- A logarithm is at most about the number of bits before or after the
point. -/
theorem magnitude_log_le (w m : ℕ) (exponent : ℤ) :
    (log w m exponent).magnitude ≤
      2 * ((w + 2) * 2 ^ w) * (exponent.natAbs + m.log2 + 2) := by
  unfold log
  dsimp only
  set bits := if 2 * m * m < 2 ^ (2 * (m.log2 + 1)) then m.log2 + 1 - 1 else m.log2 + 1 with hbits
  have hle : bits ≤ m.log2 + 1 := by rw [hbits]; split_ifs <;> omega
  have hunit : (0 : ℤ) < 2 ^ bits := by positivity
  have hratio : (ofRatio w (m - 2 ^ bits) (m + 2 ^ bits)).magnitude ≤ 2 ^ w :=
    magnitude_ofRatio_le (by omega) (abs_le.2 ⟨by omega, by omega⟩) w
  have hseries : ((atanhSmall w (ofRatio w (m - 2 ^ bits) (m + 2 ^ bits))).scale 2).magnitude ≤
      2 * ((w + 2) * 2 ^ w) := by
    rw [magnitude_scale]
    exact Nat.mul_le_mul_left 2 (magnitude_atanhSmall_le hratio)
  have hpower : ((logTwo w).scale (exponent + bits)).magnitude ≤
      2 * ((w + 2) * 2 ^ w) * (exponent.natAbs + m.log2 + 1) := by
    rw [magnitude_scale, mul_comm]
    exact Nat.mul_le_mul (magnitude_logTwo_le w) (by omega)
  calc
    _ ≤ _ := magnitude_add_le _ _
    _ ≤ 2 * ((w + 2) * 2 ^ w) + 2 * ((w + 2) * 2 ^ w) * (exponent.natAbs + m.log2 + 1) :=
      add_le_add (by exact_mod_cast hseries) hpower
    _ = _ := by ring

end Interval

end Abacus
