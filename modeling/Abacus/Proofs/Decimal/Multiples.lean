/-
Abacus.Proofs.Decimal.Multiples — rounding digits as rounding a magnitude.

The digits that are kept denote the multiple of their unit nearest to what all
digits denote, and rounding them again changes nothing (`digits_are_rounded`).
The one exception is a carry out of the first digit at the last point that fits
in a word, which has no result.
-/
import Abacus.Proofs.Decimal.Digits
import Abacus.Proofs.Floating.NearestInteger

namespace Abacus.Decimal

/-! ## Nearest multiples -/

/-- The multiple of a unit nearest to a number; of two that are as near, the larger. -/
structure IsNearestMultiple (unit v m : ℚ) : Prop where
  multiple : ∃ k : ℤ, m = k * unit
  closest : ∀ k : ℤ, |v - m| ≤ |v - k * unit|
  upward : ∀ k : ℤ, |v - k * unit| = |v - m| → k * unit ≤ m

namespace IsNearestMultiple

variable {unit v m n : ℚ}

theorem unique (hm : IsNearestMultiple unit v m) (hn : IsNearestMultiple unit v n) : m = n := by
  obtain ⟨j, hj⟩ := hm.multiple
  obtain ⟨k, hk⟩ := hn.multiple
  have hdist : |v - m| = |v - n| :=
    le_antisymm (by rw [hk]; exact hm.closest k) (by rw [hj]; exact hn.closest j)
  refine le_antisymm ?_ ?_
  · rw [hj] at hdist ⊢
    exact hn.upward j hdist
  · rw [hk] at hdist ⊢
    exact hm.upward k hdist.symm

end IsNearestMultiple

/-- The nearest magnitude of so many digits is a nearest multiple. -/
theorem isNearestMultiple_nearest (count : ℕ) {v : ℚ} (hv : 0 ≤ v) :
    IsNearestMultiple (10 ^ place count v) v (nearest count v) := by
  have hunit := ten_zpow_pos (place count v)
  rw [nearest]
  generalize (10 : ℚ) ^ place count v = unit at hunit ⊢
  have hround := isNearestInteger_round (div_nonneg hv hunit.le)
  have hscale (k : ℤ) : |v - k * unit| = |v / unit - k| * unit := by
    rw [← abs_of_pos hunit, ← abs_mul, abs_of_pos hunit, sub_mul, div_mul_cancel₀ _ hunit.ne']
  generalize Tie.up.round (v / unit) = n at hround
  rw [← Int.cast_natCast]
  refine ⟨⟨n, rfl⟩, fun k => ?_, fun k hk => ?_⟩
  · rw [hscale, hscale]
    exact mul_le_mul_of_nonneg_right (hround.closest k) hunit.le
  · rw [hscale, hscale] at hk
    have hle : k ≤ n := by
      have habs := hround.away k (mul_right_cancel₀ hunit.ne' hk)
      rw [Nat.abs_cast] at habs
      exact (le_abs_self k).trans habs
    exact mul_le_mul_of_nonneg_right (by exact_mod_cast hle) hunit.le

/-! ## Rounded digits -/

/-- The digits of a number rounded to `count` digits, as few as it needs: the number itself if it
has no more digits, otherwise the nearest multiple of the last place kept. -/
structure Rounds (digits : List Char) (point : ℤ) (count : ℕ) (kept : List Char) (moved : ℤ) :
    Prop where
  trimmed : Trimmed kept
  length_le : kept.length ≤ count
  same : digits.length ≤ count → positional kept moved = positional digits point
  nearest : count < digits.length →
    IsNearestMultiple (10 ^ (point - count)) (positional digits point) (positional kept moved)

/-- The digits round up to the power of ten above them. -/
def RoundsOver (digits : List Char) (point : ℤ) (count : ℕ) : Prop :=
  IsNearestMultiple (10 ^ (point - count)) (positional digits point) (10 ^ point)

/-- The digits have a rounding, and rounding it again changes nothing. -/
def HasRounding (digits : List Char) (point : ℤ) (count : ℕ) : Prop :=
  ∃ kept moved, roundDigits? digits point count = some (kept, moved) ∧
    Rounds digits point count kept moved ∧ roundDigits? kept moved count = some (kept, moved)

variable {digits : List Char} {count : ℕ}

theorem Leading.isNearestMultiple (h : Leading digits) (point : ℤ) (count : ℕ) :
    IsNearestMultiple (10 ^ (point - count)) (positional digits point)
      (Decimal.nearest count (positional digits point)) := by
  have hnearest := isNearestMultiple_nearest count (h.positional_pos point).le
  rwa [place, h.log_positional] at hnearest

theorem rounds_roundDigits (h : Leading digits) (point : ℤ) (hcount : 0 < count) :
    Rounds digits point count (roundDigits digits point count).1
      (roundDigits digits point count).2 := by
  obtain ⟨htrimmed, hlength, hvalue⟩ := roundDigits_spec h point hcount
  refine ⟨htrimmed, hlength, fun hshort => ?_, fun _ => ?_⟩
  · rw [roundDigits_of_length_le hshort]
    exact (h.trimmed point).2.2
  · rw [hvalue]
    exact h.isNearestMultiple point count

/-- The point moves by one place if the digits round up to the power of ten above them. -/
theorem roundDigits_point (h : Leading digits) (point : ℤ) (hcount : 0 < count) :
    (RoundsOver digits point count → (roundDigits digits point count).2 = point + 1) ∧
      (¬RoundsOver digits point count → (roundDigits digits point count).2 = point) := by
  obtain ⟨htrimmed, -, hvalue⟩ := roundDigits_spec h point hcount
  have hnearest := h.isNearestMultiple point count
  have hlow := ten_zpow_le_nearest hcount (h.positional_pos point)
  have hhigh := nearest_le_ten_zpow count (positional digits point)
  rw [h.log_positional] at hhigh
  rw [eq_sub_of_add_eq (h.log_positional point)] at hlow
  rw [← hvalue] at hnearest hlow hhigh
  -- what is kept lies between two powers of ten, and its point tells if it is the upper one
  rw [← htrimmed.log_positional (roundDigits digits point count).2]
  constructor
  · intro hover
    rw [hnearest.unique hover]
    exact log_ten_add_one_eq (by rw [add_sub_cancel_right])
      (zpow_lt_zpow_right₀ (by norm_num) (by omega))
  · intro hnot
    refine log_ten_add_one_eq hlow (lt_of_le_of_ne hhigh fun heq => hnot ?_)
    rwa [heq] at hnearest

/-- Digits without zeros at their ends stay as they are. -/
theorem roundDigits_of_trimmed (h : Trimmed digits) (hlength : digits.length ≤ count) (point : ℤ) :
    roundDigits digits point count = (digits, point) := by
  rw [roundDigits_of_length_le hlength, dropTrailingZeros_of_getLast? h.last]

/-- Digits are rounded to the nearest multiple of the last place kept, unless the point, moved by
a carry, leaves its word. -/
theorem digits_are_rounded (h : Leading digits) {point : ℤ} (hlow : -2 ^ 63 ≤ point)
    (hhigh : point < 2 ^ 63) (hcount : 0 < count) :
    (point = 2 ^ 63 - 1 ∧ RoundsOver digits point count →
        roundDigits? digits point count = none) ∧
      (¬(point = 2 ^ 63 - 1 ∧ RoundsOver digits point count) →
        HasRounding digits point count) := by
  obtain ⟨hover, hnot⟩ := roundDigits_point h point hcount
  have hrounds := rounds_roundDigits h point hcount
  constructor
  · rintro ⟨hlast, hpoint⟩
    refine Option.eq_none_iff_forall_ne_some.2 fun ⟨kept, moved⟩ hsome => ?_
    obtain ⟨hround, hword⟩ := roundDigits?_eq_some_iff.1 hsome
    have hmoved := hover hpoint
    rw [hround, hlast] at hmoved
    obtain rfl : moved = 2 ^ 63 := by omega
    exact absurd hword (by decide)
  · intro hfits
    have hword : Word.integer? (roundDigits digits point count).2 =
        some (roundDigits digits point count).2 := by
      refine Word.integer?_eq_some_iff.2 ⟨?_, rfl⟩
      unfold Word.modulus
      by_cases hpoint : RoundsOver digits point count
      · have hne : point ≠ 2 ^ 63 - 1 := fun hlast => hfits ⟨hlast, hpoint⟩
        rw [hover hpoint]
        omega
      · rw [hnot hpoint]
        omega
    exact ⟨_, _, roundDigits?_eq_some_iff.2 ⟨rfl, hword⟩, hrounds, roundDigits?_eq_some_iff.2
      ⟨roundDigits_of_trimmed hrounds.trimmed hrounds.length_le _, hword⟩⟩

/-- Nines carry into the last point that fits. -/
theorem digits_are_rounded_nines :
    Leading ['9', '9', '9', '6'] ∧ HasRounding ['9', '9', '9', '6'] (2 ^ 63 - 2) 3 ∧
      roundDigits? ['9', '9', '9', '6'] (2 ^ 63 - 2) 3 = some (['1'], 2 ^ 63 - 1) := by
  have hleading : Leading ['9', '9', '9', '6'] := ⟨⟨by simp, by simp⟩, by simp⟩
  have hfits : ¬((2 ^ 63 - 2 : ℤ) = 2 ^ 63 - 1 ∧
      RoundsOver ['9', '9', '9', '6'] (2 ^ 63 - 2) 3) := fun h => absurd h.1 (by norm_num)
  exact ⟨hleading, (digits_are_rounded hleading (by norm_num) (by norm_num) (by norm_num)).2 hfits,
    by decide +kernel⟩

/-- Nines at the last point that fits have no rounding. -/
theorem not_hasRounding_at_last_point :
    ¬∀ (digits : List Char) (point : ℤ) (count : ℕ), Leading digits → -2 ^ 63 ≤ point →
      point < 2 ^ 63 → 0 < count → HasRounding digits point count := by
  intro h
  have hleading : Leading ['9', '9'] := ⟨⟨by simp, by simp⟩, by simp⟩
  obtain ⟨kept, moved, hsome, -⟩ :=
    h ['9', '9'] (2 ^ 63 - 1) 1 hleading (by norm_num) (by norm_num) (by norm_num)
  have hnone : roundDigits? ['9', '9'] (2 ^ 63 - 1) 1 = none := by decide +kernel
  cases hnone.symm.trans hsome

end Abacus.Decimal
