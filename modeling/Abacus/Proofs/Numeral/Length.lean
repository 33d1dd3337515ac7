/-
Abacus.Proofs.Numeral.Length — seventeen digits are enough.

Two numbers of a format are never closer to each other than about one part in
`2 ^ precision`.  So a numeral that is closer than half of that to a number is
read as it (`Finite.readsBack_of_close`), and of the numerals with seventeen digits
one is that close to a double.  The search for the shortest numeral therefore
ends among them (`exists_shortestNumeral`), and a double has few digits with the
point not far from them (`exists_digits_shortestNumeral`).
-/
import Abacus.Proofs.Decimal.Digits
import Abacus.Proofs.Floating.Closest
import Abacus.Proofs.Numeral.Shortest

namespace Abacus

/-! ## Quotients -/

section Quotient

variable {num den : ℕ} (hden : 0 < den)
include hden

theorem abs_div_sub_le (h : 2 * (num % den) ≤ den) :
    |((num / den : ℕ) : ℚ) - num / den| ≤ 1 / 2 := by
  have hd : (0 : ℚ) < den := by exact_mod_cast hden
  have hhalf : (2 : ℚ) * (num % den : ℕ) ≤ den := by exact_mod_cast h
  rw [div_eq_div_add_mod hden, sub_add_cancel_left, abs_neg, abs_of_nonneg (by positivity),
    div_le_iff₀ hd]
  linarith

theorem abs_succ_div_sub_le (h : den ≤ 2 * (num % den)) :
    |((num / den + 1 : ℕ) : ℚ) - num / den| ≤ 1 / 2 := by
  have hd : (0 : ℚ) < den := by exact_mod_cast hden
  have hhalf : (den : ℚ) ≤ 2 * (num % den : ℕ) := by exact_mod_cast h
  have hlt : ((num % den : ℕ) : ℚ) ≤ den := by exact_mod_cast (Nat.mod_lt num hden).le
  rw [div_eq_div_add_mod hden, Nat.cast_add, Nat.cast_one, add_sub_add_left_eq_sub, abs_of_nonneg]
  · rw [sub_le_iff_le_add, ← sub_le_iff_le_add', le_div_iff₀ hd]
    linarith
  · rw [sub_nonneg, div_le_one hd]
    exact hlt

end Quotient

/-! ## The search -/

/-- A power with an integral exponent as a quotient of natural powers. -/
theorem ten_zpow_eq_div (k : ℤ) : (10 : ℚ) ^ k = 10 ^ k.toNat / 10 ^ (-k).toNat := by
  obtain ⟨n, rfl | rfl⟩ := k.eq_nat_or_neg <;> simp

namespace Finite

variable {f : Format}

theorem readsBack_of_close {x : Finite f} {bound : ℕ} (hbound : 2 ^ f.precision + 1 < bound)
    {n : Numeral} (hs : n.negative = x.negative)
    (h : |n.magnitude - x.magnitude| ≤ x.magnitude / bound / 2) : x.readsBack n = true := by
  have hread := f.ofNumeral_standsFor n
  rw [f.nearest_eq_of_close x hbound n.magnitude_nonneg h, hs] at hread
  rw [readsBack, decide_eq_true_eq]
  exact hread.unique ⟨rfl, rfl⟩

/-- The power of ten above a magnitude. -/
theorem decimalExponentAbove_bounds {x : Finite f} (hx : x.isZero = false) :
    (10 : ℚ) ^ (decimalExponentAbove x.magnitudeRatio.1 x.magnitudeRatio.2 - 1) ≤ x.magnitude ∧
      x.magnitude < 10 ^ decimalExponentAbove x.magnitudeRatio.1 x.magnitudeRatio.2 := by
  have hpos := magnitude_pos hx
  have hnum : 0 < x.magnitudeRatio.1 := by
    rw [Nat.pos_iff_ne_zero]
    intro hzero
    have hratio := x.magnitudeRatio_eq
    rw [hzero, Nat.cast_zero, zero_div] at hratio
    exact hpos.ne hratio
  rw [decimalExponentAbove_eq hnum x.magnitudeRatio_pos, magnitudeRatio_eq, add_sub_cancel_right]
  exact ⟨ten_zpow_log_le hpos, lt_ten_zpow_log _⟩

/-- The magnitude in units of a decimal place. -/
theorem scaledRatio_eq (x : Finite f) (places : ℤ) :
    ((x.magnitudeRatio.1 * 10 ^ places.toNat : ℕ) : ℚ) /
      (x.magnitudeRatio.2 * 10 ^ (-places).toNat : ℕ) = x.magnitude * 10 ^ places := by
  rw [← magnitudeRatio_eq, ten_zpow_eq_div, div_mul_div_comm]
  push_cast
  rfl

/-- With enough digits, what is at most half of a place away from a number is read as it. -/
theorem readsBack_of_half_place {x : Finite f} (hx : x.isZero = false) {count : ℕ}
    (hcount : 2 ^ f.precision + 1 < 10 ^ count) {places : ℤ} {n : ℕ}
    (hplaces : places =
      (count + 1 : ℕ) - decimalExponentAbove x.magnitudeRatio.1 x.magnitudeRatio.2)
    (h : |(n : ℚ) - x.magnitude * 10 ^ places| ≤ 1 / 2) :
    x.readsBack ⟨x.negative, n, -places⟩ = true := by
  have hlow := (decimalExponentAbove_bounds hx).1
  generalize decimalExponentAbove x.magnitudeRatio.1 x.magnitudeRatio.2 = point at hplaces hlow
  have hpos := ten_zpow_pos (-places)
  have hplace : (10 : ℚ) ^ (-places) ≤ x.magnitude / (10 ^ count : ℕ) := by
    rw [show -places = point - 1 - count by omega, zpow_sub₀ (by norm_num), zpow_natCast]
    push_cast
    exact div_le_div_of_nonneg_right hlow (by positivity)
  have hvalue : x.magnitude = x.magnitude * 10 ^ places * 10 ^ (-places) := by
    rw [mul_assoc, ← ten_zpow_add, add_neg_cancel, zpow_zero, mul_one]
  refine readsBack_of_close hcount rfl ?_
  calc
    |(n : ℚ) * 10 ^ (-places) - x.magnitude|
      = |(n : ℚ) - x.magnitude * 10 ^ places| * 10 ^ (-places) := by
        rw [← abs_of_pos hpos, ← abs_mul, abs_of_pos hpos, sub_mul, ← hvalue]
    _ ≤ 1 / 2 * 10 ^ (-places) := mul_le_mul_of_nonneg_right h hpos.le
    _ ≤ x.magnitude / (10 ^ count : ℕ) / 2 := by linarith

/-- One of the two numerals around a number is at most half of a place away. -/
theorem exists_numeralOfLength? {x : Finite f} (hx : x.isZero = false) {count : ℕ}
    (hcount : 2 ^ f.precision + 1 < 10 ^ count) :
    ∃ n, x.numeralOfLength? (decimalExponentAbove x.magnitudeRatio.1 x.magnitudeRatio.2)
      (count + 1) = some n := by
  have hclose {n : ℕ} := readsBack_of_half_place hx hcount (n := n) rfl
  unfold numeralOfLength?
  dsimp only
  set places : ℤ :=
    (count + 1 : ℕ) - decimalExponentAbove x.magnitudeRatio.1 x.magnitudeRatio.2
  set num := x.magnitudeRatio.1 * 10 ^ places.toNat with hnum
  set den := x.magnitudeRatio.2 * 10 ^ (-places).toNat with hden
  have hquot : (num : ℚ) / den = x.magnitude * 10 ^ places := x.scaledRatio_eq places
  have hpos : 0 < den := Nat.mul_pos x.magnitudeRatio_pos (Nat.pow_pos (by norm_num))
  rw [← hquot] at hclose
  by_cases h : 2 * (num % den) < den
  · have hbelow : x.readsBack ⟨x.negative, num / den, -places⟩ = true :=
      hclose (abs_div_sub_le hpos h.le)
    rw [if_pos (by simp [hbelow, h])]
    exact ⟨_, rfl⟩
  · have habove : x.readsBack ⟨x.negative, num / den + 1, -places⟩ = true :=
      hclose (abs_succ_div_sub_le hpos (not_lt.1 h))
    split_ifs
    · exact ⟨_, rfl⟩
    · exact ⟨_, rfl⟩

/-- With enough digits the search ends before its limit. -/
theorem exists_shortestNumeral {x : Finite f} (hx : x.isZero = false) {count : ℕ}
    (hcount : 2 ^ f.precision + 1 < 10 ^ count) :
    ∃ k ≤ count, x.numeralOfLength?
      (decimalExponentAbove x.magnitudeRatio.1 x.magnitudeRatio.2) (k + 1) =
        some (x.shortestNumeral (count + 1)) := by
  obtain ⟨m, hm⟩ := exists_numeralOfLength? hx hcount
  unfold shortestNumeral
  dsimp only
  rw [hx, if_neg Bool.false_ne_true]
  split
  · next n hn =>
    obtain ⟨k, hk, hkn⟩ := List.exists_of_findSome?_eq_some hn
    exact ⟨k, Nat.le_of_lt_succ (List.mem_range.1 hk), hkn⟩
  · next hnone =>
    have hlast := List.findSome?_eq_none_iff.1 hnone count (List.mem_range.2 (Nat.lt_succ_self _))
    cases hm.symm.trans hlast

theorem coefficient_shortestNumeral_pos {x : Finite f} (hx : x.isZero = false) (limit : ℕ) :
    0 < (x.shortestNumeral limit).coefficient := by
  rw [Nat.pos_iff_ne_zero]
  intro hzero
  have hread := f.ofNumeral_standsFor (x.shortestNumeral limit)
  rw [ofNumeral_shortestNumeral, Numeral.magnitude_of_coefficient_eq_zero hzero,
    Format.nearest_zero] at hread
  exact (magnitude_pos hx).ne' hread.2

/-- A numeral of the search has at most the digits it was searched for, or is the power of
ten above them. -/
theorem coefficient_le_of_numeralOfLength? {x : Finite f} (hx : x.isZero = false) {count : ℕ}
    {n : Numeral} (h : x.numeralOfLength?
      (decimalExponentAbove x.magnitudeRatio.1 x.magnitudeRatio.2) count = some n) :
    n.coefficient ≤ 10 ^ count := by
  have hhigh := (decimalExponentAbove_bounds hx).2
  have hcoefficient := (numeralOfLength?_eq_some h).2.2.2
  generalize decimalExponentAbove x.magnitudeRatio.1 x.magnitudeRatio.2 = point
    at hhigh hcoefficient
  refine hcoefficient.trans (Nat.succ_le_of_lt ?_)
  have hden : 0 < x.magnitudeRatio.2 * 10 ^ (point - count).toNat :=
    Nat.mul_pos x.magnitudeRatio_pos (Nat.pow_pos (by norm_num))
  have hquot := x.scaledRatio_eq (count - point)
  rw [neg_sub] at hquot
  rw [Nat.div_lt_iff_lt_mul hden, ← Nat.cast_lt (α := ℚ), Nat.cast_mul (10 ^ count),
    ← div_lt_iff₀ (by exact_mod_cast hden), hquot]
  calc
    x.magnitude * 10 ^ ((count : ℤ) - point) < 10 ^ point * 10 ^ ((count : ℤ) - point) :=
      mul_lt_mul_of_pos_right hhigh (ten_zpow_pos _)
    _ = (10 ^ count : ℕ) := by
      rw [← ten_zpow_add, add_sub_cancel, zpow_natCast]
      push_cast
      rfl

/-- No positive number is below the least one. -/
theorem two_zpow_minExponent_le {x : Finite f} (hx : x.isZero = false) :
    (2 : ℚ) ^ f.minExponent ≤ x.magnitude := by
  have hmantissa : (1 : ℚ) ≤ x.mantissa := by
    have hpos : x.mantissa ≠ 0 := by simpa [isZero] using hx
    exact_mod_cast Nat.pos_of_ne_zero hpos
  calc
    (2 : ℚ) ^ f.minExponent ≤ 2 ^ x.exponent := two_zpow_le x.canonical.2.1
    _ ≤ x.magnitude := le_mul_of_one_le_left (two_zpow_pos _).le hmantissa

/-! ## The digits of a double -/

section Double

variable {x : Finite Format.binary64} (hx : x.isZero = false)
include hx

/-- A double has at most some hundreds of digits in front of the point, or of zeros behind it. -/
theorem decimalExponentAbove_range :
    -358 ≤ decimalExponentAbove x.magnitudeRatio.1 x.magnitudeRatio.2 ∧
      decimalExponentAbove x.magnitudeRatio.1 x.magnitudeRatio.2 ≤ 342 := by
  obtain ⟨hlow, hhigh⟩ := decimalExponentAbove_bounds hx
  generalize decimalExponentAbove x.magnitudeRatio.1 x.magnitudeRatio.2 = point at hlow hhigh
  have hmin : (2 : ℚ) ^ (-1074 : ℤ) ≤ x.magnitude := two_zpow_minExponent_le hx
  have hmax : x.magnitude < 2 ^ (1024 : ℤ) := x.magnitude_lt
  constructor
  · by_contra hsmall
    refine absurd (hmin.trans_lt hhigh) (not_lt.2 ?_)
    exact (Format.ten_zpow_le point (by omega)).trans (two_zpow_le (by omega))
  · by_contra hlarge
    refine absurd (hlow.trans_lt hmax) (not_lt.2 ?_)
    exact (two_zpow_le (by omega)).trans (Format.eight_zpow_le (point - 1) (by omega))

/-- The shortest numeral of a double has at most seventeen digits, or is the power of ten above
them, and its point is not far from them. -/
theorem exists_digits_shortestNumeral :
    (x.shortestNumeral 17).coefficient ≤ 10 ^ 17 ∧
      ∃ digits point, Decimal.Trimmed digits ∧ digits.length ≤ 18 ∧ (point - 1).natAbs ≤ 400 ∧
        Decimal.positional digits point = (x.shortestNumeral 17).magnitude := by
  have hcount : 2 ^ Format.binary64.precision + 1 < 10 ^ 16 := by
    change 2 ^ 53 + 1 < 10 ^ 16
    norm_num
  obtain ⟨k, hk, hn⟩ := exists_shortestNumeral hx hcount
  obtain ⟨hmin, hmax⟩ := decimalExponentAbove_range hx
  have hexponent := (numeralOfLength?_eq_some hn).2.2.1
  have hle := (coefficient_le_of_numeralOfLength? hx hn).trans
    (Nat.pow_le_pow_right (by norm_num) (by omega : k + 1 ≤ 17))
  have hpos := coefficient_shortestNumeral_pos hx 17
  generalize x.shortestNumeral 17 = n at hexponent hle hpos
  have hlength : (digitChars n.coefficient).length ≤ 18 :=
    (length_digitChars_le_iff (by norm_num)).2 (hle.trans_lt (by norm_num))
  have hlength' := length_digitChars_pos n.coefficient
  obtain ⟨htrimmed, hshorter, hvalue⟩ :=
    (Decimal.leading_digitChars hpos).trimmed (n.exponent + (digitChars n.coefficient).length)
  refine ⟨hle, _, _, htrimmed, hshorter.trans hlength, by omega, hvalue.trans ?_⟩
  rw [Decimal.positional, digitsValue_digitChars, add_sub_cancel_right]
  rfl

end Double

end Finite

end Abacus
