/-
Abacus.Proofs.Floating.Powers — powers and numerals are correctly rounded.

A bracket of `Bracket.power` always holds the power (`encloses_power`).  When
both of its ends round to one number, so does the power between them; hence
the search through narrower and narrower brackets gives what rounding the
power itself would give (`roundTimesPower_eq`, `roundOverPower_eq`), and every
numeral is read as the number nearest to it (`ofNumeral_standsFor`).
-/
import Abacus.Floating.Scaling
import Abacus.Proofs.Floating.Nearest

namespace Abacus

/-! ## Brackets -/

/-- The number lies between the ends. -/
structure Bracket.Encloses (b : Bracket) (n : ℕ) : Prop where
  lower_le : b.lower * 2 ^ b.shift ≤ n
  le_upper : n ≤ b.upper * 2 ^ b.shift

theorem le_ceilDiv_mul (num : ℕ) {den : ℕ} (h : 0 < den) : num ≤ ceilDiv num den * den := by
  have hsplit := Nat.div_add_mod (num + (den - 1)) den
  have hlt := Nat.mod_lt (num + (den - 1)) h
  unfold ceilDiv
  rw [mul_comm]
  omega

namespace Bracket.Encloses

variable {b : Bracket} {n : ℕ}

theorem trim (h : b.Encloses n) (bits : ℕ) : (b.trim bits).Encloses n := by
  set extra := b.upper.log2 + 1 - bits with hextra
  constructor
  · calc
      b.lower >>> extra * 2 ^ (b.shift + extra)
        = b.lower / 2 ^ extra * 2 ^ extra * 2 ^ b.shift := by
          rw [Nat.shiftRight_eq_div_pow, pow_add]; ring
      _ ≤ b.lower * 2 ^ b.shift := Nat.mul_le_mul_right _ (Nat.div_mul_le_self _ _)
      _ ≤ n := h.lower_le
  · calc
      n ≤ b.upper * 2 ^ b.shift := h.le_upper
      _ ≤ ceilDiv b.upper (2 ^ extra) * 2 ^ extra * 2 ^ b.shift :=
          Nat.mul_le_mul_right _ (le_ceilDiv_mul _ (Nat.two_pow_pos _))
      _ = ceilDiv b.upper (2 ^ extra) * 2 ^ (b.shift + extra) := by rw [pow_add]; ring

theorem square (h : b.Encloses n) : b.square.Encloses (n * n) := by
  constructor
  · calc
      b.lower * b.lower * 2 ^ (2 * b.shift)
        = b.lower * 2 ^ b.shift * (b.lower * 2 ^ b.shift) := by ring
      _ ≤ n * n := Nat.mul_le_mul h.lower_le h.lower_le
  · calc
      n * n ≤ b.upper * 2 ^ b.shift * (b.upper * 2 ^ b.shift) :=
          Nat.mul_le_mul h.le_upper h.le_upper
      _ = b.upper * b.upper * 2 ^ (2 * b.shift) := by ring

theorem scale (h : b.Encloses n) (k : ℕ) : (b.scale k).Encloses (k * n) := by
  constructor
  · rw [show (b.scale k).lower = k * b.lower from rfl, mul_assoc]
    exact Nat.mul_le_mul_left k h.lower_le
  · rw [show (b.scale k).upper = k * b.upper from rfl, mul_assoc]
    exact Nat.mul_le_mul_left k h.le_upper

end Bracket.Encloses

theorem Bracket.encloses_power (bits base n : ℕ) : (power bits base n).Encloses (base ^ n) := by
  induction n using Nat.strong_induction_on with
  | _ n ih =>
    rw [power]
    split_ifs with hzero hodd
    · subst hzero
      constructor <;> simp
    · have hpow : base ^ n = base * (base ^ (n / 2) * base ^ (n / 2)) := by
        rw [← pow_add, ← pow_succ']
        congr 1
        omega
      rw [hpow]
      exact ((ih (n / 2) (by omega)).square.scale base).trim bits
    · have hpow : base ^ n = base ^ (n / 2) * base ^ (n / 2) := by
        rw [← pow_add]
        congr 1
        omega
      rw [hpow]
      exact (ih (n / 2) (by omega)).square.trim bits

/-! ## The search through brackets -/

namespace Format

variable (f : Format)

/-- A search whose attempts agree with the final answer gives that answer. -/
theorem refine_eq {attempt : ℕ → Option (Floating f)} {final : Unit → Floating f}
    (h : ∀ bits x, attempt bits = some x → x = final ()) (fuel bits : ℕ) :
    f.refine attempt final fuel bits = final () := by
  induction fuel generalizing bits with
  | zero => rfl
  | succ fuel ih =>
    rw [refine]
    split
    · next x hx => exact h bits x hx
    · exact ih (2 * bits)

theorem eq_of_common? {lower upper x : Floating f} (h : Floating.common? lower upper = some x) :
    lower = x ∧ upper = x := by
  unfold Floating.common? at h
  split_ifs at h with heq
  cases h
  exact ⟨rfl, heq.symm⟩

/-- What both ends of an enclosure round to, everything in it rounds to. -/
theorem eq_of_common?_round {negative : Bool} {lower upper x : Floating f} {vl vu : ℚ}
    {num den : ℕ} {scale : ℤ} (hden : 0 < den)
    (hl : lower.StandsFor negative (f.nearest vl)) (hu : upper.StandsFor negative (f.nearest vu))
    (h0 : 0 ≤ vl) (hlv : vl ≤ (num : ℚ) / den * 2 ^ scale)
    (hvu : (num : ℚ) / den * 2 ^ scale ≤ vu) (h : Floating.common? lower upper = some x) :
    x = f.round negative num den scale := by
  obtain ⟨rfl, hupper⟩ := f.eq_of_common? h
  rw [hupper] at hu
  have hbetween := hl.between hu (f.nearest_mono h0 hlv) (f.nearest_mono (h0.trans hlv) hvu)
  exact hbetween.unique (f.round_standsFor negative num hden scale)

theorem roundTimesPower_eq (negative : Bool) (num base n : ℕ) (scale : ℤ) :
    f.roundTimesPower negative num base n scale = f.round negative (num * base ^ n) 1 scale := by
  unfold roundTimesPower
  dsimp only
  split_ifs
  · rfl
  · refine f.refine_eq (fun bits x hx => ?_) _ _
    have hb := Bracket.encloses_power bits base n
    set b := Bracket.power bits base n
    have hend (m : ℕ) : ((num * m : ℕ) : ℚ) / (1 : ℕ) * 2 ^ (scale + (b.shift : ℤ)) =
        num * (m * 2 ^ b.shift : ℕ) * 2 ^ scale := by
      rw [two_zpow_add, zpow_natCast]
      push_cast
      ring
    have hpow : ((num * base ^ n : ℕ) : ℚ) / (1 : ℕ) * 2 ^ scale =
        num * (base ^ n : ℕ) * 2 ^ scale := by
      push_cast
      ring
    have hl := f.round_standsFor negative (num * b.lower) one_pos (scale + b.shift)
    have hu := f.round_standsFor negative (num * b.upper) one_pos (scale + b.shift)
    rw [hend] at hl hu
    refine f.eq_of_common?_round one_pos hl hu (by positivity) ?_ ?_ hx
    · rw [hpow]
      gcongr
      exact hb.lower_le
    · rw [hpow]
      gcongr
      exact hb.le_upper

theorem roundOverPower_eq (negative : Bool) (num : ℕ) {base : ℕ} (hbase : 0 < base) (n : ℕ)
    (scale : ℤ) :
    f.roundOverPower negative num base n scale = f.round negative num (base ^ n) scale := by
  unfold roundOverPower
  dsimp only
  split_ifs
  · rfl
  · refine f.refine_eq (fun bits x hx => ?_) _ _
    have hb := Bracket.encloses_power bits base n
    set b := Bracket.power bits base n
    split_ifs at hx with hzero
    have hlower : 0 < b.lower := Nat.pos_of_ne_zero hzero
    have hpow : 0 < base ^ n := Nat.pow_pos hbase
    have hupper : 0 < b.upper := by
      by_contra h
      have := hb.le_upper
      simp_all
    have hend (m : ℕ) : ((num : ℕ) : ℚ) / m * 2 ^ (scale - (b.shift : ℤ)) =
        num / (m * 2 ^ b.shift : ℕ) * 2 ^ scale := by
      rw [zpow_sub₀ two_ne_zero, zpow_natCast]
      push_cast
      ring
    have hl := f.round_standsFor negative num hupper (scale - b.shift)
    have hu := f.round_standsFor negative num hlower (scale - b.shift)
    rw [hend] at hl hu
    refine f.eq_of_common?_round hpow hl hu (by positivity) ?_ ?_ hx
    · gcongr
      exact_mod_cast hb.le_upper
    · gcongr
      exact_mod_cast hb.lower_le

end Format

namespace Finite

variable {f : Format}

/-- A mantissa is the part without the common factor of two, times that
factor. -/
theorem div_gcd_mul_two_zpow (m precision : ℕ) :
    ((m / m.gcd (2 ^ precision) : ℕ) : ℚ) * 2 ^ ((m.gcd (2 ^ precision)).log2 : ℤ) = m := by
  obtain ⟨k, -, hk⟩ := (Nat.dvd_prime_pow Nat.prime_two).1 (Nat.gcd_dvd_right m (2 ^ precision))
  have hdvd := Nat.gcd_dvd_left m (2 ^ precision)
  rw [hk] at hdvd ⊢
  rw [Nat.log2_two_pow, zpow_natCast]
  exact_mod_cast Nat.div_mul_cancel hdvd

/-- A power with a natural exponent is rounded once, however large the
exponent. -/
theorem natPow_standsFor (x : Finite f) (n : ℕ) :
    (x.natPow n).StandsFor (x.negative && n % 2 == 1) (f.nearest (x.magnitude ^ n)) := by
  unfold natPow
  dsimp only
  set twos := x.mantissa.gcd (2 ^ f.precision) with htwos
  have hvalue : ((1 * (x.mantissa / twos) ^ n : ℕ) : ℚ) / (1 : ℕ) *
      2 ^ ((x.exponent + twos.log2) * n) = x.magnitude ^ n := by
    rw [magnitude, ← div_gcd_mul_two_zpow x.mantissa f.precision, ← htwos, mul_pow, mul_pow,
      mul_comm _ (n : ℤ), mul_add, two_zpow_add, mul_comm (n : ℤ), mul_comm (n : ℤ), zpow_mul,
      zpow_mul, zpow_natCast, zpow_natCast]
    push_cast
    ring
  rw [Format.roundTimesPower_eq, ← hvalue]
  exact f.round_standsFor _ _ one_pos _

end Finite

/-! ## Numerals -/

/-- The magnitude of a numeral as a rational number. -/
def Numeral.magnitude (n : Numeral) : ℚ :=
  n.coefficient * 10 ^ n.exponent

theorem Numeral.magnitude_nonneg (n : Numeral) : 0 ≤ n.magnitude :=
  mul_nonneg (Nat.cast_nonneg _) (zpow_pos (by norm_num) _).le

theorem Numeral.magnitude_of_coefficient_eq_zero {n : Numeral} (h : n.coefficient = 0) :
    n.magnitude = 0 := by
  rw [magnitude, h, Nat.cast_zero, zero_mul]

/-- The number with its sign. -/
def Numeral.value (n : Numeral) : ℚ :=
  if n.negative then -n.magnitude else n.magnitude

theorem Numeral.abs_value (n : Numeral) : |n.value| = n.magnitude := by
  unfold value
  split_ifs
  · rw [abs_neg, abs_of_nonneg n.magnitude_nonneg]
  · exact abs_of_nonneg n.magnitude_nonneg

theorem ten_zpow_eq (k : ℤ) : (10 : ℚ) ^ k = 5 ^ k * 2 ^ k := by
  rw [← mul_zpow]
  norm_num

namespace Format

variable (f : Format)

theorem roundNumeral_standsFor (n : Numeral) :
    (f.roundNumeral n).StandsFor n.negative (f.nearest n.magnitude) := by
  unfold roundNumeral
  split_ifs with h
  · rw [roundTimesPower_eq]
    have hround := f.round_standsFor n.negative (n.coefficient * 5 ^ n.exponent.toNat) one_pos
      n.exponent
    have hvalue : ((n.coefficient * 5 ^ n.exponent.toNat : ℕ) : ℚ) / (1 : ℕ) * 2 ^ n.exponent =
        n.magnitude := by
      unfold Numeral.magnitude
      rw [ten_zpow_eq]
      push_cast
      rw [← zpow_natCast (5 : ℚ), Int.toNat_of_nonneg h]
      ring
    rwa [hvalue] at hround
  · rw [roundOverPower_eq _ _ _ (by norm_num)]
    have hround := f.round_standsFor n.negative n.coefficient
      (Nat.pow_pos (n := (-n.exponent).toNat) (by norm_num : 0 < 5)) n.exponent
    have hvalue : (n.coefficient : ℚ) / (5 ^ (-n.exponent).toNat : ℕ) * 2 ^ n.exponent =
        n.magnitude := by
      unfold Numeral.magnitude
      rw [ten_zpow_eq]
      push_cast
      rw [← zpow_natCast (5 : ℚ), Int.toNat_of_nonneg (by omega), zpow_neg]
      field_simp
    rwa [hvalue] at hround

/-- `8 < 10 < 16`, up to a power. -/
theorem eight_zpow_le (k : ℤ) (h : 0 ≤ k) : (2 : ℚ) ^ (3 * k) ≤ 10 ^ k := by
  obtain ⟨n, rfl⟩ := Int.eq_ofNat_of_zero_le h
  rw [zpow_mul]
  norm_num
  gcongr
  norm_num

theorem ten_zpow_le (k : ℤ) (h : k ≤ 0) : (10 : ℚ) ^ k ≤ 2 ^ (3 * k) := by
  have hle := eight_zpow_le (-k) (by omega)
  rw [zpow_neg, show 3 * -k = -(3 * k) by ring, zpow_neg] at hle
  exact (inv_le_inv₀ (two_zpow_pos _) (zpow_pos (by norm_num) _)).1 hle

/-- A numeral is read as the number nearest to it, however far out it is. -/
theorem ofNumeral_standsFor (n : Numeral) :
    (f.ofNumeral n).StandsFor n.negative (f.nearest n.magnitude) := by
  have hprec := f.precision_pos
  have hroom := f.room
  unfold ofNumeral roundInRange
  dsimp only
  split_ifs with hzero hlarge hsmall
  · rw [Numeral.magnitude_of_coefficient_eq_zero hzero, nearest_zero]
    exact ⟨rfl, Finite.magnitude_zero _⟩
  · -- at least a power of two beyond the range
    have hcoeff : (2 : ℚ) ^ (n.coefficient.log2 : ℤ) ≤ n.coefficient := by
      exact_mod_cast Nat.log2_self_le hzero
    have hmag : (2 : ℚ) ^ f.maxExponent ≤ n.magnitude := by
      calc
        (2 : ℚ) ^ f.maxExponent ≤ 2 ^ ((n.coefficient.log2 : ℤ) + 3 * n.exponent) :=
          two_zpow_le (by omega)
        _ = 2 ^ (n.coefficient.log2 : ℤ) * 2 ^ (3 * n.exponent) := two_zpow_add _ _
        _ ≤ n.coefficient * 10 ^ n.exponent :=
          mul_le_mul hcoeff (eight_zpow_le _ hlarge.1) (two_zpow_pos _).le (Nat.cast_nonneg _)
    refine ⟨rfl, ?_⟩
    have hexact : f.nearest (2 ^ f.maxExponent) = 2 ^ f.maxExponent := by
      simpa using f.nearest_of_representable (m := 1) (e := f.maxExponent) Nat.one_le_two_pow
        (by omega)
    rw [← hexact]
    exact f.nearest_mono (two_zpow_pos _).le hmag
  · -- less than half of the least number
    have hcoeff : (n.coefficient : ℚ) < 2 ^ ((n.coefficient.log2 : ℤ) + 1) := by
      exact_mod_cast Nat.lt_log2_self
    have hmag : n.magnitude < 2 ^ (f.minExponent - 1) := by
      calc
        n.magnitude ≤ n.coefficient * 2 ^ (3 * n.exponent) :=
          mul_le_mul_of_nonneg_left (ten_zpow_le _ hsmall.1.le) (Nat.cast_nonneg _)
        _ < 2 ^ ((n.coefficient.log2 : ℤ) + 1) * 2 ^ (3 * n.exponent) :=
          mul_lt_mul_of_pos_right hcoeff (two_zpow_pos _)
        _ = 2 ^ ((n.coefficient.log2 : ℤ) + 1 + 3 * n.exponent) := (two_zpow_add _ _).symm
        _ ≤ 2 ^ (f.minExponent - 1) := two_zpow_le (by omega)
    rw [f.nearest_of_lt n.magnitude_nonneg hmag]
    exact ⟨rfl, Finite.magnitude_zero _⟩
  · exact f.roundNumeral_standsFor n

/-- Numerals whose coefficient is a mantissa are read correctly. -/
theorem readNumeral_standsFor {n : Numeral} (h : n.coefficient < 2 ^ f.precision) :
    (f.readNumeral n).StandsFor n.negative (f.nearest n.magnitude) := by
  rw [readNumeral, if_pos h]
  exact f.ofNumeral_standsFor n

end Format

end Abacus
