/-
Abacus.Proofs.Decimal.Rendering — which magnitude a printed number denotes.

The digits of a number are first taken with guard digits, after scaling it if
its exponent is large.  The magnitude that is then rounded to the wanted
digits differs from the number by a few units of the last guard digit
(`renderFinite?_spec`).  So a number is rounded correctly unless a tie is that
close to it, and one close to a magnitude of few digits is printed as that
magnitude (`renderFinite?_of_close`).  The length of the mantissa does not
matter for any of this, only the size of the exponents.
-/
import Abacus.Decimal.Rendering
import Abacus.Proofs.Decimal.Estimates
import Abacus.Proofs.Floating.Powers
import Abacus.Proofs.Floating.WholeNumbers

namespace Abacus

/-- The exponents of the format are far from the ends of a word. -/
structure Format.HasSmallExponents (f : Format) : Prop where
  le_minExponent : -2 ^ 32 ≤ f.minExponent
  maxExponent_le : f.maxExponent ≤ 2 ^ 32

theorem Finite.binaryExponent_bounds {f : Format} (hf : f.HasSmallExponents) {x : Finite f}
    (hx : x.isZero = false) : -2 ^ 32 ≤ x.binaryExponent ∧ x.binaryExponent ≤ 2 ^ 32 := by
  have hlog : x.mantissa.log2 < f.precision :=
    (Nat.log2_lt (mantissa_pos hx).ne').2 x.canonical.1
  have hlow := hf.le_minExponent.trans x.canonical.2.1
  have hhigh := x.canonical.2.2.1.trans hf.maxExponent_le
  unfold binaryExponent
  omega

end Abacus

namespace Abacus.Decimal

/-- Mantissas that are computed with leave room for the exponents. -/
theorem hasSmallExponents_wide {precision : ℕ} {hp : 0 < precision}
    (hlong : precision ≤ longestPrecision) : (Format.wide precision hp).HasSmallExponents := by
  unfold longestPrecision at hlong
  constructor <;> simp only [Format.wide] <;> omega

theorem hasSmallExponents_decimal : Format.decimal.HasSmallExponents :=
  hasSmallExponents_wide (by decide)

/-! ## Taking digits -/

/-- The exponent of a magnitude between powers of two is itself not large. -/
theorem log_ten_bounds {v : ℚ} (hlow : (2 : ℚ) ^ (-2 ^ 34 : ℤ) ≤ v)
    (hhigh : v ≤ 2 ^ (2 ^ 34 : ℤ)) : -2 ^ 34 - 1 ≤ Int.log 10 v ∧ Int.log 10 v ≤ 2 ^ 34 := by
  have hv : 0 < v := (two_zpow_pos _).trans_le hlow
  have hten : (1 : ℚ) < 10 := by norm_num
  constructor
  · have h : (10 : ℚ) ^ (-2 ^ 34 : ℤ) < 10 ^ (Int.log 10 v + 1) := by
      calc
        (10 : ℚ) ^ (-2 ^ 34 : ℤ) ≤ 2 ^ (-2 ^ 34 : ℤ) :=
          ten_zpow_le_two_zpow (by norm_num) (by norm_num)
        _ ≤ v := hlow
        _ < 10 ^ (Int.log 10 v + 1) := lt_ten_zpow_log v
    have := (zpow_lt_zpow_iff_right₀ hten).1 h
    omega
  · have h : (10 : ℚ) ^ Int.log 10 v ≤ 10 ^ (2 ^ 34 : ℤ) := by
      calc
        (10 : ℚ) ^ Int.log 10 v ≤ v := ten_zpow_log_le hv
        _ ≤ 2 ^ (2 ^ 34 : ℤ) := hhigh
        _ ≤ 10 ^ (2 ^ 34 : ℤ) := two_zpow_le_ten_zpow (by norm_num) (by norm_num)
    exact (zpow_le_zpow_iff_right₀ hten).1 h

theorem natural?_of_lt {n : ℕ} (h : n < 2 ^ 63) : Word.natural? n = some n := by
  refine Word.natural?_eq_some_iff.2 ⟨?_, rfl⟩
  unfold Word.modulus
  omega

theorem signed_of_lt {n : ℕ} (h : n < 2 ^ 63) : Word.signed n = n := by
  refine Word.signed_of_lt ?_
  unfold Word.modulus
  omega

/-- The leading bit of a mantissa. -/
theorem two_zpow_le_mul {m : ℕ} (hm : 0 < m) (e : ℤ) :
    (2 : ℚ) ^ ((m.log2 : ℤ) + 1 + e - 1) ≤ m * 2 ^ e := by
  rw [show (m.log2 : ℤ) + 1 + e - 1 = (m.log2 : ℤ) + e by ring, two_zpow_add]
  refine mul_le_mul_of_nonneg_right ?_ (two_zpow_pos e).le
  exact_mod_cast Nat.log2_self_le hm.ne'

theorem mul_lt_two_zpow (m : ℕ) (e : ℤ) :
    (m : ℚ) * 2 ^ e < 2 ^ ((m.log2 : ℤ) + 1 + e) := by
  rw [two_zpow_add]
  refine mul_lt_mul_of_pos_right ?_ (two_zpow_pos e)
  exact_mod_cast Nat.lt_log2_self

/-- The digits of a whole number of units of `10 ^ -places` denote it. -/
theorem positional_digitChars (n places : ℕ) :
    positional (digitChars n) ((digitChars n).length - places) = n / 10 ^ places := by
  rw [positional, digitsValue_digitChars, div_eq_mul_inv, ← zpow_natCast, ← zpow_neg]
  congr 2
  ring

/-- With the zeros in front counted, as many digits and the guard digits are off by less than
two units of the last guard digit. -/
theorem abs_round_div_sub_le {v : ℚ} (count : ℕ) {k : ℕ} (h : 1 / 4 ≤ v * 10 ^ k) :
    |Tie.up.round (v * 10 ^ (count + guardDigits + k)) / 10 ^ (count + guardDigits + k) - v| ≤
      v * (2 / 10 ^ (count + 5)) := by
  have hsplit : (10 : ℚ) ^ (count + guardDigits + k) = 10 ^ (count + 5) * 10 ^ k := by
    rw [pow_add, guardDigits]
  have hv : 0 ≤ v := by
    by_contra hneg
    have : v * 10 ^ k < 0 := mul_neg_of_neg_of_pos (not_le.1 hneg) (by positivity)
    linarith
  have hp : (0 : ℚ) < 10 ^ (count + guardDigits + k) := by positivity
  have herr := Tie.up.abs_round_sub_le (mul_nonneg hv hp.le)
  rw [div_sub' hp.ne', abs_div, abs_of_pos hp, div_le_iff₀ hp, mul_comm _ v]
  calc
    |Tie.up.round (v * 10 ^ (count + guardDigits + k)) - v * 10 ^ (count + guardDigits + k)|
      ≤ 1 / 2 := herr
    _ ≤ 2 * (v * 10 ^ k) := by linarith
    _ = v * (2 / 10 ^ (count + 5)) * 10 ^ (count + guardDigits + k) := by
      rw [hsplit]
      field_simp

/-- The magnitude whose digits are taken from `m * 2 ^ e`: a whole number of
full length itself, any other one rounded at its last guard digit. -/
def taken (m : ℕ) (e : ℤ) (count : ℕ) : ℚ :=
  if 0 ≤ e then m * 2 ^ e
  else
    Tie.up.round (m * 2 ^ e * 10 ^ (count + guardDigits + leadingZeros (m.log2 + 1 + e))) /
      10 ^ (count + guardDigits + leadingZeros (m.log2 + 1 + e))

/-- The zeros in front of a magnitude leave a quarter of it behind the point. -/
theorem quarter_le_mul_leadingZeros {m : ℕ} (hm : 0 < m) {e : ℤ}
    (hlow : -2 ^ 32 ≤ (m.log2 : ℤ) + 1 + e) (hhigh : (m.log2 : ℤ) + 1 + e ≤ 2 ^ 32) :
    (1 / 4 : ℚ) ≤ m * 2 ^ e * 10 ^ leadingZeros (m.log2 + 1 + e) := by
  obtain ⟨hzeros, -⟩ := leadingZeros_spec hlow hhigh
  have hge := two_zpow_le_mul hm e
  calc
    (1 / 4 : ℚ) = 2 ^ ((m.log2 : ℤ) + 1 + e - 1) * 2 ^ (-((m.log2 : ℤ) + 1 + e) - 1) := by
      rw [← two_zpow_add,
        show (m.log2 : ℤ) + 1 + e - 1 + (-((m.log2 : ℤ) + 1 + e) - 1) = -2 by ring]
      norm_num
    _ ≤ _ := mul_le_mul hge hzeros (two_zpow_pos _).le (by positivity)

/-- The magnitude taken is off by less than two units of the last guard digit. -/
theorem abs_taken_sub_le {m : ℕ} (hm : 0 < m) {e : ℤ} (hlow : -2 ^ 32 ≤ (m.log2 : ℤ) + 1 + e)
    (hhigh : (m.log2 : ℤ) + 1 + e ≤ 2 ^ 32) (count : ℕ) :
    |taken m e count - m * 2 ^ e| ≤ m * 2 ^ e * (2 / 10 ^ (count + 5)) := by
  unfold taken
  split_ifs
  · rw [sub_self, abs_zero]
    positivity
  · exact abs_round_div_sub_le count (quarter_le_mul_leadingZeros hm hlow hhigh)

/-- It is within half of the number, and so it is not zero either. -/
theorem taken_within_half {m : ℕ} (hm : 0 < m) {e : ℤ} (hlow : -2 ^ 32 ≤ (m.log2 : ℤ) + 1 + e)
    (hhigh : (m.log2 : ℤ) + 1 + e ≤ 2 ^ 32) (count : ℕ) :
    |taken m e count - m * 2 ^ e| ≤ m * 2 ^ e / 2 ∧ 0 < taken m e count := by
  have hv : (0 : ℚ) < m * 2 ^ e := (two_zpow_pos _).trans_le (two_zpow_le_mul hm e)
  have hhalf : (m : ℚ) * 2 ^ e * (2 / 10 ^ (count + 5)) ≤ m * 2 ^ e / 2 := by
    have : (1 : ℚ) ≤ 10 ^ count := one_le_pow₀ (by norm_num)
    rw [div_eq_mul_inv (_ * _)]
    refine mul_le_mul_of_nonneg_left ?_ hv.le
    rw [div_le_iff₀ (by positivity), pow_add]
    linarith
  have hclose := (abs_taken_sub_le hm hlow hhigh count).trans hhalf
  have := (abs_le.1 hclose).1
  exact ⟨hclose, by linarith⟩

/-- The point of digits close to a number of the format can be counted. -/
theorem integer?_point {digits : List Char} (h : Leading digits) {point e : ℤ} {v : ℚ}
    (hlow : -2 ^ 32 ≤ e) (hhigh : e ≤ 2 ^ 32) (hge : (2 : ℚ) ^ (e - 1) ≤ v) (hlt : v < 2 ^ e)
    (hclose : |positional digits point - v| ≤ v / 2) : Word.integer? point = some point := by
  obtain ⟨hlo, hhi⟩ := abs_le.1 hclose
  have hlog := h.log_positional point
  have hbounds := log_ten_bounds (v := positional digits point) ?_ ?_
  · exact integer?_of_bounds (by omega) (by omega)
  · calc
      (2 : ℚ) ^ (-2 ^ 34 : ℤ) ≤ 2 ^ (e - 1 - 1) := two_zpow_le (by omega)
      _ = 2 ^ (e - 1) / 2 := by rw [zpow_sub_one₀ two_ne_zero]; ring
      _ ≤ positional digits point := by linarith
  · calc
      positional digits point ≤ 2 * v := by linarith
      _ ≤ 2 * 2 ^ e := by linarith
      _ = 2 ^ (e + 1) := by rw [zpow_add_one₀ two_ne_zero]; ring
      _ ≤ 2 ^ (2 ^ 34 : ℤ) := two_zpow_le (by omega)

/-- Where the digits can be counted, they are those of the magnitude taken. -/
theorem digitText?_spec {m : ℕ} (hm : 0 < m) {e : ℤ} (hlow : -2 ^ 32 ≤ (m.log2 : ℤ) + 1 + e)
    (hhigh : (m.log2 : ℤ) + 1 + e ≤ 2 ^ 32) {count : ℕ} (hcount : count < 2 ^ 31) :
    ∃ digits point, digitText? m e count = some (digits, point) ∧ Leading digits ∧
      positional digits point = taken m e count := by
  obtain ⟨hclose, htaken⟩ := taken_within_half hm hlow hhigh count
  unfold digitText?
  split_ifs with he
  · -- all digits of a whole number
    have hpos : 0 < m <<< e.toNat := by
      rw [Nat.shiftLeft_eq]
      positivity
    refine ⟨_, _, rfl, leading_digitChars hpos, ?_⟩
    rw [taken, if_pos he, positional, sub_self, zpow_zero, mul_one, digitsValue_digitChars,
      Nat.shiftLeft_eq]
    push_cast
    rw [← zpow_natCast, Int.toNat_of_nonneg he]
  · obtain ⟨-, hfew⟩ := leadingZeros_spec hlow hhigh
    have hquot : (m : ℚ) * 2 ^ e = m / (2 ^ (-e).toNat : ℕ) := by
      push_cast
      rw [div_eq_mul_inv, ← zpow_natCast, ← zpow_neg, Int.toNat_of_nonneg (by omega), neg_neg]
    obtain ⟨places, hplaces⟩ :
        ∃ places, places = count + guardDigits + leadingZeros (m.log2 + 1 + e) := ⟨_, rfl⟩
    have hsmall : places < 2 ^ 32 := by
      rw [hplaces, guardDigits]
      omega
    rw [taken, if_neg he, ← hplaces] at hclose htaken
    have hscaled : roundDiv .up (m * 10 ^ (places % powerModulus)) (2 ^ (-e).toNat) =
        Tie.up.round (m * 2 ^ e * 10 ^ places) := by
      rw [roundDiv_eq_round _ _ (by positivity), show places % powerModulus = places from
        Nat.mod_eq_of_lt hsmall, hquot]
      push_cast
      rw [div_mul_eq_mul_div]
    rw [taken, if_neg he, ← hplaces]
    set scaled := Tie.up.round (m * 2 ^ e * 10 ^ places)
    have hpos : 0 < scaled := by
      rw [Nat.pos_iff_ne_zero]
      intro hzero
      rw [hzero, Nat.cast_zero, zero_div] at htaken
      exact htaken.false
    rw [← positional_digitChars] at hclose ⊢
    have hpoint := integer?_point (leading_digitChars hpos) hlow hhigh (two_zpow_le_mul hm e)
      (mul_lt_two_zpow m e) hclose
    refine ⟨digitChars scaled, ((digitChars scaled).length : ℤ) - places, ?_,
      leading_digitChars hpos, rfl⟩
    dsimp only
    rw [← hplaces, natural?_of_lt (by omega), Option.bind_eq_bind, Option.bind_some, hscaled,
      if_neg hpos.ne', signed_of_lt (by omega), hpoint]
    rfl

/-! ## Scaling -/

/-- A product by a rounded factor, rounded itself. -/
theorem abs_mul_sub_le {v p t y d : ℚ} (hv : 0 < v) (hp : 0 < p) (hd : 0 ≤ d) (hd1 : d ≤ 1 / 4)
    (ht : |t - p| ≤ p * d) (hy : |y - v * t| ≤ v * t * d) : |y / p - v| ≤ v * (4 * d) := by
  obtain ⟨ht1, ht2⟩ := abs_le.1 ht
  obtain ⟨hy1, hy2⟩ := abs_le.1 hy
  have hvp : 0 < v * p := mul_pos hv hp
  have hvt : |v * t - v * p| ≤ v * p * d := by
    rw [← mul_sub, abs_mul, abs_of_pos hv, mul_assoc]
    exact mul_le_mul_of_nonneg_left ht hv.le
  obtain ⟨hvt1, hvt2⟩ := abs_le.1 hvt
  have hpd : v * p * d ≤ v * p := by nlinarith
  have hvtd : v * t * d ≤ 2 * (v * p) * d := mul_le_mul_of_nonneg_right (by linarith) hd
  rw [show y / p - v = (y - v * p) / p by field_simp, abs_div, abs_of_pos hp, div_le_iff₀ hp]
  have hvpd : 0 ≤ v * p * d := by positivity
  rw [abs_le]
  constructor <;> nlinarith

/-- A quotient by a rounded divisor, rounded itself. -/
theorem abs_div_sub_le {v p t y d : ℚ} (hv : 0 < v) (hp : 0 < p) (hd : 0 ≤ d) (hd1 : d ≤ 1 / 4)
    (ht : |t - p| ≤ p * d) (hy : |y - v / t| ≤ v / t * d) : |y * p - v| ≤ v * (4 * d) := by
  obtain ⟨ht1, ht2⟩ := abs_le.1 ht
  have hpd : p * d ≤ p * (1 / 4) := mul_le_mul_of_nonneg_left hd1 hp.le
  have ht0 : 0 < t := by linarith
  -- the divisor is at least three quarters of what it stands for
  have hratio : p / t ≤ 4 / 3 := by
    rw [div_le_div_iff₀ ht0 (by norm_num)]
    linarith
  have hquot : |v / t * p - v| ≤ v * (4 / 3 * d) := by
    rw [show v / t * p - v = v * ((p - t) / t) by field_simp, abs_mul, abs_of_pos hv, abs_div,
      abs_of_pos ht0, abs_sub_comm]
    refine mul_le_mul_of_nonneg_left ?_ hv.le
    calc
      |t - p| / t ≤ p * d / t := div_le_div_of_nonneg_right ht ht0.le
      _ = p / t * d := by ring
      _ ≤ 4 / 3 * d := mul_le_mul_of_nonneg_right hratio hd
  have hround : |y * p - v / t * p| ≤ v * (4 / 3 * d) := by
    rw [← sub_mul, abs_mul, abs_of_pos hp]
    calc
      |y - v / t| * p ≤ v / t * d * p := mul_le_mul_of_nonneg_right hy hp.le
      _ = v * (p / t * d) := by ring
      _ ≤ v * (4 / 3 * d) :=
        mul_le_mul_of_nonneg_left (mul_le_mul_of_nonneg_right hratio hd) hv.le
  calc
    |y * p - v| ≤ |y * p - v / t * p| + |v / t * p - v| := abs_sub_le _ _ _
    _ ≤ v * (4 / 3 * d) + v * (4 / 3 * d) := add_le_add hround hquot
    _ ≤ v * (4 * d) := by nlinarith [mul_nonneg hv.le hd]

section Wide

variable {precision : ℕ} {hp : 0 < precision}

/-- Where at least a quarter is left, a wide format has its full precision. -/
theorem wide_normal {q : ℚ} (hq : 1 / 4 ≤ q) :
    (2 : ℚ) ^ ((Format.wide precision hp).minExponent +
      (Format.wide precision hp).precision - 1) ≤ q := by
  calc
    (2 : ℚ) ^ ((Format.wide precision hp).minExponent +
        (Format.wide precision hp).precision - 1) ≤ 2 ^ (-2 : ℤ) := by
      refine two_zpow_le ?_
      simp only [Format.wide]
      omega
    _ = 1 / 4 := by norm_num
    _ ≤ q := hq

/-- The power of ten that a number is scaled by. -/
theorem scaling_power_spec {n : ℕ} {ten : Finite (Format.wide precision hp)}
    (h : (Format.wide precision hp).roundTimesPower false 1 5 n n = .finite ten) :
    |ten.magnitude - 10 ^ n| ≤ 10 ^ n * (1 / 2 ^ precision) := by
  have hround := (Format.wide precision hp).round_standsFor false (1 * 5 ^ n) one_pos n
  rw [← Format.roundTimesPower_eq, h] at hround
  have hvalue : ((1 * 5 ^ n : ℕ) : ℚ) / (1 : ℕ) * 2 ^ (n : ℤ) = 10 ^ n := by
    push_cast
    rw [zpow_natCast, one_mul, div_one, ← mul_pow]
    norm_num
  rw [hvalue] at hround
  have hone : (1 : ℚ) ≤ 10 ^ n := one_le_pow₀ (by norm_num)
  rw [hround.2, mul_one_div]
  exact (Format.wide precision hp).abs_nearest_sub_le_mul (wide_normal (by linarith))

variable {f : Format} {x : Finite f} {ten y : Finite (Format.wide precision hp)} {p : ℚ}
  (hx : 0 < x.magnitude) (hp0 : 0 < p) (hprecision : 2 < precision)
  (hten : |ten.magnitude - p| ≤ p * (1 / 2 ^ precision))
include hprecision

theorem one_div_two_pow_le : (1 / 2 ^ precision : ℚ) ≤ 1 / 4 := by
  refine one_div_le_one_div_of_le (by norm_num) ?_
  calc
    (4 : ℚ) = 2 ^ 2 := by norm_num
    _ ≤ 2 ^ precision := pow_le_pow_right₀ (by norm_num) hprecision.le

include hp0 hten

/-- The rounded power is within a quarter of the exact one. -/
theorem power_bounds : p * (3 / 4) ≤ ten.magnitude ∧ ten.magnitude ≤ p * (5 / 4) := by
  obtain ⟨hlow, hhigh⟩ := abs_le.1 hten
  have hquarter : p * (1 / 2 ^ precision) ≤ p * (1 / 4) :=
    mul_le_mul_of_nonneg_left (one_div_two_pow_le hprecision) hp0.le
  constructor <;> linarith

include hx

/-- A large number is divided by the power. -/
theorem scaled_quotient_spec (hle : p ≤ 2 * x.magnitude)
    (h : (Format.wide precision hp).round x.negative x.mantissa ten.mantissa
      (x.exponent - ten.exponent) = .finite y) :
    |y.magnitude * p - x.magnitude| ≤ x.magnitude * (4 * (1 / 2 ^ precision)) := by
  obtain ⟨hlow, hhigh⟩ := power_bounds hp0 hprecision hten
  have hten0 : 0 < ten.magnitude := by linarith
  have hmant : 0 < ten.mantissa := Finite.mantissa_pos (Bool.eq_false_iff.2 fun hzero =>
    hten0.ne' (Finite.magnitude_eq_zero_iff.2 hzero))
  have hvalue : (x.mantissa : ℚ) / ten.mantissa * 2 ^ (x.exponent - ten.exponent) =
      x.magnitude / ten.magnitude := by
    rw [Finite.magnitude, Finite.magnitude, zpow_sub₀ two_ne_zero, mul_div_mul_comm]
  have hquarter : 1 / 4 ≤ x.magnitude / ten.magnitude := by
    rw [div_le_div_iff₀ (by norm_num) hten0]
    linarith
  have hround := (Format.wide precision hp).round_standsFor x.negative x.mantissa hmant
    (x.exponent - ten.exponent)
  rw [hvalue, h] at hround
  have herr := (Format.wide precision hp).abs_nearest_sub_le_mul (wide_normal hquarter)
  rw [← hround.2, div_eq_mul_one_div _ (2 ^ (Format.wide precision hp).precision)] at herr
  exact abs_div_sub_le hx hp0 (by positivity) (one_div_two_pow_le hprecision) hten herr

/-- A small number is multiplied by the power. -/
theorem scaled_product_spec (hle : 1 ≤ 2 * x.magnitude * p)
    (h : (Format.wide precision hp).round x.negative (x.mantissa * ten.mantissa) 1
      (x.exponent + ten.exponent) = .finite y) :
    |y.magnitude / p - x.magnitude| ≤ x.magnitude * (4 * (1 / 2 ^ precision)) := by
  obtain ⟨hlow, hhigh⟩ := power_bounds hp0 hprecision hten
  have hvalue : ((x.mantissa * ten.mantissa : ℕ) : ℚ) / (1 : ℕ) *
      2 ^ (x.exponent + ten.exponent) = x.magnitude * ten.magnitude := by
    rw [Finite.magnitude, Finite.magnitude, two_zpow_add]
    push_cast
    ring
  have hquarter : 1 / 4 ≤ x.magnitude * ten.magnitude := by
    have hthree : x.magnitude * (p * (3 / 4)) ≤ x.magnitude * ten.magnitude :=
      mul_le_mul_of_nonneg_left hlow hx.le
    nlinarith
  have hround := (Format.wide precision hp).round_standsFor x.negative
    (x.mantissa * ten.mantissa) one_pos (x.exponent + ten.exponent)
  rw [hvalue, h] at hround
  have herr := (Format.wide precision hp).abs_nearest_sub_le_mul (wide_normal hquarter)
  rw [← hround.2, div_eq_mul_one_div _ (2 ^ (Format.wide precision hp).precision)] at herr
  exact abs_mul_sub_le hx hp0 (by positivity) (one_div_two_pow_le hprecision) hten herr

end Wide

section AnyFormat

variable {f : Format} {x : Finite f}

theorem magnitude_bounds (hx : x.isZero = false) :
    (2 : ℚ) ^ (x.binaryExponent - 1) ≤ x.magnitude ∧ x.magnitude < 2 ^ x.binaryExponent :=
  ⟨two_zpow_le_mul (Finite.mantissa_pos hx) x.exponent, mul_lt_two_zpow x.mantissa x.exponent⟩

/-- What is scaled down is a nonzero number of the wider format: the quotient by a power of ten,
or the product with one. -/
theorem exists_of_scaleDown? {wanted precision : ℕ} {k : ℤ}
    {m : ℕ} {e power : ℤ} (h : scaleDown? x k wanted precision = some ((m, e), power)) :
    ∃ (hp : 0 < precision) (ten y : Finite (Format.wide precision hp)),
      precision ≤ longestPrecision ∧ y.isZero = false ∧
      (Format.wide precision hp).roundTimesPower false 1 5 (k - wanted).natAbs
        (k - wanted).natAbs = .finite ten ∧
      (if 0 ≤ k - wanted then
          (Format.wide precision hp).round x.negative x.mantissa ten.mantissa
            (x.exponent - ten.exponent)
        else
          (Format.wide precision hp).round x.negative (x.mantissa * ten.mantissa) 1
            (x.exponent + ten.exponent)) = .finite y ∧
      y.mantissa = m ∧ y.exponent = e ∧ k - wanted = power := by
  unfold scaleDown? at h
  split_ifs at h with hp
  dsimp only at h
  split at h
  next ten hten =>
    split at h
    next y hy =>
      split_ifs at h with hzero
      cases h
      exact ⟨hp.1, ten, y, hp.2, by simpa using hzero, hten, hy, rfl, rfl, rfl⟩
    next => cases h
  next => cases h

/-- A scaled number, with the power of ten that was divided out, is the number
up to four units in its precision. -/
theorem scaleDown?_spec {wanted precision : ℕ} {k : ℤ}
    (hx : x.isZero = false) (hk : (10 : ℚ) ^ (k - 1) ≤ 2 ^ x.binaryExponent) (hw : 0 < wanted)
    (hprecision : 2 < precision) {m : ℕ} {e power : ℤ}
    (h : scaleDown? x k wanted precision = some ((m, e), power)) :
    0 < m ∧ -2 ^ 32 ≤ (m.log2 : ℤ) + 1 + e ∧ (m.log2 : ℤ) + 1 + e ≤ 2 ^ 32 ∧
      |m * 2 ^ e * 10 ^ power - x.magnitude| ≤ x.magnitude * (4 * (1 / 2 ^ precision)) := by
  have hx0 : 0 < x.magnitude := (two_zpow_pos _).trans_le (magnitude_bounds hx).1
  have htwo : (10 : ℚ) ^ (k - 1) ≤ 2 * x.magnitude := by
    have hle := (magnitude_bounds hx).1
    rw [zpow_sub_one₀ two_ne_zero] at hle
    linarith
  obtain ⟨hp, ten, y, hlong, hyzero, hten, hy, rfl, rfl, rfl⟩ := exists_of_scaleDown? h
  have hpower := scaling_power_spec hten
  set p : ℚ := 10 ^ (k - wanted).natAbs with hpdef
  have hp0 : 0 < p := by positivity
  obtain ⟨hlow, hhigh⟩ := Finite.binaryExponent_bounds (hasSmallExponents_wide hlong) hyzero
  refine ⟨Finite.mantissa_pos hyzero, hlow, hhigh, ?_⟩
  rw [← Finite.magnitude]
  split_ifs at hy with hsign
  · have hzpow : (10 : ℚ) ^ (k - (wanted : ℤ)) = p := by
      rw [hpdef, ← zpow_natCast, Int.natAbs_of_nonneg hsign]
    have hle : p ≤ 2 * x.magnitude := by
      rw [← hzpow]
      exact (ten_zpow_le_ten_zpow (by omega)).trans htwo
    rw [hzpow]
    exact scaled_quotient_spec hx0 hp0 hprecision hpower hle hy
  · have hzpow : (10 : ℚ) ^ (k - (wanted : ℤ)) = p⁻¹ := by
      rw [hpdef, ← zpow_natCast, ← zpow_neg]
      congr 1
      omega
    have hle : 1 ≤ 2 * x.magnitude * p := by
      have hone : (1 : ℚ) ≤ 10 ^ (k - 1) * p := by
        rw [hpdef, ← zpow_natCast, ← ten_zpow_add]
        exact one_le_zpow₀ (by norm_num) (by omega)
      exact hone.trans (mul_le_mul_of_nonneg_right htwo hp0.le)
    rw [hzpow, ← div_eq_mul_inv]
    exact scaled_product_spec hx0 hp0 hprecision hpower hle hy

/-- What digits are taken from is the number itself, or nearly so and scaled. -/
theorem prepare?_spec (hf : f.HasSmallExponents) (hx : x.isZero = false) {count : ℕ}
    (hcount : count < 2 ^ 31) :
    ∃ m e power, prepare? x count = some ((m, e), power) ∧ 0 < m ∧
      -2 ^ 32 ≤ (m.log2 : ℤ) + 1 + e ∧ (m.log2 : ℤ) + 1 + e ≤ 2 ^ 32 ∧
      |m * 2 ^ e * 10 ^ power - x.magnitude| ≤ x.magnitude * (1 / 10 ^ (count + 6)) := by
  obtain ⟨hlow, hhigh⟩ := Finite.binaryExponent_bounds hf hx
  have hitself : 0 < x.mantissa ∧ -2 ^ 32 ≤ (x.mantissa.log2 : ℤ) + 1 + x.exponent ∧
      (x.mantissa.log2 : ℤ) + 1 + x.exponent ≤ 2 ^ 32 ∧
      |x.mantissa * 2 ^ x.exponent * 10 ^ (0 : ℤ) - x.magnitude| ≤
        x.magnitude * (1 / 10 ^ (count + 6)) := by
    refine ⟨Finite.mantissa_pos hx, hlow, hhigh, ?_⟩
    rw [zpow_zero, mul_one, ← Finite.magnitude, sub_self, abs_zero]
    have := x.magnitude_nonneg
    positivity
  unfold prepare?
  dsimp only
  split_ifs with hfar
  · obtain ⟨bits, hbits, hpow, hfew⟩ := nominalBits?_spec
      (by unfold guardDigits; omega : count + guardDigits ≤ 2 ^ 32)
    have hwanted := natural?_of_lt (n := count + guardDigits) (by unfold guardDigits; omega)
    have hprecision := natural?_of_lt (n := bits + 64) (by omega)
    have hprec : 2 < bits + 64 := by omega
    have hsmall : (4 * (1 / 2 ^ (bits + 64)) : ℚ) ≤ 1 / 10 ^ (count + 6) := by
      have hcast : (10 : ℚ) ^ (count + 5) * 2 ^ 36 ≤ 2 ^ bits := by exact_mod_cast hpow
      rw [mul_one_div, div_le_div_iff₀ (by positivity) (by positivity), one_mul]
      calc
        (4 : ℚ) * 10 ^ (count + 6) = 10 ^ (count + 5) * 40 := by ring
        _ ≤ 10 ^ (count + 5) * 2 ^ 36 * 2 ^ 64 := by
          rw [mul_assoc]
          gcongr
          norm_num
        _ ≤ 2 ^ bits * 2 ^ 64 := by gcongr
        _ = 2 ^ (bits + 64) := (pow_add _ _ _).symm
    simp only [hwanted, hbits, hprecision, Option.bind_eq_bind, Option.bind_some]
    cases hscaled : scaleDown? x (estimate x.binaryExponent logTenOfTwo).floor
        (count + guardDigits) (bits + 64) with
    | none => exact ⟨x.mantissa, x.exponent, 0, rfl, hitself⟩
    | some result =>
      obtain ⟨⟨m, e⟩, power⟩ := result
      obtain ⟨hm, hlo, hhi, herr⟩ := scaleDown?_spec hx (floor_estimate_spec hlow hhigh)
        (by unfold guardDigits; omega) hprec hscaled
      refine ⟨m, e, power, rfl, hm, hlo, hhi, herr.trans ?_⟩
      exact mul_le_mul_of_nonneg_left hsmall x.magnitude_nonneg
  · exact ⟨x.mantissa, x.exponent, 0, rfl, hitself⟩

/-! ## Rendering -/

theorem positional_add (digits : List Char) (point power : ℤ) :
    positional digits (point + power) = positional digits point * 10 ^ power := by
  unfold positional
  rw [mul_assoc, ← ten_zpow_add]
  congr 2
  ring

theorem comparable_of_lt {count : ℕ} (h : count < 2 ^ 63) : comparable count = count := by
  rw [comparable, signed_of_lt h, Int.toNat_natCast]

/-- The errors of scaling and of taking digits add up. -/
theorem abs_sub_le_of_scaled {w z v : ℚ} (hv : 0 ≤ v) (count : ℕ)
    (hw : |w - z| ≤ z * (2 / 10 ^ (count + 5))) (hz : |z - v| ≤ v * (1 / 10 ^ (count + 6))) :
    |w - v| ≤ v * (4 / 10 ^ (count + 5)) := by
  set u : ℚ := 1 / 10 ^ (count + 5) with hu
  have hu0 : 0 < u := by positivity
  have hu1 : u ≤ 1 := by
    rw [hu, div_le_one (by positivity)]
    exact one_le_pow₀ (by norm_num)
  have htwo : (2 : ℚ) / 10 ^ (count + 5) = 2 * u := by rw [hu]; ring
  have htenth : (1 : ℚ) / 10 ^ (count + 6) = u / 10 := by rw [hu, pow_succ]; field_simp
  have hfour : (4 : ℚ) / 10 ^ (count + 5) = 4 * u := by rw [hu]; ring
  rw [htwo] at hw
  rw [htenth] at hz
  rw [hfour]
  have hzv : z ≤ v * (11 / 10) := by
    have := (abs_le.1 hz).2
    nlinarith
  calc
    |w - v| ≤ |w - z| + |z - v| := abs_sub_le _ _ _
    _ ≤ z * (2 * u) + v * (u / 10) := add_le_add hw hz
    _ ≤ v * (11 / 10) * (2 * u) + v * (u / 10) := by gcongr
    _ ≤ v * (4 * u) := by nlinarith [mul_nonneg hv hu0.le]

/-- The decimal exponent of a rounded magnitude can be counted. -/
theorem log_nearest_bounds (hf : f.HasSmallExponents) (hx : x.isZero = false) {count : ℕ}
    (hcount : 0 < count) {w : ℚ} (hw : 0 < w)
    (hclose : |w - x.magnitude| ≤ x.magnitude * (4 / 10 ^ (count + 5))) :
    -2 ^ 34 - 1 ≤ Int.log 10 (nearest count w) ∧ Int.log 10 (nearest count w) ≤ 2 ^ 34 := by
  obtain ⟨hlow, hhigh⟩ := Finite.binaryExponent_bounds hf hx
  obtain ⟨hnear1, hnear2⟩ := nearest_bounds hcount hw
  obtain ⟨hv1, hv2⟩ := magnitude_bounds hx
  have hhalf : x.magnitude * (4 / 10 ^ (count + 5)) ≤ x.magnitude * (1 / 2) := by
    refine mul_le_mul_of_nonneg_left ?_ x.magnitude_nonneg
    rw [pow_add, div_le_iff₀ (by positivity)]
    have : (1 : ℚ) ≤ 10 ^ count := one_le_pow₀ (by norm_num)
    linarith
  obtain ⟨hw1, hw2⟩ := abs_le.1 (hclose.trans hhalf)
  refine log_ten_bounds ?_ ?_
  · calc
      (2 : ℚ) ^ (-2 ^ 34 : ℤ) ≤ 2 ^ (x.binaryExponent - 1 + -2) := two_zpow_le (by omega)
      _ = 2 ^ (x.binaryExponent - 1) / 4 := by rw [two_zpow_add]; norm_num; ring
      _ ≤ nearest count w := by linarith
  · calc
      nearest count w ≤ 2 ^ x.binaryExponent * 4 := by linarith
      _ = 2 ^ (x.binaryExponent + 2) := by rw [two_zpow_add]; norm_num
      _ ≤ 2 ^ (2 ^ 34 : ℤ) := two_zpow_le (by omega)

/-- With the power of ten put back, the magnitude taken is off by less than four
units of the last guard digit. -/
theorem abs_taken_mul_sub_le {count m : ℕ} (hm : 0 < m) {e power : ℤ}
    (hlow : -2 ^ 32 ≤ (m.log2 : ℤ) + 1 + e) (hhigh : (m.log2 : ℤ) + 1 + e ≤ 2 ^ 32)
    (hscale : |m * 2 ^ e * 10 ^ power - x.magnitude| ≤ x.magnitude * (1 / 10 ^ (count + 6))) :
    |taken m e count * 10 ^ power - x.magnitude| ≤ x.magnitude * (4 / 10 ^ (count + 5)) := by
  refine abs_sub_le_of_scaled x.magnitude_nonneg count ?_ hscale
  have hpow := ten_zpow_pos power
  rw [← sub_mul, abs_mul, abs_of_pos hpow, mul_right_comm]
  exact mul_le_mul_of_nonneg_right (abs_taken_sub_le hm hlow hhigh count) hpow.le

/-- A nonzero number is printed as the rounding of the magnitude taken from what
it was prepared to. -/
theorem renderFinite?_of_prepare (hf : f.HasSmallExponents) (hx : x.isZero = false) {count : ℕ}
    (hcount : 0 < count) (hcount' : count < 2 ^ 31) {m : ℕ} {e power : ℤ}
    (hprepare : prepare? x count = some ((m, e), power)) :
    ∃ digits point,
      renderFinite? x count = some (String.ofList (layout digits point x.negative count)) ∧
      Trimmed digits ∧ digits.length ≤ count ∧
      positional digits point = nearest count (taken m e count * 10 ^ power) := by
  obtain ⟨m', e', power', hprepare', hm, hlow, hhigh, hscale⟩ := prepare?_spec hf hx hcount'
  obtain ⟨⟨rfl, rfl⟩, rfl⟩ : (m' = m ∧ e' = e) ∧ power' = power := by
    simpa using hprepare'.symm.trans hprepare
  obtain ⟨digits, point, htext, hleading, hvalue⟩ := digitText?_spec hm hlow hhigh hcount'
  obtain ⟨htrimmed, hlength, hround⟩ := roundDigits_spec hleading (point + power') hcount
  rw [positional_add, hvalue] at hround
  have hclose := abs_taken_mul_sub_le hm hlow hhigh hscale
  have hpos : 0 < taken m' e' count * 10 ^ power' :=
    mul_pos (taken_within_half hm hlow hhigh count).2 (ten_zpow_pos power')
  obtain ⟨hlog1, hlog2⟩ := log_nearest_bounds hf hx hcount hpos hclose
  have hlog := htrimmed.log_positional (roundDigits digits (point + power') count).2
  rw [hround] at hlog
  have hword : Word.integer? (roundDigits digits (point + power') count).2 =
      some (roundDigits digits (point + power') count).2 :=
    integer?_of_bounds (by omega) (by omega)
  have hcounted : roundDigits? digits (point + power') count =
      some (roundDigits digits (point + power') count) :=
    roundDigits?_eq_some_iff.2 ⟨rfl, hword⟩
  have hlayout := layout?_eq htrimmed.toLeading x.negative count (by omega)
    (by omega : (roundDigits digits (point + power') count).2 ≤ 2 ^ 62)
  rw [comparable_of_lt (by omega)] at hlayout
  have hne : digits.isEmpty = false := by simpa using hleading.isDigits.1
  refine ⟨_, _, ?_, htrimmed, hlength, hround⟩
  unfold renderFinite?
  simp only [hprepare, htext, hne, hcounted, hlayout, Option.bind_eq_bind, Option.bind_some,
    Bool.false_eq_true, if_false]
  rfl

/-- A nonzero number is printed as the rounding of a magnitude that is off by
less than four units of the last guard digit. -/
theorem renderFinite?_spec (hf : f.HasSmallExponents) (hx : x.isZero = false) {count : ℕ}
    (hcount : 0 < count) (hcount' : count < 2 ^ 31) :
    ∃ w digits point,
      renderFinite? x count = some (String.ofList (layout digits point x.negative count)) ∧
      |w - x.magnitude| ≤ x.magnitude * (4 / 10 ^ (count + 5)) ∧
      Trimmed digits ∧ digits.length ≤ count ∧ positional digits point = nearest count w := by
  obtain ⟨m, e, power, hprepare, hm, hlow, hhigh, hscale⟩ := prepare?_spec hf hx hcount'
  obtain ⟨digits, point, hrender, htrimmed, hlength, hvalue⟩ :=
    renderFinite?_of_prepare hf hx hcount hcount' hprepare
  exact ⟨_, digits, point, hrender, abs_taken_mul_sub_le hm hlow hhigh hscale, htrimmed, hlength,
    hvalue⟩

theorem render?_of_isZero (h : x.isZero = true) (count : ℕ) :
    (Floating.finite x).render? count = some "0" :=
  if_pos h

theorem render?_of_isZero_eq_false (h : x.isZero = false)
    (count : ℕ) : (Floating.finite x).render? count = renderFinite? x count :=
  if_neg (Bool.eq_false_iff.1 h)

/-- What is that close to a positive magnitude is not zero. -/
theorem isZero_of_close {count : ℕ} {r : ℚ} (hr : 0 < r)
    (hclose : |x.magnitude - r| ≤ r * (2 / 5 / 10 ^ count)) : x.isZero = false := by
  rw [Bool.eq_false_iff, Ne, ← Finite.magnitude_eq_zero_iff]
  intro hzero
  have hone : (1 : ℚ) ≤ 10 ^ count := one_le_pow₀ (by norm_num)
  rw [hzero, zero_sub, abs_neg, abs_of_pos hr, le_mul_iff_one_le_right hr,
    le_div_iff₀ (by positivity)] at hclose
  linarith

/-- A number within two fifths of the last of `count` digits of a magnitude of so many digits
is printed as it. -/
theorem renderFinite?_of_close (hf : f.HasSmallExponents) {count : ℕ} (hcount : 0 < count)
    (hcount' : count < 2 ^ 31) {digits : List Char} {point : ℤ} (h : Trimmed digits)
    (hlength : digits.length ≤ count) (hclose : |x.magnitude - positional digits point| ≤
      positional digits point * (2 / 5 / 10 ^ count)) :
    renderFinite? x count = some (String.ofList (layout digits point x.negative count)) := by
  have hr := h.positional_pos point
  obtain ⟨w, digits', point', hrender, hw, htrimmed, -, hvalue⟩ :=
    renderFinite?_spec hf (isZero_of_close hr hclose) hcount hcount'
  set r := positional digits point with hrdef
  have hone : (1 : ℚ) ≤ 10 ^ count := one_le_pow₀ (by norm_num)
  have hwr : |w - r| < r / (10 ^ count * 2) := by
    have hv : x.magnitude ≤ 2 * r := by
      have hle : r * (2 / 5 / 10 ^ count) ≤ r := by
        refine mul_le_of_le_one_right hr.le ?_
        rw [div_le_one (by positivity)]
        linarith
      have := (abs_le.1 hclose).2
      linarith
    calc
      |w - r| ≤ |w - x.magnitude| + |x.magnitude - r| := abs_sub_le _ _ _
      _ ≤ x.magnitude * (4 / 10 ^ (count + 5)) + r * (2 / 5 / 10 ^ count) := add_le_add hw hclose
      _ ≤ 2 * r * (4 / 10 ^ (count + 5)) + r * (2 / 5 / 10 ^ count) := by gcongr
      _ = r / 10 ^ count * (40008 / 100000) := by rw [pow_add]; field_simp; norm_num
      _ < r / 10 ^ count * (1 / 2) := mul_lt_mul_of_pos_left (by norm_num) (by positivity)
      _ = r / (10 ^ count * 2) := by field_simp
  rw [nearest_eq_of_close hr (h.eq_mul_place hlength point) hwr] at hvalue
  obtain ⟨rfl, rfl⟩ := htrimmed.unique h hvalue
  exact hrender

end AnyFormat

/-! ## The printed number -/

/-- A text is read as the magnitude it was laid out for. -/
theorem read?_layout {digits : List Char} (h : Leading digits) (point : ℤ) (negative : Bool)
    (count : ℕ) :
    ∃ n, Numeral.read? (layout digits point negative count) = some n ∧
      n.negative = negative ∧ n.magnitude = positional digits point := by
  obtain ⟨n, hwritten, hnegative, hmagnitude⟩ := written_layout h point negative count
  exact ⟨n, hwritten.read?, hnegative, hmagnitude⟩

/-- A number is printed as the decimal of at most `count` digits nearest to it,
a tie going away from zero. -/
def PrintsNearest {f : Format} (x : Finite f) (count : ℕ) : Prop :=
  ∃ text n, (Floating.finite x).render? count = some text ∧ Numeral.read? text.toList = some n ∧
    n.negative = x.negative ∧ n.magnitude = nearest count x.magnitude

/-- Every nonzero number is printed as the nearest decimal, however long its mantissa is, unless
a tie is within the last guard digits of it. -/
theorem printsNearest_away_from_ties {precision : ℕ} {hp : 0 < precision}
    (hlong : precision ≤ longestPrecision) (x : Finite (Format.wide precision hp))
    (hx : x.isZero = false) {count : ℕ} (hcount : 0 < count) (hcount' : count < 2 ^ 31)
    (htie : ∀ n : ℕ, x.magnitude * (4 / 10 ^ (count + 5)) <
      |(n + 1 / 2) * 10 ^ place count x.magnitude - x.magnitude|) :
    PrintsNearest x count := by
  obtain ⟨w, digits, point, hrender, hclose, htrimmed, -, hvalue⟩ :=
    renderFinite?_spec (hasSmallExponents_wide hlong) hx hcount hcount'
  obtain ⟨n, hn, hneg, hmag⟩ := read?_layout htrimmed.toLeading point x.negative count
  have hx0 : 0 < x.magnitude := (two_zpow_pos _).trans_le (magnitude_bounds hx).1
  have hsmall : x.magnitude * (4 / 10 ^ (count + 5)) ≤ x.magnitude / 10 ^ (count + 3) := by
    rw [mul_div_assoc', div_le_div_iff₀ (by positivity) (by positivity), mul_assoc]
    refine mul_le_mul_of_nonneg_left ?_ hx0.le
    rw [pow_add _ count 3, pow_add _ count 5]
    have : (0 : ℚ) < 10 ^ count := by positivity
    linarith
  have hnearest : nearest count w = nearest count x.magnitude :=
    nearest_congr hcount hx0 (hclose.trans hsmall) fun n => hclose.trans_lt (htie n)
  rw [← render?_of_isZero_eq_false hx] at hrender
  refine ⟨_, n, hrender, by rwa [String.toList_ofList], hneg, ?_⟩
  rw [hmag, hvalue, hnearest]

/-- Three eighths are printed as `0.4` in one digit. -/
theorem printsNearest_away_from_ties_eighths :
    PrintsNearest (⟨false, 3 * 2 ^ 254, -257, by decide +kernel⟩ : Finite Format.decimal) 1 := by
  set x : Finite Format.decimal := ⟨false, 3 * 2 ^ 254, -257, by decide +kernel⟩
  have hmag : x.magnitude = 3 / 8 := by
    change ((3 * 2 ^ 254 : ℕ) : ℚ) * 2 ^ (-257 : ℤ) = 3 / 8
    rw [show (-257 : ℤ) = -254 + -3 by norm_num, two_zpow_add]
    norm_num
  have hplace : place 1 (3 / 8) = -1 := by
    have := log_ten_add_one_eq (v := (3 / 8 : ℚ)) (e := 0) (by norm_num) (by norm_num)
    unfold place
    omega
  have htie (n : ℕ) : x.magnitude * (4 / 10 ^ (1 + 5)) <
      |(n + 1 / 2) * 10 ^ place 1 x.magnitude - x.magnitude| := by
    rw [hmag, hplace]
    rcases le_or_gt n 3 with hn | hn
    · have : (n : ℚ) ≤ 3 := by exact_mod_cast hn
      rw [abs_of_nonpos (by norm_num; linarith)]
      norm_num
      linarith
    · have : (4 : ℚ) ≤ n := by exact_mod_cast hn
      rw [abs_of_nonneg (by norm_num; linarith)]
      norm_num
      linarith
  exact printsNearest_away_from_ties (by decide) x (by decide +kernel) one_pos (by norm_num) htie

/-- A number just below a tie is rounded up to the tie by its guard digits, and
then rounded up once more. -/
theorem not_printsNearest_below_tie :
    ¬ ∀ (x : Finite Format.decimal) (count : ℕ), x.isZero = false → 0 < count →
      PrintsNearest x count := by
  intro h
  set x : Finite Format.decimal :=
    ⟨false, 57896044618658097711785492504343953926634992332823176821380764462655573117475, -255,
      by decide +kernel⟩ with hx
  obtain ⟨text, n, htext, hn, -, hmag⟩ := h x 50 (by decide +kernel) (by norm_num)
  have hrender : (Floating.finite x).render? 50 =
      some "1.0000000000000000000000000000000000000000000000001" := by
    decide +kernel
  rw [hrender, Option.some.injEq] at htext
  have hread : Numeral.read? "1.0000000000000000000000000000000000000000000000001".toList =
      some ⟨false, 10 ^ 49 + 1, -49⟩ := by
    decide +kernel
  rw [← htext, hread, Option.some.injEq] at hn
  -- the number is closer to one than to the next number of fifty digits
  have hvalue : x.magnitude =
      57896044618658097711785492504343953926634992332823176821380764462655573117475 / 2 ^ 255 := by
    rw [hx, Finite.magnitude]
    norm_num
  have hplace : place 50 x.magnitude = -49 := by
    have := log_ten_add_one_eq (v := x.magnitude) (e := 1) (by rw [hvalue]; norm_num)
      (by rw [hvalue]; norm_num)
    unfold place
    omega
  have hround : Tie.up.round (x.magnitude / 10 ^ (-49 : ℤ)) = 10 ^ 49 := by
    refine Tie.up.round_eq_of_abs_sub_lt (div_nonneg x.magnitude_nonneg (ten_zpow_pos _).le) ?_
    rw [hvalue]
    norm_num [abs_lt]
  rw [← hn, nearest, hplace, hround, Numeral.magnitude] at hmag
  norm_num at hmag

end Abacus.Decimal
