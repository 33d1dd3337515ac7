/-
Abacus.Proofs.Decimal.Estimates — how far estimated exponents are off.

Decimal exponents are estimated from binary ones by a product with a rounded
`log₁₀ 2`, and bits from digits by one with a rounded `log₂ 10`.  The products
err by little more than one part in `2 ^ 53`, which is less than one for every
exponent a format has.  What the estimates say about powers of two and of ten
then follows from two such powers that nearly agree.
-/
import Abacus.Decimal.Rendering
import Abacus.Proofs.Decimal.Digits

namespace Abacus.Decimal

/-! ## Powers of two and powers of ten -/

/-- Two powers whose order is known order all powers of their bases. -/
theorem pow_le_pow_of_ratio {x y a b m n : ℕ} (hbase : x ^ a ≤ y ^ b) (ha : a ≠ 0) (hy : 0 < y)
    (h : b * m ≤ a * n) : x ^ m ≤ y ^ n := by
  rw [← Nat.pow_le_pow_iff_left ha]
  calc
    (x ^ m) ^ a = (x ^ a) ^ m := pow_right_comm x m a
    _ ≤ (y ^ b) ^ m := Nat.pow_le_pow_left hbase m
    _ = y ^ (b * m) := (pow_mul y b m).symm
    _ ≤ y ^ (a * n) := Nat.pow_le_pow_right hy h
    _ = (y ^ n) ^ a := by rw [mul_comm, pow_mul]

theorem two_pow_le_ten_pow {m n : ℕ} (h : 76573 * m ≤ 254370 * n) : 2 ^ m ≤ 10 ^ n := by
  have hbase : 2 ^ 254370 ≤ 10 ^ 76573 := by decide +kernel
  exact pow_le_pow_of_ratio hbase (by norm_num) (by norm_num) h

theorem ten_pow_le_two_pow {m n : ℕ} (h : 325147 * m ≤ 97879 * n) : 10 ^ m ≤ 2 ^ n := by
  have hbase : 10 ^ 97879 ≤ 2 ^ 325147 := by decide +kernel
  exact pow_le_pow_of_ratio hbase (by norm_num) (by norm_num) h

/-- The two ratios are on both sides of `log₁₀ 2`; which of them is needed
depends on the sign. -/
theorem ten_zpow_le_two_zpow {m n : ℤ} (hlow : 325147 * m ≤ 97879 * n)
    (hhigh : 254370 * m ≤ 76573 * n) : (10 : ℚ) ^ m ≤ 2 ^ n := by
  rcases le_or_gt 0 n with hn | hn
  · rcases le_or_gt 0 m with hm | hm
    · obtain ⟨a, rfl⟩ := Int.eq_ofNat_of_zero_le hm
      obtain ⟨b, rfl⟩ := Int.eq_ofNat_of_zero_le hn
      exact_mod_cast ten_pow_le_two_pow (by omega)
    · calc
        (10 : ℚ) ^ m ≤ 10 ^ (0 : ℤ) := ten_zpow_le_ten_zpow hm.le
        _ = 2 ^ (0 : ℤ) := by norm_num
        _ ≤ 2 ^ n := two_zpow_le hn
  · obtain ⟨a, rfl⟩ : ∃ a : ℕ, m = -a := ⟨(-m).toNat, by omega⟩
    obtain ⟨b, rfl⟩ : ∃ b : ℕ, n = -b := ⟨(-n).toNat, by omega⟩
    rw [zpow_neg, zpow_neg]
    refine inv_anti₀ (by positivity) ?_
    exact_mod_cast two_pow_le_ten_pow (by omega)

theorem two_zpow_le_ten_zpow {m n : ℤ} (hlow : 97879 * m ≤ 325147 * n)
    (hhigh : 76573 * m ≤ 254370 * n) : (2 : ℚ) ^ m ≤ 10 ^ n := by
  have h := ten_zpow_le_two_zpow (m := -n) (n := -m) (by omega) (by omega)
  rw [zpow_neg, zpow_neg] at h
  exact (inv_le_inv₀ (ten_zpow_pos n) (two_zpow_pos m)).1 h

/-! ## Estimates -/

/-- Numbers of one sign differ by what their magnitudes do. -/
theorem abs_value_sub_mul {f : Format} {z : Finite f} {n : ℤ} (h : z.negative = decide (n < 0))
    (v : ℚ) : |z.value - n * v| = |z.magnitude - |(n : ℚ)| * v| := by
  rw [Finite.value_eq, h]
  rcases lt_or_ge n 0 with hlt | hge
  · rw [if_pos (decide_eq_true hlt), abs_of_neg (by exact_mod_cast hlt : (n : ℚ) < 0), ← abs_neg]
    congr 1
    ring
  · rw [if_neg (by simpa using hge), abs_of_nonneg (by exact_mod_cast hge : (0 : ℚ) ≤ n)]

/-- An estimate is the product, up to one rounding. -/
theorem exists_estimate {n : ℤ} (hn : n.natAbs ≤ 2 ^ 53) {k : Finite Format.binary64}
    (hk : k.negative = false) (hlow : (2 : ℚ) ^ (-10 : ℤ) ≤ k.magnitude)
    (hhigh : k.magnitude ≤ 2 ^ (10 : ℤ)) :
    ∃ z : Finite Format.binary64, estimate n (.finite k) = .finite z ∧
      |z.value - n * k.magnitude| ≤ |(n : ℚ)| * k.magnitude / 2 ^ 53 := by
  have hwhole : Format.binary64.HasWholeNumbers := ⟨by decide, by decide⟩
  obtain ⟨y, hy, hvalue⟩ := Floating.isInt_ofInt hwhole hn
  have hmag : y.magnitude = n.natAbs := Finite.magnitude_of_value hvalue
  have hnabs : ((n.natAbs : ℕ) : ℚ) = |(n : ℚ)| := by rw [Nat.cast_natAbs, Int.cast_abs]
  have hkpos : 0 < k.magnitude := (two_zpow_pos _).trans_le hlow
  have hproduct := Finite.mul_standsFor y k (.inl rfl)
  rw [hk, Bool.bne_false, hmag] at hproduct
  have hrange : Format.binary64.nearest (n.natAbs * k.magnitude) < 2 ^ (1024 : ℤ) := by
    have htop : (n.natAbs : ℚ) * k.magnitude ≤ (1 : ℕ) * 2 ^ (63 : ℤ) := by
      calc
        (n.natAbs : ℚ) * k.magnitude ≤ 2 ^ (53 : ℤ) * 2 ^ (10 : ℤ) := by
          refine mul_le_mul ?_ hhigh hkpos.le (by positivity)
          exact_mod_cast hn
        _ = (1 : ℕ) * 2 ^ (63 : ℤ) := by norm_num
    calc
      Format.binary64.nearest (n.natAbs * k.magnitude)
        ≤ Format.binary64.nearest ((1 : ℕ) * 2 ^ (63 : ℤ)) :=
          Format.binary64.nearest_mono (by positivity) htop
      _ = (1 : ℕ) * 2 ^ (63 : ℤ) :=
          Format.binary64.nearest_of_representable Nat.one_le_two_pow (by decide)
      _ < 2 ^ (1024 : ℤ) := by
          rw [Nat.cast_one, one_mul]
          exact zpow_lt_zpow_right₀ one_lt_two (by norm_num)
  obtain ⟨z, hz, hsign, hzmag⟩ := hproduct.exists_finite hrange
  refine ⟨z, by rw [estimate, hy]; exact hz, ?_⟩
  rcases eq_or_ne n 0 with rfl | hn0
  · have hzero : z.value = 0 := by
      rw [Finite.value_eq_zero_iff, ← Finite.magnitude_eq_zero_iff, hzmag]
      simp
    rw [hzero]
    simp
  · have hone : (1 : ℚ) ≤ |(n : ℚ)| := by
      rw [← hnabs]
      exact_mod_cast Int.natAbs_pos.2 hn0
    have hnormal : (2 : ℚ) ^ (Format.binary64.minExponent + Format.binary64.precision - 1) ≤
        n.natAbs * k.magnitude := by
      calc
        (2 : ℚ) ^ (Format.binary64.minExponent + Format.binary64.precision - 1)
          ≤ 2 ^ (-10 : ℤ) := two_zpow_le (by decide)
        _ ≤ 1 * k.magnitude := by rw [one_mul]; exact hlow
        _ ≤ n.natAbs * k.magnitude := by
          rw [hnabs]
          exact mul_le_mul_of_nonneg_right hone hkpos.le
    have herr := Format.binary64.abs_nearest_sub_le_mul hnormal
    rw [← hzmag, hnabs] at herr
    have hneg : z.negative = decide (n < 0) := by
      rw [hsign, Finite.negative_of_value hvalue hn0]
    exact (abs_value_sub_mul hneg k.magnitude).le.trans herr

theorem exists_logTenOfTwo : ∃ k : Finite Format.binary64, logTenOfTwo = .finite k ∧
    k.negative = false ∧ k.magnitude = 5422874305198591 / 2 ^ 54 := by
  refine ⟨⟨false, 5422874305198591, -54, by decide⟩, by decide +kernel, rfl, ?_⟩
  norm_num [Finite.magnitude]

theorem exists_logTwoOfTen : ∃ k : Finite Format.binary64, logTwoOfTen = .finite k ∧
    k.negative = false ∧ k.magnitude = 7480317065143153 / 2 ^ 51 := by
  refine ⟨⟨false, 7480317065143153, -51, by decide⟩, by decide +kernel, rfl, ?_⟩
  norm_num [Finite.magnitude]

/-- A decimal exponent is estimated with an error of a part in `2 ^ 53`. -/
theorem exists_estimate_logTenOfTwo {n : ℤ} (hn : n.natAbs ≤ 2 ^ 53) :
    ∃ z : Finite Format.binary64, estimate n logTenOfTwo = .finite z ∧
      |z.value - n * (5422874305198591 / 2 ^ 54)| ≤
        |(n : ℚ)| * (5422874305198591 / 2 ^ 54) / 2 ^ 53 := by
  obtain ⟨k, hk, hneg, hmag⟩ := exists_logTenOfTwo
  have h := exists_estimate hn hneg (by rw [hmag]; norm_num) (by rw [hmag]; norm_num)
  rwa [← hk, hmag] at h

theorem ceil_eq (z : Finite Format.binary64) : (Floating.finite z).ceil = ⌈z.value⌉ := by
  change -z.neg.floor = ⌈z.value⌉
  rw [Finite.floor_eq, Finite.value_neg, Int.floor_neg, neg_neg]

/-- The zeros in front of a number are counted nearly down to its first
digit. -/
theorem leadingZeros_spec {e : ℤ} (hlow : -2 ^ 32 ≤ e) (hhigh : e ≤ 2 ^ 32) :
    (2 : ℚ) ^ (-e - 1) ≤ 10 ^ leadingZeros e ∧ leadingZeros e ≤ 2 ^ 31 - 2 ^ 29 := by
  obtain ⟨z, hz, herr⟩ := exists_estimate_logTenOfTwo (n := -e) (by omega)
  have hzeros : leadingZeros e = ⌈z.value⌉₊ := by rw [leadingZeros, hz, ceil_eq, Int.ceil_toNat]
  have hlow' : (-2 ^ 32 : ℚ) ≤ e := by exact_mod_cast hlow
  push_cast at herr
  rw [abs_le] at herr
  rw [hzeros, ← zpow_natCast]
  rcases le_or_gt 0 e with he | he
  · -- no zeros are needed
    have he' : (0 : ℚ) ≤ e := by exact_mod_cast he
    rw [abs_neg, abs_of_nonneg he'] at herr
    have hz0 : z.value ≤ 0 := by
      have h := herr.2
      norm_num at h
      linarith
    rw [Nat.ceil_eq_zero.2 hz0, Nat.cast_zero]
    exact ⟨two_zpow_le_ten_zpow (by omega) (by omega), Nat.zero_le _⟩
  · have he' : (e : ℚ) < 0 := by exact_mod_cast he
    rw [abs_neg, abs_of_neg he'] at herr
    norm_num at herr
    have hle := Nat.le_ceil z.value
    have hlt := Nat.ceil_lt_add_one (by linarith : 0 ≤ z.value)
    generalize ⌈z.value⌉₊ = k at hle hlt
    constructor
    · refine two_zpow_le_ten_zpow ?_ ?_
      · have : (97879 * (-e - 1) : ℚ) ≤ 325147 * (k : ℤ) := by push_cast; linarith
        exact_mod_cast this
      · have : (76573 * (-e - 1) : ℚ) ≤ 254370 * (k : ℤ) := by push_cast; linarith
        exact_mod_cast this
    · have : (k : ℚ) < 2 ^ 31 - 2 ^ 29 := by linarith
      have hnat : k < 2 ^ 31 - 2 ^ 29 := by
        norm_num at this ⊢
        exact_mod_cast this
      exact hnat.le

/-- Larger numbers have no more zeros in front. -/
theorem leadingZeros_antitone {d e : ℤ} (hlow : -2 ^ 32 ≤ d) (hde : d ≤ e) (hhigh : e ≤ 2 ^ 32) :
    leadingZeros e ≤ leadingZeros d := by
  rcases hde.eq_or_lt with rfl | hlt
  · exact le_rfl
  obtain ⟨y, hy, hyerr⟩ := exists_estimate_logTenOfTwo (n := -d) (by omega)
  obtain ⟨z, hz, hzerr⟩ := exists_estimate_logTenOfTwo (n := -e) (by omega)
  rw [leadingZeros, leadingZeros, hy, hz, ceil_eq, ceil_eq, Int.ceil_toNat, Int.ceil_toNat]
  refine Nat.ceil_mono ?_
  -- one unit of the exponent is more than both errors
  have hstep : (d : ℚ) + 1 ≤ e := by exact_mod_cast hlt
  have hd : |((-d : ℤ) : ℚ)| ≤ 2 ^ 32 := by
    rw [abs_le]
    exact ⟨by exact_mod_cast (by omega : -2 ^ 32 ≤ -d), by exact_mod_cast (by omega : -d ≤ 2 ^ 32)⟩
  have he : |((-e : ℤ) : ℚ)| ≤ 2 ^ 32 := by
    rw [abs_le]
    exact ⟨by exact_mod_cast (by omega : -2 ^ 32 ≤ -e), by exact_mod_cast (by omega : -e ≤ 2 ^ 32)⟩
  have hy1 := (abs_le.1 hyerr).1
  have hz2 := (abs_le.1 hzerr).2
  push_cast at hy1 hz2 hd he
  norm_num at hy1 hz2 hd he
  linarith

/-- The estimate of a decimal exponent is at most one too large. -/
theorem floor_estimate_spec {e : ℤ} (hlow : -2 ^ 32 ≤ e) (hhigh : e ≤ 2 ^ 32) :
    (10 : ℚ) ^ ((estimate e logTenOfTwo).floor - 1) ≤ 2 ^ e := by
  obtain ⟨z, hz, herr⟩ := exists_estimate_logTenOfTwo (n := e) (by omega)
  have hfloor : (estimate e logTenOfTwo).floor = ⌊z.value⌋ := by
    rw [hz]
    exact z.floor_eq
  have hle : ((estimate e logTenOfTwo).floor : ℚ) ≤ z.value := by
    rw [hfloor]
    exact Int.floor_le _
  have hlow' : (-2 ^ 32 : ℚ) ≤ e := by exact_mod_cast hlow
  have hhigh' : (e : ℚ) ≤ 2 ^ 32 := by exact_mod_cast hhigh
  rw [abs_le] at herr
  generalize (estimate e logTenOfTwo).floor = k at hle
  have hbounds : (325147 * (k - 1) : ℚ) ≤ 97879 * e ∧ (254370 * (k - 1) : ℚ) ≤ 76573 * e := by
    rcases abs_cases (e : ℚ) with ⟨habs, he⟩ | ⟨habs, he⟩
    all_goals
      rw [habs] at herr
      norm_num at herr
      constructor <;> linarith
  exact ten_zpow_le_two_zpow (by exact_mod_cast hbounds.1) (by exact_mod_cast hbounds.2)

/-- The bits for a number of digits are more than their power of ten has. -/
theorem nominalBits?_spec {digits : ℕ} (h : digits ≤ 2 ^ 32) :
    ∃ bits, nominalBits? digits = some bits ∧ 10 ^ digits * 2 ^ 36 ≤ 2 ^ bits ∧
      bits < 2 ^ 40 := by
  obtain ⟨k, hk, hneg, hmag⟩ := exists_logTwoOfTen
  obtain ⟨z, hz, herr⟩ := exists_estimate (n := digits) (by omega) hneg
    (by rw [hmag]; norm_num) (by rw [hmag]; norm_num)
  rw [hmag, abs_le] at herr
  have hn0 : (0 : ℚ) ≤ (digits : ℤ) := by exact_mod_cast Nat.zero_le digits
  have hn1 : ((digits : ℤ) : ℚ) ≤ 2 ^ 32 := by exact_mod_cast h
  rw [abs_of_nonneg hn0] at herr
  have hceil : (estimate digits logTwoOfTen).ceil = ⌈z.value⌉ := by rw [hk, hz, ceil_eq]
  have hle := Int.le_ceil z.value
  have hlt := Int.ceil_lt_add_one z.value
  norm_num at herr
  have hc0 : 0 ≤ ⌈z.value⌉ := by
    have : (-1 : ℚ) < ⌈z.value⌉ := by push_cast at hn0; linarith
    have : (-1 : ℤ) < ⌈z.value⌉ := by exact_mod_cast this
    omega
  have hc1 : ⌈z.value⌉ < 2 ^ 36 := by
    have : (⌈z.value⌉ : ℚ) < 2 ^ 36 := by push_cast at hn1; linarith
    exact_mod_cast this
  obtain ⟨c, hc⟩ := Int.eq_ofNat_of_zero_le hc0
  have hratio : 325147 * digits ≤ 97879 * (c + 28) := by
    rw [hc] at hle
    have : (325147 * digits : ℚ) ≤ 97879 * (c + 28) := by
      push_cast at hle hn0 hn1
      linarith
    exact_mod_cast this
  have hc1' : c < 2 ^ 36 := by omega
  have hmin : min ⌈z.value⌉.toNat Word.largest = c := by
    rw [hc, Int.toNat_natCast]
    unfold Word.largest Word.modulus
    omega
  refine ⟨(c + 63) / 64 * 64 + 64, ?_, ?_, by omega⟩
  · unfold nominalBits?
    rw [hceil, hmin]
    have hfirst : Word.natural? (c + 63) = some (c + 63) :=
      Word.natural?_eq_some_iff.2 ⟨by unfold Word.modulus; omega, rfl⟩
    have hsecond : Word.natural? ((c + 63) / 64 * 64 + 64) = some ((c + 63) / 64 * 64 + 64) :=
      Word.natural?_eq_some_iff.2 ⟨by unfold Word.modulus; omega, rfl⟩
    simp only [hfirst, hsecond, Option.bind_eq_bind, Option.bind_some]
  · calc
      10 ^ digits * 2 ^ 36 ≤ 2 ^ (c + 28) * 2 ^ 36 :=
        Nat.mul_le_mul_right _ (ten_pow_le_two_pow hratio)
      _ = 2 ^ (c + 64) := by rw [← pow_add]
      _ ≤ 2 ^ ((c + 63) / 64 * 64 + 64) := Nat.pow_le_pow_right (by norm_num) (by omega)

end Abacus.Decimal
