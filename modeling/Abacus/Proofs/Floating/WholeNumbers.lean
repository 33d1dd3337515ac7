/-
Abacus.Proofs.Floating.WholeNumbers — arithmetic on whole numbers is exact.

Every whole number of at most the full precision is a number of the format.
So a sum, difference, product or quotient of whole numbers that is itself
such a whole number is not rounded, whatever the signs of its zeros.
-/
import Abacus.Floating.Integers
import Abacus.Proofs.Floating.Nearest

namespace Abacus

/-- A format that keeps every whole number of its precision, with room above
and below. -/
structure Format.HasWholeNumbers (f : Format) : Prop where
  minExponent_add_precision_le : f.minExponent + f.precision ≤ 0
  precision_lt : (f.precision : ℤ) < f.maxExponent

namespace Finite

variable {f : Format}

/-- The number with its sign. -/
def value (x : Finite f) : ℚ :=
  x.signedMantissa * 2 ^ x.exponent

theorem value_eq (x : Finite f) :
    x.value = if x.negative then -x.magnitude else x.magnitude := by
  unfold value signedMantissa withSign magnitude
  split_ifs <;> push_cast <;> ring

theorem abs_value (x : Finite f) : |x.value| = x.magnitude := by
  rw [value_eq]
  split_ifs
  · rw [abs_neg, abs_of_nonneg x.magnitude_nonneg]
  · exact abs_of_nonneg x.magnitude_nonneg

theorem value_eq_zero_iff {x : Finite f} : x.value = 0 ↔ x.isZero = true := by
  rw [← abs_eq_zero, abs_value, magnitude_eq_zero_iff]

theorem value_ne_zero_iff {x : Finite f} : x.value ≠ 0 ↔ x.isZero = false := by
  rw [Ne, value_eq_zero_iff, Bool.not_eq_true]

@[simp] theorem value_zero (negative : Bool) : (zero negative : Finite f).value = 0 :=
  value_eq_zero_iff.2 rfl

@[simp] theorem value_neg (x : Finite f) : x.neg.value = -x.value := by
  unfold value signedMantissa withSign neg
  cases x.negative <;> simp

theorem value_of_sign {x : Finite f} {v : ℚ} (hs : x.negative = decide (v < 0))
    (hm : x.magnitude = |v|) : x.value = v := by
  rw [value_eq, hs, hm]
  by_cases hv : v < 0
  · simp [hv, abs_of_neg hv]
  · simp [hv, abs_of_nonneg (not_lt.1 hv)]

theorem magnitude_of_value {x : Finite f} {n : ℤ} (h : x.value = n) :
    x.magnitude = n.natAbs := by
  rw [← abs_value, h, Nat.cast_natAbs, Int.cast_abs]

/-- The sign of a number other than zero. -/
theorem negative_of_value {x : Finite f} {n : ℤ} (h : x.value = n) (hn : n ≠ 0) :
    x.negative = decide (n < 0) := by
  have hpos : 0 < x.magnitude := by
    rw [magnitude_of_value h]
    exact_mod_cast Int.natAbs_pos.2 hn
  rw [value_eq] at h
  cases hs : x.negative
  · rw [hs, if_neg Bool.false_ne_true] at h
    have : (0 : ℚ) < n := h ▸ hpos
    symm
    simpa using le_of_lt (by exact_mod_cast this : 0 < n)
  · rw [hs, if_pos rfl] at h
    have : (n : ℚ) < 0 := by linarith
    symm
    simpa using (by exact_mod_cast this : n < 0)

/-! ## The integers near a number -/

theorem binaryExponent_eq {x : Finite f} (h : x.isZero = false) :
    x.binaryExponent = Int.log 2 x.magnitude + 1 := by
  have hm : x.mantissa ≠ 0 := by simpa [isZero] using h
  symm
  refine log_add_one_eq ?_ ?_
  · unfold binaryExponent magnitude
    rw [show (x.mantissa.log2 : ℤ) + 1 + x.exponent - 1 = x.mantissa.log2 + x.exponent by ring,
      two_zpow_add]
    gcongr
    exact_mod_cast Nat.log2_self_le hm
  · unfold binaryExponent magnitude
    rw [two_zpow_add]
    refine mul_lt_mul_of_pos_right ?_ (two_zpow_pos _)
    exact_mod_cast Nat.lt_log2_self

theorem magnitude_lt_two_zpow {x : Finite f} {k : ℤ} (h : x.binaryExponent ≤ k) :
    x.magnitude < 2 ^ k := by
  by_cases hz : x.isZero = true
  · rw [magnitude_eq_zero_iff.2 hz]
    exact two_zpow_pos k
  · rw [binaryExponent_eq (by simpa using hz)] at h
    exact (lt_two_zpow_log _).trans_le (two_zpow_le h)

/-- The binary exponent says how large a number is, except for zero. -/
theorem lt_binaryExponent_iff {x : Finite f} {k : ℤ} (hk : f.minExponent < k) :
    k < x.binaryExponent ↔ 2 ^ k ≤ x.magnitude := by
  constructor
  · intro h
    have hz : x.isZero = false := by
      rw [Bool.eq_false_iff]
      intro hz
      have hm : x.mantissa = 0 := by simpa [isZero] using hz
      have he : x.exponent = f.minExponent :=
        x.canonical.2.2.2.resolve_left (by rw [hm, Nat.le_zero]; positivity)
      rw [binaryExponent, hm, he, Nat.log2_zero] at h
      push_cast at h
      omega
    rw [binaryExponent_eq hz] at h
    exact (two_zpow_le (by omega)).trans (two_zpow_log_le (magnitude_pos hz))
  · intro h
    by_contra hle
    exact h.not_gt (magnitude_lt_two_zpow (not_lt.1 hle))

/-- Without an exponent below zero the magnitude is a whole number. -/
theorem magnitude_of_nonneg {x : Finite f} (h : 0 ≤ x.exponent) :
    x.magnitude = (x.mantissa <<< x.exponent.toNat : ℕ) := by
  unfold magnitude
  rw [Nat.shiftLeft_eq]
  push_cast
  rw [← zpow_natCast, Int.toNat_of_nonneg h]

/-- With an exponent below zero the magnitude is a quotient. -/
theorem magnitude_of_neg {x : Finite f} (h : x.exponent < 0) :
    x.magnitude = x.mantissa / (2 ^ (-x.exponent).toNat : ℕ) := by
  unfold magnitude
  push_cast
  rw [← zpow_natCast, Int.toNat_of_nonneg (by omega), zpow_neg, div_inv_eq_mul]

theorem nearestMagnitude_eq (x : Finite f) : x.nearestMagnitude = Tie.up.round x.magnitude := by
  unfold nearestMagnitude
  split_ifs with h hsmall
  · rw [magnitude_of_nonneg h, Tie.round_natCast]
  · have hlt := magnitude_lt_two_zpow (x := x) (k := -1) (by omega)
    symm
    refine Tie.up.round_eq_of_abs_sub_lt x.magnitude_nonneg ?_
    rw [Nat.cast_zero, zero_sub, abs_neg, abs_of_nonneg x.magnitude_nonneg]
    norm_num at hlt ⊢
    exact hlt
  · rw [magnitude_of_neg (not_le.1 h), roundDiv_eq_round _ _ (by positivity)]

theorem floor_eq (x : Finite f) : x.floor = ⌊x.value⌋ := by
  unfold floor value
  split_ifs with h
  · symm
    rw [Int.floor_eq_iff]
    push_cast
    rw [← zpow_natCast, Int.toNat_of_nonneg h]
    constructor <;> linarith
  · have hcast : (x.signedMantissa : ℚ) * 2 ^ x.exponent =
        x.signedMantissa / (2 ^ (-x.exponent).toNat : ℕ) := by
      push_cast
      rw [← zpow_natCast, Int.toNat_of_nonneg (by omega), zpow_neg, div_inv_eq_mul]
    rw [hcast, Rat.floor_intCast_div_natCast, Int.fdiv_eq_ediv_of_nonneg _ (by positivity)]
    push_cast
    rfl

theorem exists_value_iff {x : Finite f} :
    (∃ n : ℤ, x.value = n) ↔ ∃ n : ℕ, x.magnitude = n := by
  constructor
  · rintro ⟨n, hn⟩
    exact ⟨n.natAbs, magnitude_of_value hn⟩
  · rintro ⟨n, hn⟩
    rw [value_eq, hn]
    split_ifs
    · exact ⟨-n, by push_cast; rfl⟩
    · exact ⟨n, by push_cast; rfl⟩

theorem isIntegral_iff {x : Finite f} : x.isIntegral = true ↔ ∃ n : ℤ, x.value = n := by
  rw [exists_value_iff]
  unfold isIntegral
  split_ifs with hwhole hsmall
  · refine ⟨fun _ => ?_, fun _ => rfl⟩
    rcases Bool.or_eq_true_iff.1 hwhole with hz | he
    · exact ⟨0, by rw [magnitude_eq_zero_iff.2 hz, Nat.cast_zero]⟩
    · exact ⟨_, magnitude_of_nonneg (of_decide_eq_true he)⟩
  · -- between zero and one
    have hz : x.isZero = false := by
      rw [Bool.or_eq_true_iff, not_or] at hwhole
      simpa using hwhole.1
    have hlt := magnitude_lt_two_zpow hsmall
    have hpos := magnitude_pos hz
    refine ⟨nofun, ?_⟩
    rintro ⟨n, hn⟩
    rw [hn] at hlt hpos
    rw [zpow_zero] at hlt
    have : n < 1 := by exact_mod_cast hlt
    have : 0 < n := by exact_mod_cast hpos
    omega
  · have he : x.exponent < 0 := by
      rw [Bool.or_eq_true_iff, not_or, decide_eq_true_eq] at hwhole
      omega
    rw [magnitude_of_neg he, beq_iff_eq, ← Nat.dvd_iff_mod_eq_zero]
    have hden : ((2 ^ (-x.exponent).toNat : ℕ) : ℚ) ≠ 0 := by positivity
    constructor
    · rintro ⟨n, hn⟩
      refine ⟨n, ?_⟩
      rw [hn, Nat.cast_mul, mul_div_cancel_left₀ _ hden]
    · rintro ⟨n, hn⟩
      refine ⟨n, ?_⟩
      rw [div_eq_iff hden, mul_comm] at hn
      exact_mod_cast hn

/-- Whole numbers above the precision are even, whatever their last bits. -/
theorem isOddIntegral_iff {x : Finite f} {n : ℤ} (h : x.value = n) :
    x.isOddIntegral = true ↔ Odd n := by
  have hintegral : x.isIntegral = true := isIntegral_iff.2 ⟨n, h⟩
  have hmag := magnitude_of_value h
  rw [← Int.natAbs_odd, isOddIntegral, hintegral, Bool.true_and, Bool.and_eq_true,
    decide_eq_true_eq, beq_iff_eq]
  rcases le_or_gt x.exponent 0 with he | he
  · have hshift : x.mantissa / 2 ^ (-x.exponent).toNat = n.natAbs := by
      refine Nat.div_eq_of_eq_mul_left (Nat.two_pow_pos _) ?_
      rw [magnitude, two_zpow_eq_div, Int.toNat_of_nonpos he, pow_zero, mul_one_div,
        div_eq_iff (by positivity)] at hmag
      exact_mod_cast hmag
    rw [hshift, Nat.odd_iff]
    exact and_iff_right he
  · have heven : Even n.natAbs := by
      rw [magnitude_of_nonneg he.le, Nat.cast_inj, Nat.shiftLeft_eq] at hmag
      rw [← hmag]
      exact (Nat.even_pow.2 ⟨even_two, by omega⟩).mul_left _
    exact iff_of_false (fun h => by omega) (Nat.not_odd_iff_even.2 heven)

theorem floor_of_value {x : Finite f} {n : ℤ} (h : x.value = n) : x.floor = n := by
  rw [floor_eq, h, Int.floor_intCast]

theorem nearestInteger_of_value {x : Finite f} {n : ℤ} (h : x.value = n) :
    x.nearestInteger = n := by
  have hmag : x.nearestMagnitude = n.natAbs := by
    rw [nearestMagnitude_eq, magnitude_of_value h, Tie.round_natCast]
  unfold nearestInteger withSign
  rw [hmag]
  rcases eq_or_ne n 0 with rfl | hn
  · simp
  · rw [negative_of_value h hn]
    simp only [decide_eq_true_eq]
    split_ifs <;> omega

/-! ## Sums -/

/-- Terms whose exponents are not too far apart, or of which the smaller is
zero, are added exactly. -/
theorem sumOntoSmaller_value {x y : Finite f} (h : y.exponent ≤ x.exponent)
    (hgap : x.exponent - y.exponent ≤ f.precision + 3 ∨ y.isZero = true) :
    ((x.sumOntoSmaller y).1 : ℚ) * 2 ^ (x.sumOntoSmaller y).2 = x.value + y.value := by
  unfold sumOntoSmaller
  dsimp only
  split_ifs with hsmall
  · unfold value
    rw [two_zpow_split h]
    push_cast
    ring
  · have hzero : y.isZero = true := hgap.resolve_left (by omega)
    have hy : y.signedMantissa = 0 := by
      have : y.mantissa = 0 := by simpa [isZero] using hzero
      simp [signedMantissa, withSign, this]
    rw [value_eq_zero_iff.2 hzero, hy]
    unfold value
    push_cast
    rw [show x.exponent = x.exponent - 3 + 3 by ring, two_zpow_add (x.exponent - 3) 3]
    norm_num
    ring

/-- The number that the sum is rounded from. -/
def sumBeforeRounding (x y : Finite f) : ℚ :=
  (x.sumParts y).1 * 2 ^ (x.sumParts y).2

theorem sumParts_value {x y : Finite f}
    (hx : y.isZero = true ∨ x.exponent - y.exponent ≤ f.precision + 3)
    (hy : x.isZero = true ∨ y.exponent - x.exponent ≤ f.precision + 3) :
    x.sumBeforeRounding y = x.value + y.value := by
  unfold sumBeforeRounding sumParts
  split_ifs with h
  · exact sumOntoSmaller_value h hx.symm
  · rw [add_comm]
    exact sumOntoSmaller_value (not_le.1 h).le hy.symm

/-- A sum is rounded once, and has the sign of what it is rounded from. -/
theorem add_standsFor (x y : Finite f) :
    ∃ negative, (x.sumBeforeRounding y ≠ 0 → negative = decide (x.sumBeforeRounding y < 0)) ∧
      (x.add y).StandsFor negative (f.nearest |x.sumBeforeRounding y|) := by
  unfold sumBeforeRounding add
  generalize x.sumParts y = parts
  obtain ⟨sum, scale⟩ := parts
  have hpow := two_zpow_pos scale
  dsimp only
  split_ifs with hzero
  · refine ⟨_, fun hne => absurd ?_ hne, rfl, ?_⟩
    · rw [hzero, Int.cast_zero, zero_mul]
    · rw [hzero, Int.cast_zero, zero_mul, abs_zero, f.nearest_zero, magnitude_zero]
  · have hround := f.round_standsFor (sum < 0) sum.natAbs one_pos scale
    rw [Nat.cast_one, div_one, Nat.cast_natAbs, Int.cast_abs] at hround
    have hsign : (sum : ℚ) * 2 ^ scale < 0 ↔ (sum : ℚ) < 0 :=
      ⟨fun h => neg_of_mul_neg_left h hpow.le, fun h => mul_neg_of_neg_of_pos h hpow⟩
    refine ⟨_, fun _ => decide_eq_decide.2 ?_, by rwa [abs_mul, abs_of_pos hpow]⟩
    rw [hsign]
    exact_mod_cast Iff.rfl

/-! ## Whole numbers -/

/-- The exponent of a whole number of full precision is hardly positive. -/
theorem exponent_le_one (hf : f.HasWholeNumbers) {x : Finite f}
    (hx : x.magnitude ≤ 2 ^ f.precision) : x.exponent ≤ 1 := by
  have hpos := f.precision_pos
  have hroom := hf.minExponent_add_precision_le
  rcases x.canonical.2.2.2 with hm | he
  · by_contra hlt
    have hm' : (2 : ℚ) ^ ((f.precision : ℤ) - 1) ≤ x.mantissa := by
      rw [← f.precision_sub_one, zpow_natCast]
      exact_mod_cast hm
    have : (2 : ℚ) ^ ((f.precision : ℤ) + 1) ≤ 2 ^ (f.precision : ℤ) := by
      calc
        (2 : ℚ) ^ ((f.precision : ℤ) + 1)
          ≤ 2 ^ ((f.precision : ℤ) - 1) * 2 ^ x.exponent := by
            rw [← two_zpow_add]; exact two_zpow_le (by omega)
        _ ≤ x.magnitude := mul_le_mul_of_nonneg_right hm' (two_zpow_pos _).le
        _ ≤ 2 ^ (f.precision : ℤ) := by rw [zpow_natCast]; exact hx
    have := (zpow_le_zpow_iff_right₀ (one_lt_two (α := ℚ))).1 this
    omega
  · omega

/-- A number that is at least one has no exponent far below zero. -/
theorem neg_precision_lt_exponent {x : Finite f} (hx : 1 ≤ x.magnitude) :
    -(f.precision : ℤ) < x.exponent := by
  by_contra hle
  have hlt : (x.mantissa : ℚ) < 2 ^ (f.precision : ℤ) := by exact_mod_cast x.canonical.1
  have : x.magnitude < 1 := by
    calc
      x.magnitude < 2 ^ (f.precision : ℤ) * 2 ^ x.exponent :=
        mul_lt_mul_of_pos_right hlt (two_zpow_pos _)
      _ ≤ 2 ^ (0 : ℤ) := by rw [← two_zpow_add]; exact two_zpow_le (by omega)
      _ = 1 := zpow_zero 2
  linarith

end Finite

namespace Floating

variable {f : Format}

/-- The number is finite and this whole number; zeros of both signs are zero. -/
def IsInt (n : ℤ) (x : Floating f) : Prop :=
  ∃ y : Finite f, x = .finite y ∧ y.value = n

theorem IsInt.unique {x : Floating f} {m n : ℤ} (hm : x.IsInt m) (hn : x.IsInt n) : m = n := by
  obtain ⟨y, rfl, hy⟩ := hm
  obtain ⟨z, hz, hvalue⟩ := hn
  rw [← Floating.finite.inj hz, hy] at hvalue
  exact_mod_cast hvalue

theorem IsInt.isZero_iff {x : Floating f} {n : ℤ} (h : x.IsInt n) : x.isZero = true ↔ n = 0 := by
  obtain ⟨y, rfl, hy⟩ := h
  rw [isZero, ← Finite.value_eq_zero_iff, hy]
  exact_mod_cast Iff.rfl

theorem StandsFor.isInt (hf : f.HasWholeNumbers) {x : Floating f} {n : ℤ} {negative : Bool}
    (h : x.StandsFor negative (f.nearest n.natAbs)) (hn : n.natAbs ≤ 2 ^ f.precision)
    (hs : n ≠ 0 → negative = decide (n < 0)) : x.IsInt n := by
  have hexact : f.nearest n.natAbs = n.natAbs := by
    have hmin := hf.minExponent_add_precision_le
    simpa using f.nearest_of_representable (e := 0) hn (by omega)
  have hrange : (n.natAbs : ℚ) < 2 ^ f.maxExponent := by
    calc
      (n.natAbs : ℚ) ≤ 2 ^ (f.precision : ℤ) := by exact_mod_cast hn
      _ < 2 ^ f.maxExponent := zpow_lt_zpow_right₀ one_lt_two hf.precision_lt
  rw [hexact] at h
  obtain ⟨y, rfl, hneg, hmag⟩ := h.exists_finite hrange
  refine ⟨y, rfl, ?_⟩
  rcases eq_or_ne n 0 with rfl | hn0
  · rw [Int.natAbs_zero, Nat.cast_zero, Finite.magnitude_eq_zero_iff] at hmag
    rw [Finite.value_eq_zero_iff.2 hmag, Int.cast_zero]
  · refine Finite.value_of_sign ?_ ?_
    · rw [hneg, hs hn0]
      exact decide_eq_decide.2 (by exact_mod_cast Iff.rfl)
    · rw [hmag, Nat.cast_natAbs, Int.cast_abs]

theorem isInt_ofInt (hf : f.HasWholeNumbers) {n : ℤ} (hn : n.natAbs ≤ 2 ^ f.precision) :
    (f.ofInt n).IsInt n := by
  have h := f.round_standsFor (n < 0) n.natAbs one_pos 0
  rw [Nat.cast_one, div_one, zpow_zero, mul_one] at h
  exact h.isInt hf hn fun _ => rfl

theorem IsInt.neg {x : Floating f} {n : ℤ} (h : x.IsInt n) : x.neg.IsInt (-n) := by
  obtain ⟨y, rfl, hy⟩ := h
  exact ⟨y.neg, rfl, by rw [Finite.value_neg, hy]; push_cast; rfl⟩

/-! ## The operations -/

/-- The sign of a product. -/
theorem sign_mul {m n : ℤ} (hm : m ≠ 0) (hn : n ≠ 0) :
    (decide (m < 0) != decide (n < 0)) = decide (m * n < 0) := by
  rcases lt_or_gt_of_ne hm with hm | hm <;> rcases lt_or_gt_of_ne hn with hn | hn
  · simp [hm, hn, (mul_pos_of_neg_of_neg hm hn).not_gt]
  · simp [hm, hn.not_gt, mul_neg_of_neg_of_pos hm hn]
  · simp [hm.not_gt, hn, mul_neg_of_pos_of_neg hm hn]
  · simp [hm.not_gt, hn.not_gt, (mul_pos hm hn).not_gt]

variable (hf : f.HasWholeNumbers)
include hf

theorem IsInt.add {x y : Floating f} {m n : ℤ} (hx : x.IsInt m) (hy : y.IsInt n)
    (hm : m.natAbs ≤ 2 ^ f.precision) (hn : n.natAbs ≤ 2 ^ f.precision)
    (hmn : (m + n).natAbs ≤ 2 ^ f.precision) : (x.add y).IsInt (m + n) := by
  obtain ⟨x, rfl, hx⟩ := hx
  obtain ⟨y, rfl, hy⟩ := hy
  -- exponents of whole numbers other than zero are close to each other
  have near {x y : Finite f} {m n : ℤ} (hx : x.value = m) (hy : y.value = n)
      (hm : m.natAbs ≤ 2 ^ f.precision) :
      y.isZero = true ∨ x.exponent - y.exponent ≤ f.precision + 3 := by
    rcases eq_or_ne n 0 with rfl | hn0
    · exact .inl (Finite.value_eq_zero_iff.1 (by simpa using hy))
    · right
      have hle := Finite.exponent_le_one hf (x := x)
        (by rw [Finite.magnitude_of_value hx]; exact_mod_cast hm)
      have hlt := Finite.neg_precision_lt_exponent (x := y)
        (by rw [Finite.magnitude_of_value hy]; exact_mod_cast Int.natAbs_pos.2 hn0)
      omega
  have hsum := Finite.sumParts_value (near hx hy hm) (near hy hx hn)
  obtain ⟨negative, hsign, hround⟩ := x.add_standsFor y
  rw [hsum, hx, hy, ← Int.cast_add] at hsign hround
  rw [← Int.cast_abs, ← Nat.cast_natAbs] at hround
  refine hround.isInt hf hmn fun hne => (hsign (by exact_mod_cast hne)).trans ?_
  exact decide_eq_decide.2 (by exact_mod_cast Iff.rfl)

theorem IsInt.sub {x y : Floating f} {m n : ℤ} (hx : x.IsInt m) (hy : y.IsInt n)
    (hm : m.natAbs ≤ 2 ^ f.precision) (hn : n.natAbs ≤ 2 ^ f.precision)
    (hmn : (m - n).natAbs ≤ 2 ^ f.precision) : (x.sub y).IsInt (m - n) := by
  rw [sub_eq_add_neg] at hmn ⊢
  exact hx.add hf hy.neg hm (by rwa [Int.natAbs_neg]) hmn

/-- A whole number other than zero is kept in full precision. -/
theorem normal_of_natAbs {n : ℤ} (hn : (n.natAbs : ℚ) ≠ 0) :
    (2 : ℚ) ^ (f.minExponent + f.precision - 1) ≤ n.natAbs := by
  have hmin := hf.minExponent_add_precision_le
  calc
    (2 : ℚ) ^ (f.minExponent + f.precision - 1) ≤ 2 ^ (0 : ℤ) := two_zpow_le (by omega)
    _ = 1 := zpow_zero 2
    _ ≤ n.natAbs := by exact_mod_cast Nat.pos_of_ne_zero (by exact_mod_cast hn)

theorem IsInt.mul {x y : Floating f} {m n : ℤ} (hx : x.IsInt m) (hy : y.IsInt n)
    (hmn : (m * n).natAbs ≤ 2 ^ f.precision) : (x.mul y).IsInt (m * n) := by
  obtain ⟨x, rfl, hx⟩ := hx
  obtain ⟨y, rfl, hy⟩ := hy
  have hmag : x.magnitude * y.magnitude = (m * n).natAbs := by
    rw [Finite.magnitude_of_value hx, Finite.magnitude_of_value hy, Int.natAbs_mul, Nat.cast_mul]
  have hround := Finite.mul_standsFor x y (.inr fun h => by
    rw [hmag] at h ⊢
    exact normal_of_natAbs hf h)
  rw [hmag] at hround
  refine hround.isInt hf hmn fun h => ?_
  have hm0 := left_ne_zero_of_mul h
  have hn0 := right_ne_zero_of_mul h
  rw [Finite.negative_of_value hx hm0, Finite.negative_of_value hy hn0, sign_mul hm0 hn0]

/-- The quotient of a multiple. -/
theorem IsInt.div {x y : Floating f} {q n : ℤ} (hx : x.IsInt (q * n)) (hy : y.IsInt n)
    (hn : n ≠ 0) (hq : q.natAbs ≤ 2 ^ f.precision) : (x.div y).IsInt q := by
  have hzero : y.isZero = false := by
    rw [Bool.eq_false_iff]
    exact fun h => hn (hy.isZero_iff.1 h)
  obtain ⟨x, rfl, hx⟩ := hx
  obtain ⟨y, rfl, hy⟩ := hy
  have hmag : x.magnitude / y.magnitude = q.natAbs := by
    have hn' : ((n.natAbs : ℕ) : ℚ) ≠ 0 := by exact_mod_cast Int.natAbs_ne_zero.2 hn
    rw [Finite.magnitude_of_value hx, Finite.magnitude_of_value hy, Int.natAbs_mul, Nat.cast_mul,
      mul_div_cancel_right₀ _ hn']
  have hround := Finite.div_standsFor x (y := y) hzero (.inr fun h => by
    rw [hmag] at h ⊢
    exact normal_of_natAbs hf h)
  rw [hmag] at hround
  change (if y.isZero then _ else x.div y).IsInt q
  rw [show y.isZero = false from hzero, if_neg Bool.false_ne_true]
  refine hround.isInt hf hq fun h => ?_
  rw [Finite.negative_of_value hx (mul_ne_zero h hn), Finite.negative_of_value hy hn,
    ← sign_mul h hn, Bool.bne_assoc, bne_self_eq_false, Bool.bne_false]

end Floating

end Abacus
