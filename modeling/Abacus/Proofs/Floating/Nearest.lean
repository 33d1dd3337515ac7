/-
Abacus.Proofs.Floating.Nearest — the number to which a magnitude is rounded.

`Format.nearest` rounds a rational magnitude to the multiples of a power of
two that a format keeps for it, without a largest number.  `Format.round`
gives the floating-point number of that magnitude, or an infinity when there
is none (`round_standsFor`); so whatever is known of `nearest` (that it is
monotone, fixes what the format has, and errs by half a unit) holds of every
operation that rounds.
-/
import Abacus.Floating.Arithmetic
import Abacus.Proofs.Rounding

namespace Abacus

/-! ## Powers of two -/

theorem two_zpow_pos (k : ℤ) : (0 : ℚ) < 2 ^ k :=
  zpow_pos two_pos k

theorem two_zpow_le {a b : ℤ} (h : a ≤ b) : (2 : ℚ) ^ a ≤ 2 ^ b :=
  zpow_le_zpow_right₀ one_le_two h

theorem two_zpow_add (a b : ℤ) : (2 : ℚ) ^ (a + b) = 2 ^ a * 2 ^ b :=
  zpow_add₀ two_ne_zero a b

/-- The larger power is a whole multiple of the smaller one. -/
theorem two_zpow_split {a b : ℤ} (h : b ≤ a) : (2 : ℚ) ^ a = 2 ^ (a - b).toNat * 2 ^ b := by
  rw [← zpow_natCast, Int.toNat_of_nonneg (by omega), ← two_zpow_add, sub_add_cancel]

/-- A power with an integral exponent as a quotient of natural powers. -/
theorem two_zpow_eq_div (k : ℤ) : (2 : ℚ) ^ k = 2 ^ k.toNat / 2 ^ (-k).toNat := by
  obtain ⟨n, rfl | rfl⟩ := k.eq_nat_or_neg <;> simp

/-- The exponent `e` with `2 ^ (e - 1) ≤ v < 2 ^ e` is the only one. -/
theorem log_add_one_eq {v : ℚ} {e : ℤ} (hle : 2 ^ (e - 1) ≤ v) (hlt : v < 2 ^ e) :
    Int.log 2 v + 1 = e := by
  have hv : 0 < v := (two_zpow_pos _).trans_le hle
  have habove := (Int.lt_zpow_iff_log_lt one_lt_two hv).1 (by exact_mod_cast hlt)
  have hbelow := (Int.zpow_le_iff_le_log one_lt_two hv).1 (by exact_mod_cast hle)
  omega

theorem two_zpow_log_le {v : ℚ} (hv : 0 < v) : 2 ^ Int.log 2 v ≤ v := by
  exact_mod_cast Int.zpow_log_le_self one_lt_two hv

theorem lt_two_zpow_log (v : ℚ) : v < 2 ^ (Int.log 2 v + 1) := by
  exact_mod_cast Int.lt_zpow_succ_log_self one_lt_two v

theorem exponentAbove_eq {num den : ℕ} (hnum : 0 < num) (hden : 0 < den) :
    exponentAbove num den = Int.log 2 ((num : ℚ) / den) + 1 := by
  have hn : (0 : ℚ) < num := by exact_mod_cast hnum
  have hd : (0 : ℚ) < den := by exact_mod_cast hden
  have hnle : (2 : ℚ) ^ (num.log2 : ℤ) ≤ num := by
    exact_mod_cast Nat.log2_self_le hnum.ne'
  have hnlt : (num : ℚ) < 2 ^ ((num.log2 : ℤ) + 1) := by
    exact_mod_cast Nat.lt_log2_self
  have hdle : (2 : ℚ) ^ (den.log2 : ℤ) ≤ den := by
    exact_mod_cast Nat.log2_self_le hden.ne'
  have hdlt : (den : ℚ) < 2 ^ ((den.log2 : ℤ) + 1) := by
    exact_mod_cast Nat.lt_log2_self
  set gap : ℤ := (num.log2 : ℤ) - den.log2 with hgap
  -- the quotient is within a factor of two of `2 ^ gap`
  have hlow : (2 : ℚ) ^ (gap - 1) ≤ num / den := by
    rw [le_div_iff₀ hd]
    calc
      (2 : ℚ) ^ (gap - 1) * den ≤ 2 ^ (gap - 1) * 2 ^ ((den.log2 : ℤ) + 1) := by gcongr
      _ = 2 ^ (num.log2 : ℤ) := by rw [← two_zpow_add, hgap]; congr 1; ring
      _ ≤ num := hnle
  have hhigh : (num : ℚ) / den < 2 ^ (gap + 1) := by
    rw [div_lt_iff₀ hd]
    calc
      (num : ℚ) < 2 ^ ((num.log2 : ℤ) + 1) := hnlt
      _ = 2 ^ (gap + 1) * 2 ^ (den.log2 : ℤ) := by rw [← two_zpow_add, hgap]; congr 1; ring
      _ ≤ 2 ^ (gap + 1) * den := by gcongr
  have htest : den <<< gap.toNat ≤ num <<< (-gap).toNat ↔ (2 : ℚ) ^ gap ≤ num / den := by
    rw [two_zpow_eq_div, div_le_div_iff₀ (by positivity) hd, Nat.shiftLeft_eq, Nat.shiftLeft_eq,
      mul_comm den]
    exact_mod_cast Iff.rfl
  symm
  unfold exponentAbove
  rw [← hgap]
  dsimp only
  split_ifs with h
  · exact log_add_one_eq (by simpa using htest.1 h) hhigh
  · exact log_add_one_eq hlow (not_le.1 fun hle => h (htest.2 hle))

/-! ## Magnitudes -/

namespace Finite

variable {f : Format}

/-- The magnitude as a rational number. -/
def magnitude (x : Finite f) : ℚ :=
  x.mantissa * 2 ^ x.exponent

theorem magnitude_nonneg (x : Finite f) : 0 ≤ x.magnitude :=
  mul_nonneg (Nat.cast_nonneg _) (two_zpow_pos _).le

theorem magnitude_eq_zero_iff {x : Finite f} : x.magnitude = 0 ↔ x.isZero = true := by
  simp [magnitude, isZero, (two_zpow_pos x.exponent).ne']

theorem magnitude_pos {x : Finite f} (hx : x.isZero = false) : 0 < x.magnitude := by
  refine lt_of_le_of_ne x.magnitude_nonneg (Ne.symm ?_)
  rw [Ne, magnitude_eq_zero_iff, hx]
  exact Bool.false_ne_true

@[simp] theorem magnitude_zero (negative : Bool) : (zero negative : Finite f).magnitude = 0 := by
  simp [magnitude, zero]

theorem magnitude_lt_of_exponent (x : Finite f) :
    x.magnitude < 2 ^ (x.exponent + f.precision) := by
  rw [add_comm, two_zpow_add, zpow_natCast]
  exact mul_lt_mul_of_pos_right (by exact_mod_cast x.canonical.1) (two_zpow_pos _)

theorem magnitude_lt (x : Finite f) : x.magnitude < 2 ^ f.maxExponent :=
  x.magnitude_lt_of_exponent.trans_le (two_zpow_le x.canonical.2.2.1)

/-- The larger exponent belongs to the larger magnitude. -/
theorem exponent_le_of_magnitude_le {x y : Finite f} (h : x.magnitude ≤ y.magnitude) :
    x.exponent ≤ y.exponent := by
  by_contra hlt
  have hfull : 2 ^ (f.precision - 1) ≤ x.mantissa := by
    rcases x.canonical.2.2.2 with hm | he
    · exact hm
    · exact absurd y.canonical.2.1 (by omega)
  have hx : (2 : ℚ) ^ ((f.precision : ℤ) - 1) ≤ x.mantissa := by
    have hpos := f.precision_pos
    have hcast : (f.precision : ℤ) - 1 = ((f.precision - 1 : ℕ) : ℤ) := by omega
    rw [hcast]
    exact_mod_cast hfull
  have hy : (y.mantissa : ℚ) < 2 ^ (f.precision : ℤ) := by exact_mod_cast y.canonical.1
  have : y.magnitude < x.magnitude := by
    calc
      y.magnitude < 2 ^ (f.precision : ℤ) * 2 ^ y.exponent :=
        mul_lt_mul_of_pos_right hy (two_zpow_pos _)
      _ ≤ 2 ^ ((f.precision : ℤ) - 1) * 2 ^ x.exponent := by
        rw [← two_zpow_add, ← two_zpow_add]
        exact two_zpow_le (by omega)
      _ ≤ x.magnitude := mul_le_mul_of_nonneg_right hx (two_zpow_pos _).le
  linarith

/-- Sign and magnitude determine a number. -/
theorem eq_of_magnitude_eq {x y : Finite f} (hs : x.negative = y.negative)
    (hm : x.magnitude = y.magnitude) : x = y := by
  have he : x.exponent = y.exponent :=
    le_antisymm (exponent_le_of_magnitude_le hm.le) (exponent_le_of_magnitude_le hm.ge)
  have hmant : x.mantissa = y.mantissa := by
    have h := hm
    unfold magnitude at h
    rw [he] at h
    exact_mod_cast mul_right_cancel₀ (two_zpow_pos y.exponent).ne' h
  cases x
  cases y
  simp_all

end Finite

/-- A number has this sign and magnitude; where the magnitude is beyond the
range, it is an infinity. -/
def Floating.StandsFor {f : Format} (negative : Bool) (v : ℚ) : Floating f → Prop
  | nan => False
  | infinite s => s = negative ∧ 2 ^ f.maxExponent ≤ v
  | finite x => x.negative = negative ∧ x.magnitude = v

namespace Floating.StandsFor

variable {f : Format} {negative : Bool} {v : ℚ}

/-- Only one number stands for a sign and a magnitude. -/
theorem unique {x y : Floating f} (hx : x.StandsFor negative v) (hy : y.StandsFor negative v) :
    x = y := by
  match x, y, hx, hy with
  | infinite s, infinite t, hx, hy => rw [hx.1, hy.1]
  | infinite s, finite y, hx, hy => exact absurd y.magnitude_lt (by rw [hy.2]; exact hx.2.not_gt)
  | finite x, infinite t, hx, hy => exact absurd x.magnitude_lt (by rw [hx.2]; exact hy.2.not_gt)
  | finite x, finite y, hx, hy =>
    rw [Finite.eq_of_magnitude_eq (hx.1.trans hy.1.symm) (hx.2.trans hy.2.symm)]

theorem exists_finite {x : Floating f} (h : x.StandsFor negative v) (hv : v < 2 ^ f.maxExponent) :
    ∃ y : Finite f, x = .finite y ∧ y.negative = negative ∧ y.magnitude = v := by
  match x, h with
  | infinite s, h => exact absurd hv h.2.not_gt
  | finite x, h => exact ⟨x, rfl, h⟩

/-- What stands for two magnitudes stands for all between them. -/
theorem between {x : Floating f} {lower upper : ℚ} (hl : x.StandsFor negative lower)
    (hu : x.StandsFor negative upper) (hlv : lower ≤ v) (hvu : v ≤ upper) :
    x.StandsFor negative v := by
  match x, hl, hu with
  | infinite s, hl, hu => exact ⟨hl.1, hl.2.trans hlv⟩
  | finite x, hl, hu => exact ⟨hl.1, le_antisymm (hl.2.le.trans hlv) (hvu.trans hu.2.ge)⟩

end Floating.StandsFor

/-! ## Rounding a magnitude -/

namespace Format

variable (f : Format)

/-- The numbers around a magnitude are multiples of two to this power. -/
def unit (v : ℚ) : ℤ :=
  max (Int.log 2 v + 1 - f.precision) f.minExponent

/-- The magnitude rounded to the bits that a format keeps, ties to even. -/
def nearest (v : ℚ) : ℚ :=
  Tie.even.round (v / 2 ^ f.unit v) * 2 ^ f.unit v

theorem nearest_nonneg (v : ℚ) : 0 ≤ f.nearest v :=
  mul_nonneg (Nat.cast_nonneg _) (two_zpow_pos _).le

@[simp] theorem nearest_zero : f.nearest 0 = 0 := by
  simp [nearest]

theorem minExponent_le_unit (v : ℚ) : f.minExponent ≤ f.unit v :=
  le_max_right _ _

theorem unit_mono {v w : ℚ} (hv : 0 < v) (h : v ≤ w) : f.unit v ≤ f.unit w := by
  have := Int.log_mono_right (b := 2) hv h
  unfold unit
  omega

theorem div_unit_lt (v : ℚ) : v / 2 ^ f.unit v < 2 ^ f.precision := by
  rw [div_lt_iff₀ (two_zpow_pos _)]
  calc
    v < 2 ^ (Int.log 2 v + 1) := lt_two_zpow_log v
    _ ≤ 2 ^ ((f.precision : ℤ) + f.unit v) := two_zpow_le (by unfold unit; omega)
    _ = 2 ^ f.precision * 2 ^ f.unit v := by rw [two_zpow_add, zpow_natCast]

theorem round_div_unit_le (v : ℚ) : Tie.even.round (v / 2 ^ f.unit v) ≤ 2 ^ f.precision := by
  have h := Tie.even.round_mono (f.div_unit_lt v).le
  have hpow : ((2 : ℚ) ^ f.precision) = ((2 ^ f.precision : ℕ) : ℚ) := by push_cast; rfl
  rwa [hpow, Tie.round_natCast] at h

theorem precision_sub_one : ((f.precision - 1 : ℕ) : ℤ) = (f.precision : ℤ) - 1 := by
  have := f.precision_pos
  omega

/-- Where the unit is not held back by the least exponent, the rounded mantissa fills its bits. -/
theorem le_round_div_unit_of_eq {v : ℚ} (hv : 0 < v)
    (hunit : f.unit v = Int.log 2 v + 1 - f.precision) :
    2 ^ (f.precision - 1) ≤ Tie.even.round (v / 2 ^ f.unit v) := by
  have hle : ((2 ^ (f.precision - 1) : ℕ) : ℚ) ≤ v / 2 ^ f.unit v := by
    rw [le_div_iff₀ (two_zpow_pos _)]
    calc
      ((2 ^ (f.precision - 1) : ℕ) : ℚ) * 2 ^ f.unit v
        = 2 ^ (((f.precision - 1 : ℕ) : ℤ) + f.unit v) := by
          rw [two_zpow_add, zpow_natCast]; push_cast; rfl
      _ = 2 ^ Int.log 2 v := by rw [hunit, precision_sub_one]; congr 1; ring
      _ ≤ v := two_zpow_log_le hv
  have h := Tie.even.round_mono hle
  rwa [Tie.round_natCast] at h

theorem le_round_div_unit {v : ℚ} (hv : 0 < v) (h : f.unit v ≠ f.minExponent) :
    2 ^ (f.precision - 1) ≤ Tie.even.round (v / 2 ^ f.unit v) := by
  refine f.le_round_div_unit_of_eq hv ?_
  unfold unit at h ⊢
  omega

theorem nearest_le_two_zpow (v : ℚ) : f.nearest v ≤ 2 ^ (f.precision + f.unit v) := by
  rw [two_zpow_add, zpow_natCast]
  exact mul_le_mul_of_nonneg_right (by exact_mod_cast f.round_div_unit_le v) (two_zpow_pos _).le

theorem nearest_mono {v w : ℚ} (hv : 0 ≤ v) (h : v ≤ w) : f.nearest v ≤ f.nearest w := by
  rcases hv.eq_or_lt with rfl | hv
  · rw [nearest_zero]
    exact f.nearest_nonneg w
  rcases (f.unit_mono hv h).eq_or_lt with heq | hlt
  · unfold nearest
    rw [heq]
    gcongr
    exact Tie.even.round_mono (by gcongr)
  · -- the larger one has a larger unit, of which it has a full mantissa
    have hfull := f.le_round_div_unit (hv.trans_le h)
      (by have := f.minExponent_le_unit v; omega)
    have hcast : (2 : ℚ) ^ ((f.precision : ℤ) - 1) ≤ Tie.even.round (w / 2 ^ f.unit w) := by
      rw [← precision_sub_one, zpow_natCast]
      exact_mod_cast hfull
    calc
      f.nearest v ≤ 2 ^ (f.precision + f.unit v) := f.nearest_le_two_zpow v
      _ ≤ 2 ^ ((f.precision : ℤ) - 1 + f.unit w) := two_zpow_le (by omega)
      _ = 2 ^ ((f.precision : ℤ) - 1) * 2 ^ f.unit w := two_zpow_add _ _
      _ ≤ f.nearest w := mul_le_mul_of_nonneg_right hcast (two_zpow_pos _).le

theorem abs_nearest_sub_le {v : ℚ} (hv : 0 ≤ v) : |f.nearest v - v| ≤ 2 ^ f.unit v / 2 := by
  have hpos := two_zpow_pos (f.unit v)
  have hround := Tie.even.abs_round_sub_le (div_nonneg hv hpos.le)
  have hsplit : f.nearest v - v =
      (Tie.even.round (v / 2 ^ f.unit v) - v / 2 ^ f.unit v) * 2 ^ f.unit v := by
    rw [sub_mul, div_mul_cancel₀ _ hpos.ne']
    rfl
  rw [hsplit, abs_mul, abs_of_pos hpos]
  nlinarith

/-- The relative error where the full precision is kept. -/
theorem abs_nearest_sub_le_mul {v : ℚ} (hv : 2 ^ (f.minExponent + f.precision - 1) ≤ v) :
    |f.nearest v - v| ≤ v / 2 ^ f.precision := by
  have hpos : 0 < v := (two_zpow_pos _).trans_le hv
  have hlog := (Int.zpow_le_iff_le_log one_lt_two hpos).1 (by exact_mod_cast hv)
  have hunit : f.unit v = Int.log 2 v + 1 - f.precision := by
    unfold unit
    omega
  refine (f.abs_nearest_sub_le hpos.le).trans ?_
  rw [le_div_iff₀ (by positivity)]
  calc
    (2 : ℚ) ^ f.unit v / 2 * 2 ^ f.precision = 2 ^ (f.unit v + f.precision) / 2 := by
      rw [two_zpow_add, zpow_natCast]; ring
    _ = 2 ^ Int.log 2 v := by
      rw [hunit, show Int.log 2 v + 1 - f.precision + f.precision = Int.log 2 v + 1 by ring,
        two_zpow_add]
      norm_num
    _ ≤ v := two_zpow_log_le hpos

/-- What the format has is not changed. -/
theorem nearest_of_representable {m : ℕ} {e : ℤ} (hm : m ≤ 2 ^ f.precision)
    (he : f.minExponent ≤ e) : f.nearest (m * 2 ^ e) = m * 2 ^ e := by
  rcases Nat.eq_zero_or_pos m with rfl | hpos
  · simp
  set v : ℚ := m * 2 ^ e with hv
  have hv0 : 0 < v := mul_pos (by exact_mod_cast hpos) (two_zpow_pos e)
  -- a whole multiple of the unit stays
  suffices h : ∃ n : ℕ, v / 2 ^ f.unit v = n by
    obtain ⟨n, hn⟩ := h
    unfold nearest
    rw [hn, Tie.round_natCast, ← hn, div_mul_cancel₀ _ (two_zpow_pos _).ne']
  by_cases hunit : f.unit v ≤ e
  · refine ⟨m * 2 ^ (e - f.unit v).toNat, ?_⟩
    rw [div_eq_iff (two_zpow_pos _).ne']
    push_cast
    rw [mul_assoc, ← two_zpow_split hunit]
  · -- only the mantissa with one bit too many has a unit above its exponent
    have hle : v ≤ 2 ^ ((f.precision : ℤ) + e) := by
      rw [two_zpow_add, zpow_natCast]
      exact mul_le_mul_of_nonneg_right (by exact_mod_cast hm) (two_zpow_pos e).le
    have hlog : 2 ^ Int.log 2 v ≤ v := two_zpow_log_le hv0
    have habove : (f.precision : ℤ) + e ≤ Int.log 2 v := by
      unfold unit at hunit
      omega
    have heq : v = 2 ^ ((f.precision : ℤ) + e) :=
      le_antisymm hle ((two_zpow_le habove).trans hlog)
    have hunit' : f.unit v = e + 1 := by
      have : Int.log 2 v + 1 = (f.precision : ℤ) + e + 1 := by
        refine log_add_one_eq ?_ ?_
        · rw [heq]; exact two_zpow_le (by omega)
        · rw [heq]; exact zpow_lt_zpow_right₀ one_lt_two (by omega)
      unfold unit
      omega
    refine ⟨2 ^ (f.precision - 1), ?_⟩
    rw [div_eq_iff (two_zpow_pos _).ne', hunit', heq]
    push_cast
    rw [← zpow_natCast, precision_sub_one, ← two_zpow_add]
    congr 1
    ring

theorem nearest_magnitude (x : Finite f) : f.nearest x.magnitude = x.magnitude :=
  f.nearest_of_representable x.canonical.1.le x.canonical.2.1

theorem nearest_nearest (v : ℚ) : f.nearest (f.nearest v) = f.nearest v :=
  f.nearest_of_representable (f.round_div_unit_le v) (f.minExponent_le_unit v)

/-- Less than half of the least number is nothing. -/
theorem nearest_of_lt {v : ℚ} (hv : 0 ≤ v) (h : v < 2 ^ (f.minExponent - 1)) :
    f.nearest v = 0 := by
  rcases hv.eq_or_lt with rfl | hpos
  · exact f.nearest_zero
  have hprec := f.precision_pos
  have hlog := (Int.lt_zpow_iff_log_lt one_lt_two hpos).1 (by exact_mod_cast h)
  have hunit : f.unit v = f.minExponent := by
    unfold unit
    omega
  have hdiv : 0 ≤ v / 2 ^ f.unit v := div_nonneg hv (two_zpow_pos _).le
  have hzero : Tie.even.round (v / 2 ^ f.unit v) = 0 := by
    refine Tie.even.round_eq_of_abs_sub_lt hdiv ?_
    rw [Nat.cast_zero, zero_sub, abs_neg, abs_of_nonneg hdiv, div_lt_iff₀ (two_zpow_pos _), hunit]
    calc
      v < 2 ^ (f.minExponent - 1) := h
      _ = 1 / 2 * 2 ^ f.minExponent := by rw [zpow_sub_one₀ two_ne_zero]; ring
  rw [nearest, hzero, Nat.cast_zero, zero_mul]

/-! ## Rounding to a number of the format -/

theorem pack_standsFor (negative : Bool) {m : ℕ} {e : ℤ} (hm : m ≤ 2 ^ f.precision)
    (he : f.minExponent ≤ e) (hfull : 2 ^ (f.precision - 1) ≤ m ∨ e = f.minExponent) :
    (f.pack negative m e).StandsFor negative (m * 2 ^ e) := by
  have hpos := f.precision_pos
  have hroom := f.room
  have hhalf : (2 : ℚ) ^ (f.precision - 1) * 2 = 2 ^ f.precision := by
    rw [← pow_succ, Nat.sub_add_cancel hpos]
  unfold pack
  by_cases hcarry : m = 2 ^ f.precision
  · simp only [hcarry, if_true]
    have hvalue : ((2 ^ f.precision : ℕ) : ℚ) * 2 ^ e = 2 ^ ((f.precision : ℤ) + e) := by
      rw [two_zpow_add, zpow_natCast]; push_cast; rfl
    by_cases hc : f.Canonical (2 ^ (f.precision - 1)) (e + 1)
    · rw [dif_pos hc]
      refine ⟨rfl, ?_⟩
      simp only [Finite.magnitude]
      push_cast
      rw [two_zpow_add e 1, ← hhalf]
      ring
    · rw [dif_neg hc]
      refine ⟨rfl, ?_⟩
      rw [hvalue]
      refine two_zpow_le (not_lt.1 fun hlt => hc ⟨?_, by omega, by omega, .inl le_rfl⟩)
      exact Nat.pow_lt_pow_right one_lt_two (by omega)
  · simp only [hcarry, if_false]
    by_cases hc : f.Canonical m e
    · rw [dif_pos hc]
      exact ⟨rfl, rfl⟩
    · rw [dif_neg hc]
      refine ⟨rfl, ?_⟩
      have hlt : f.maxExponent < e + f.precision :=
        not_le.1 fun hle => hc ⟨lt_of_le_of_ne hm hcarry, he, hle, hfull⟩
      have hm' : (2 : ℚ) ^ ((f.precision : ℤ) - 1) ≤ m := by
        rw [← precision_sub_one, zpow_natCast]
        exact_mod_cast hfull.resolve_right (by omega)
      calc
        (2 : ℚ) ^ f.maxExponent ≤ 2 ^ ((f.precision : ℤ) - 1 + e) := two_zpow_le (by omega)
        _ = 2 ^ ((f.precision : ℤ) - 1) * 2 ^ e := two_zpow_add _ _
        _ ≤ m * 2 ^ e := mul_le_mul_of_nonneg_right hm' (two_zpow_pos e).le

theorem log_mul_two_zpow {v : ℚ} (hv : 0 < v) (k : ℤ) :
    Int.log 2 (v * 2 ^ k) = Int.log 2 v + k := by
  have h := log_add_one_eq (v := v * 2 ^ k) (e := Int.log 2 v + 1 + k) ?_ ?_
  · omega
  · rw [show Int.log 2 v + 1 + k - 1 = Int.log 2 v + k by ring, two_zpow_add]
    exact mul_le_mul_of_nonneg_right (two_zpow_log_le hv) (two_zpow_pos k).le
  · rw [two_zpow_add]
    exact mul_lt_mul_of_pos_right (lt_two_zpow_log v) (two_zpow_pos k)

/-- The quotient of shifted numbers is the magnitude in units of `2 ^ e`. -/
theorem roundDiv_shift (tie : Tie) (num : ℕ) {den : ℕ} (hden : 0 < den) (scale e : ℤ) :
    roundDiv tie (num <<< (scale - e).toNat) (den <<< (e - scale).toNat) =
      tie.round ((num : ℚ) / den * 2 ^ scale / 2 ^ e) := by
  have hd : (0 : ℚ) < den := by exact_mod_cast hden
  have hscale : (2 : ℚ) ^ scale / 2 ^ e = 2 ^ (scale - e).toNat / 2 ^ (e - scale).toNat := by
    rw [← zpow_sub₀ two_ne_zero, two_zpow_eq_div, neg_sub]
  rw [roundDiv_eq_round tie _ (by rw [Nat.shiftLeft_eq]; positivity), Nat.shiftLeft_eq,
    Nat.shiftLeft_eq]
  congr 1
  push_cast
  rw [mul_div_mul_comm, ← hscale, mul_div_assoc]

/-- Rounding gives the number that stands for the nearest magnitude. -/
theorem round_standsFor (negative : Bool) (num : ℕ) {den : ℕ} (hden : 0 < den) (scale : ℤ) :
    (f.round negative num den scale).StandsFor negative
      (f.nearest ((num : ℚ) / den * 2 ^ scale)) := by
  have hpos := f.precision_pos
  rcases Nat.eq_zero_or_pos num with rfl | hnum
  · simp [round, Floating.StandsFor, Finite.zero, Finite.magnitude]
  have hq : (0 : ℚ) < (num : ℚ) / den := div_pos (Nat.cast_pos.2 hnum) (Nat.cast_pos.2 hden)
  set v : ℚ := (num : ℚ) / den * 2 ^ scale with hv
  have hv0 : 0 < v := mul_pos hq (two_zpow_pos _)
  have htop : exponentAbove num den + scale = Int.log 2 v + 1 := by
    rw [exponentAbove_eq hnum hden, hv, log_mul_two_zpow hq]
    ring
  unfold round
  rw [htop]
  dsimp only
  split_ifs with h
  · have hsmall : Int.log 2 v + 1 < f.minExponent := h.resolve_left hnum.ne'
    refine ⟨rfl, ?_⟩
    rw [Finite.magnitude_zero, f.nearest_of_lt hv0.le]
    exact (lt_two_zpow_log v).trans_le (two_zpow_le (by omega))
  · rw [roundDiv_shift _ _ hden]
    change (f.pack negative (Tie.even.round (v / 2 ^ f.unit v)) (f.unit v)).StandsFor _ _
    refine f.pack_standsFor negative (f.round_div_unit_le v) (f.minExponent_le_unit v) ?_
    by_cases hunit : f.unit v = f.minExponent
    · exact .inr hunit
    · exact .inl (f.le_round_div_unit hv0 hunit)

/-- The first of two roundings keeps all bits, whatever the exponent of the last one. -/
theorem roundTwice_eq (negative : Bool) {num den : ℕ} (hnum : 0 < num) (hden : 0 < den)
    {scale : ℤ} {v : ℚ} (hv : v = num / den * 2 ^ scale) {e : ℤ}
    (he : e = Int.log 2 v + 1 - f.precision) :
    f.roundTwice negative num den scale =
      if (Tie.even.round (v / 2 ^ e)).log2 + 1 + e ≤ f.minExponent then .finite (.zero negative)
      else f.round negative (Tie.even.round (v / 2 ^ e)) 1 e := by
  have hq : (0 : ℚ) < (num : ℚ) / den := div_pos (Nat.cast_pos.2 hnum) (Nat.cast_pos.2 hden)
  have htop : exponentAbove num den + scale - f.precision = e := by
    rw [exponentAbove_eq hnum hden, he, hv, log_mul_two_zpow hq]
    ring
  unfold roundTwice
  rw [htop]
  dsimp only
  rw [roundDiv_shift _ _ hden, ← hv]
  simp only [hnum.ne', false_or]

/-- Rounding to full precision first changes nothing where the format keeps
the full precision. -/
theorem roundTwice_standsFor (negative : Bool) (num : ℕ) {den : ℕ} (hden : 0 < den) (scale : ℤ)
    (h : num ≠ 0 → 2 ^ (f.minExponent + f.precision - 1) ≤ (num : ℚ) / den * 2 ^ scale) :
    (f.roundTwice negative num den scale).StandsFor negative
      (f.nearest ((num : ℚ) / den * 2 ^ scale)) := by
  have hpos := f.precision_pos
  rcases Nat.eq_zero_or_pos num with rfl | hnum
  · simp [roundTwice, Floating.StandsFor, Finite.zero, Finite.magnitude]
  specialize h hnum.ne'
  set v : ℚ := (num : ℚ) / den * 2 ^ scale with hv
  have hv0 : 0 < v := (two_zpow_pos _).trans_le h
  have hlog := (Int.zpow_le_iff_le_log one_lt_two hv0).1 (by exact_mod_cast h)
  have he : f.unit v = Int.log 2 v + 1 - f.precision := by
    unfold unit
    omega
  have hm := f.le_round_div_unit_of_eq hv0 he
  have hlog2 : f.precision - 1 ≤ (Tie.even.round (v / 2 ^ f.unit v)).log2 :=
    (Nat.le_log2 (by have := Nat.two_pow_pos (f.precision - 1); omega)).2 hm
  have hunit := f.minExponent_le_unit v
  rw [f.roundTwice_eq negative hnum hden hv he, if_neg (by omega)]
  have hround := f.round_standsFor negative (Tie.even.round (v / 2 ^ f.unit v)) one_pos (f.unit v)
  rwa [Nat.cast_one, div_one, show (Tie.even.round (v / 2 ^ f.unit v) : ℚ) * 2 ^ f.unit v =
    f.nearest v from rfl, nearest_nearest] at hround

/-- A product or quotient is rounded to nearest, at least where the format
keeps the full precision. -/
theorem roundProduct_standsFor (negative : Bool) (num : ℕ) {den : ℕ} (hden : 0 < den)
    (scale : ℤ) (h : f.underflow = .once ∨ (num ≠ 0 →
      2 ^ (f.minExponent + f.precision - 1) ≤ (num : ℚ) / den * 2 ^ scale)) :
    (f.roundProduct negative num den scale).StandsFor negative
      (f.nearest ((num : ℚ) / den * 2 ^ scale)) := by
  unfold roundProduct
  split
  · exact f.round_standsFor negative num hden scale
  · next htwice =>
    exact f.roundTwice_standsFor negative num hden scale (h.resolve_left (by simp [htwice]))

end Format

namespace Finite

variable {f : Format}

theorem mantissa_pos {x : Finite f} (hx : x.isZero = false) : 0 < x.mantissa := by
  rw [Nat.pos_iff_ne_zero]
  simpa [isZero] using hx

/-- The exact product that is rounded. -/
theorem product_eq (x y : Finite f) : ((x.mantissa * y.mantissa : ℕ) : ℚ) / (1 : ℕ) *
    2 ^ (x.exponent + y.exponent) = x.magnitude * y.magnitude := by
  unfold magnitude
  rw [two_zpow_add]
  push_cast
  ring

/-- The exact quotient that is rounded. -/
theorem quotient_eq (x y : Finite f) : (x.mantissa : ℚ) / y.mantissa *
    2 ^ (x.exponent - y.exponent) = x.magnitude / y.magnitude := by
  unfold magnitude
  rw [zpow_sub₀ two_ne_zero, mul_div_mul_comm]

theorem mul_standsFor (x y : Finite f) (h : f.underflow = .once ∨ (x.magnitude * y.magnitude ≠ 0 →
      2 ^ (f.minExponent + f.precision - 1) ≤ x.magnitude * y.magnitude)) :
    (x.mul y).StandsFor (x.negative != y.negative) (f.nearest (x.magnitude * y.magnitude)) := by
  rw [← product_eq] at h ⊢
  refine f.roundProduct_standsFor _ _ one_pos _ (h.imp_right fun h hnum => h ?_)
  rw [Nat.cast_one, div_one]
  exact mul_ne_zero (by exact_mod_cast hnum) (two_zpow_pos _).ne'

theorem div_standsFor (x : Finite f) {y : Finite f} (hy : y.isZero = false)
    (h : f.underflow = .once ∨ (x.magnitude / y.magnitude ≠ 0 →
      2 ^ (f.minExponent + f.precision - 1) ≤ x.magnitude / y.magnitude)) :
    (x.div y).StandsFor (x.negative != y.negative) (f.nearest (x.magnitude / y.magnitude)) := by
  have hden := mantissa_pos hy
  have hd : (y.mantissa : ℚ) ≠ 0 := by exact_mod_cast hden.ne'
  rw [← quotient_eq] at h ⊢
  refine f.roundProduct_standsFor _ _ hden _ (h.imp_right fun h hnum => h ?_)
  exact mul_ne_zero (div_ne_zero (by exact_mod_cast hnum) hd) (two_zpow_pos _).ne'

end Finite

end Abacus
