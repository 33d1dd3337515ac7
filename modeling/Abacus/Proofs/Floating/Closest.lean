/-
Abacus.Proofs.Floating.Closest — the number that a numeral is read as.

`Finite.IsNearest` says what the nearest number of a format is without saying
how it is found: no other is closer, and one that is as close has an odd
mantissa.  A numeral below the middle between the largest finite number and
the next power of two is read as the number nearest to it, with its sign; any
other is read as an infinity.

Two numbers of a format are never closer to each other than about one part in
`2 ^ precision`, so what is closer than half of that to one of them is rounded
to it (`Format.nearest_eq_of_close`).
-/
import Abacus.Proofs.Floating.Powers
import Abacus.Proofs.Floating.WholeNumbers

namespace Abacus

/-- Two multiples of a number are the same, or at least that far apart. -/
theorem eq_of_abs_sub_lt {a b : ℕ} {c v w : ℚ} (hv : v = a * c) (hw : w = b * c)
    (h : |w - v| < c) : w = v := by
  have hc : 0 < c := (abs_nonneg _).trans_lt h
  have hint : |(b : ℤ) - a| < 1 := by
    rw [hv, hw, ← sub_mul, abs_mul, abs_of_pos hc] at h
    have := lt_of_mul_lt_mul_right (h.trans_eq (one_mul c).symm) hc.le
    exact_mod_cast this
  rw [Int.abs_lt_one_iff, sub_eq_zero] at hint
  rw [hv, hw, Int.natCast_inj.1 hint]

namespace Format

variable (f : Format)

/-! ## Magnitudes -/

/-- A number of the format is a whole number of units, or a power of two that is one
lies between it and the magnitude. -/
theorem exists_multiple_of_unit {v : ℚ} (hv : 0 < v) {m : ℕ} {e : ℤ} (hm : m < 2 ^ f.precision)
    (he : f.minExponent ≤ e) :
    ∃ k : ℕ, (m : ℚ) * 2 ^ e = k * 2 ^ f.unit v ∨
      (m : ℚ) * 2 ^ e < k * 2 ^ f.unit v ∧ (k : ℚ) * 2 ^ f.unit v ≤ v := by
  by_cases hunit : f.unit v ≤ e
  · refine ⟨m * 2 ^ (e - f.unit v).toNat, .inl ?_⟩
    push_cast
    rw [mul_assoc, ← two_zpow_split hunit]
  · -- a smaller exponent, so the mantissa does not reach up to the magnitude
    have hlog : Int.log 2 v = ((f.precision - 1 : ℕ) : ℤ) + f.unit v := by
      rw [precision_sub_one]
      unfold unit at hunit ⊢
      omega
    have hfull : ((2 ^ (f.precision - 1) : ℕ) : ℚ) * 2 ^ f.unit v = 2 ^ Int.log 2 v := by
      rw [hlog, two_zpow_add, zpow_natCast]
      push_cast
      rfl
    refine ⟨2 ^ (f.precision - 1), .inr ⟨?_, by rw [hfull]; exact two_zpow_log_le hv⟩⟩
    have hmant : (m : ℚ) < 2 ^ (f.precision : ℤ) := by exact_mod_cast hm
    rw [hfull]
    calc
      (m : ℚ) * 2 ^ e < 2 ^ (f.precision : ℤ) * 2 ^ e :=
        mul_lt_mul_of_pos_right hmant (two_zpow_pos e)
      _ = 2 ^ (f.precision + e) := (two_zpow_add _ _).symm
      _ ≤ 2 ^ Int.log 2 v := by
        rw [hlog, precision_sub_one]
        exact two_zpow_le (by omega)

/-- No magnitude of the format is closer than the rounded one, which is an even number
of units where another is as close. -/
theorem nearest_closest {v : ℚ} (hv : 0 ≤ v) {m : ℕ} {e : ℤ} (hm : m < 2 ^ f.precision)
    (he : f.minExponent ≤ e) :
    m * 2 ^ e = f.nearest v ∨ |f.nearest v - v| < |m * 2 ^ e - v| ∨
      |f.nearest v - v| = |m * 2 ^ e - v| ∧ Tie.even.round (v / 2 ^ f.unit v) % 2 = 0 := by
  rcases hv.eq_or_lt with rfl | hpos
  · rw [nearest_zero, sub_zero, abs_zero, sub_zero, abs_pos]
    rcases eq_or_ne ((m : ℚ) * 2 ^ e) 0 with hzero | hne
    · exact .inl hzero
    · exact .inr (.inl hne)
  · have hu := two_zpow_pos (f.unit v)
    have hscale (k : ℕ) : |(k : ℚ) * 2 ^ f.unit v - v| =
        |(k : ℚ) - v / 2 ^ f.unit v| * 2 ^ f.unit v := by
      rw [← abs_of_pos hu, ← abs_mul, abs_of_pos hu, sub_mul, div_mul_cancel₀ _ hu.ne']
    obtain ⟨k, hk⟩ := f.exists_multiple_of_unit hpos hm he
    have hround := Tie.round_even_closest (div_nonneg hv hu.le) k
    unfold nearest
    rcases hk with heq | ⟨hlt, hle⟩
    · rw [heq, hscale, hscale]
      rcases hround with rfl | hcloser | ⟨htie, heven⟩
      · exact .inl rfl
      · exact .inr (.inl (mul_lt_mul_of_pos_right hcloser hu))
      · exact .inr (.inr ⟨by rw [htie], heven⟩)
    · right; left
      have hfar : |(k : ℚ) * 2 ^ f.unit v - v| < |(m : ℚ) * 2 ^ e - v| := by
        rw [abs_of_nonpos (by linarith), abs_of_nonpos (by linarith)]
        linarith
      refine lt_of_le_of_lt ?_ hfar
      rw [hscale, hscale]
      rcases hround with rfl | hcloser | ⟨htie, -⟩
      · exact le_rfl
      · exact mul_le_mul_of_nonneg_right hcloser.le hu.le
      · rw [htie]

/-! ## Numbers close to each other -/

/-- Two numbers of a format are not very close to each other: both are multiples of the power
of two that has the smaller one of their exponents. -/
theorem eq_of_close {m n : ℕ} {d e : ℤ} (hm : m ≤ 2 ^ f.precision) (hn : n ≤ 2 ^ f.precision)
    {bound : ℕ} (hbound : 2 ^ f.precision + 1 < bound)
    (h : |(n : ℚ) * 2 ^ e - m * 2 ^ d| ≤ m * 2 ^ d / bound) :
    (n : ℚ) * 2 ^ e = m * 2 ^ d := by
  have hpos : (0 : ℚ) < bound := by exact_mod_cast (Nat.zero_le _).trans_lt hbound
  have hlarge : (2 : ℚ) ^ f.precision + 1 < bound := by exact_mod_cast hbound
  have hone : (1 : ℚ) ≤ 2 ^ f.precision := one_le_pow₀ one_le_two
  have hm' : (m : ℚ) ≤ 2 ^ f.precision := by exact_mod_cast hm
  have hn' : (n : ℚ) ≤ 2 ^ f.precision := by exact_mod_cast hn
  have hmultiple {k : ℕ} {i j : ℤ} (hij : i ≤ j) :
      (k : ℚ) * 2 ^ j = (k * 2 ^ (j - i).toNat : ℕ) * 2 ^ i := by
    push_cast
    rw [mul_assoc, ← two_zpow_split hij]
  rcases le_total d e with hde | hed
  · refine eq_of_abs_sub_lt rfl (hmultiple hde) (h.trans_lt ?_)
    rw [div_lt_iff₀ hpos, mul_comm]
    exact mul_lt_mul_of_pos_left (by linarith) (two_zpow_pos d)
  · refine eq_of_abs_sub_lt (hmultiple hed) rfl (lt_of_not_ge fun hfar => ?_)
    -- otherwise the first number would have a mantissa too many bits long
    have hunit := two_zpow_pos e
    refine lt_irrefl ((n : ℚ) * 2 ^ e) ?_
    calc
      (n : ℚ) * 2 ^ e ≤ 2 ^ f.precision * 2 ^ e :=
        mul_le_mul_of_nonneg_right hn' (two_zpow_pos e).le
      _ < (bound - 1) * 2 ^ e := mul_lt_mul_of_pos_right (by linarith) (two_zpow_pos e)
      _ ≤ (bound - 1) * (m * 2 ^ d / bound) :=
        mul_le_mul_of_nonneg_left (hfar.trans h) (by linarith)
      _ = m * 2 ^ d - m * 2 ^ d / bound := by rw [sub_mul, one_mul, mul_div_cancel₀ _ hpos.ne']
      _ ≤ n * 2 ^ e := by linarith [(abs_le.1 h).1]

/-- What is much closer to a number than its neighbours are is rounded to it. -/
theorem nearest_eq_of_close (x : Finite f) {bound : ℕ} (hbound : 2 ^ f.precision + 1 < bound)
    {v : ℚ} (hv : 0 ≤ v) (h : |v - x.magnitude| ≤ x.magnitude / bound / 2) :
    f.nearest v = x.magnitude := by
  have hclosest : |f.nearest v - v| ≤ |x.magnitude - v| := by
    rcases f.nearest_closest hv x.canonical.1 x.canonical.2.1 with heq | hlt | ⟨heq, -⟩
    · exact (congrArg (|· - v|) heq).ge
    · exact hlt.le
    · exact heq.le
  refine f.eq_of_close x.canonical.1.le (f.round_div_unit_le v) hbound ?_
  calc
    |f.nearest v - x.magnitude| ≤ |f.nearest v - v| + |v - x.magnitude| := abs_sub_le _ _ _
    _ ≤ |v - x.magnitude| + |v - x.magnitude| := by
      rw [abs_sub_comm x.magnitude] at hclosest
      linarith
    _ ≤ x.magnitude / bound := by linarith

/-! ## The range -/

/-- The least magnitude that is rounded beyond the range: halfway between the largest
finite number and the next power of two. -/
def overflowThreshold : ℚ :=
  2 ^ f.maxExponent - 2 ^ (f.maxExponent - f.precision - 1)

theorem two_zpow_maxExponent :
    (2 : ℚ) ^ f.maxExponent = 2 ^ f.precision * 2 ^ (f.maxExponent - f.precision) := by
  rw [← zpow_natCast, ← two_zpow_add, add_sub_cancel]

theorem overflowThreshold_eq :
    f.overflowThreshold = 2 ^ f.maxExponent - 2 ^ (f.maxExponent - f.precision) / 2 := by
  rw [overflowThreshold, zpow_sub_one₀ two_ne_zero, div_eq_mul_inv]

/-- The largest finite magnitude is one unit below the power of two. -/
theorem largest_eq : ((2 ^ f.precision - 1 : ℕ) : ℚ) * 2 ^ (f.maxExponent - f.precision) =
    2 ^ f.maxExponent - 2 ^ (f.maxExponent - f.precision) := by
  rw [two_zpow_maxExponent, Nat.cast_sub Nat.one_le_two_pow]
  push_cast
  ring

theorem two_zpow_lt_overflowThreshold : 2 ^ (f.maxExponent - 1) < f.overflowThreshold := by
  have hprec := f.precision_pos
  have hsmall : (2 : ℚ) ^ (f.maxExponent - f.precision - 1) < 2 ^ (f.maxExponent - 1) :=
    zpow_lt_zpow_right₀ one_lt_two (by omega)
  have hhalf : (2 : ℚ) ^ (f.maxExponent - 1) = 2 ^ f.maxExponent / 2 := by
    rw [zpow_sub_one₀ two_ne_zero, div_eq_mul_inv]
  unfold overflowThreshold
  linarith

theorem unit_overflowThreshold : f.unit f.overflowThreshold = f.maxExponent - f.precision := by
  have hroom := f.room
  have hpos := two_zpow_pos (f.maxExponent - f.precision - 1)
  have hlog : Int.log 2 f.overflowThreshold + 1 = f.maxExponent := by
    refine log_add_one_eq f.two_zpow_lt_overflowThreshold.le ?_
    unfold overflowThreshold
    linarith
  unfold unit
  omega

/-- The threshold is rounded up, since the mantissa below it is odd. -/
theorem nearest_overflowThreshold : f.nearest f.overflowThreshold = 2 ^ f.maxExponent := by
  have hprec := f.precision_pos
  have hone : 1 ≤ 2 ^ f.precision := Nat.one_le_two_pow
  have heven : 2 ^ f.precision % 2 = 0 := Nat.mod_eq_zero_of_dvd (dvd_pow_self 2 hprec.ne')
  have hquot : f.overflowThreshold / 2 ^ (f.maxExponent - f.precision) =
      ((2 ^ f.precision - 1 : ℕ) : ℚ) + 1 / 2 := by
    rw [div_eq_iff (two_zpow_pos _).ne', add_mul, largest_eq, overflowThreshold_eq]
    ring
  have hcarry : 2 ^ f.precision - 1 + (2 ^ f.precision - 1) % 2 = 2 ^ f.precision := by
    omega
  unfold nearest
  rw [unit_overflowThreshold, hquot, Tie.round_even_add_half, hcarry, two_zpow_maxExponent]
  push_cast
  rfl

theorem nearest_lt_iff {v : ℚ} (hv : 0 ≤ v) :
    f.nearest v < 2 ^ f.maxExponent ↔ v < f.overflowThreshold := by
  have hroom := f.room
  have hstep := two_zpow_pos (f.maxExponent - f.precision)
  have hone : 1 ≤ 2 ^ f.precision := Nat.one_le_two_pow
  constructor
  · intro hlt
    by_contra hle
    have hthreshold : 0 ≤ f.overflowThreshold := by
      rw [overflowThreshold, sub_nonneg]
      exact two_zpow_le (by omega)
    have hmono := f.nearest_mono hthreshold (not_lt.1 hle)
    rw [nearest_overflowThreshold] at hmono
    exact hmono.not_gt hlt
  · intro hlt
    rw [overflowThreshold_eq] at hlt
    rcases le_or_gt v (2 ^ f.maxExponent - 2 ^ (f.maxExponent - f.precision)) with hle | hgt
    · have hmono := f.nearest_mono hv hle
      rw [← largest_eq, f.nearest_of_representable (by omega) (by omega), largest_eq] at hmono
      linarith
    · -- the largest finite number is less than half a unit away
      by_contra hbeyond
      have hclosest := f.nearest_closest hv (m := 2 ^ f.precision - 1)
        (e := f.maxExponent - f.precision) (by omega) (by omega)
      rw [largest_eq] at hclosest
      have hdist : |2 ^ f.maxExponent - 2 ^ (f.maxExponent - f.precision) - v| =
          v - (2 ^ f.maxExponent - 2 ^ (f.maxExponent - f.precision)) := by
        rw [abs_of_nonpos (by linarith), neg_sub]
      have habove := le_abs_self (f.nearest v - v)
      rcases hclosest with heq | hcloser | ⟨htie, -⟩
      · linarith
      · linarith
      · linarith

end Format

/-! ## Numbers -/

namespace Finite

variable {f : Format}

theorem negative_eq {x : Finite f} (hx : x.isZero = false) :
    x.negative = decide (x.value < 0) := by
  have hpos := magnitude_pos hx
  rw [value_eq]
  cases x.negative with
  | true => simpa using hpos
  | false => simpa using hpos.le

/-- A number other than zero is known by its value. -/
theorem eq_of_value_eq {x y : Finite f} (h : x.value = y.value) (hx : x.isZero = false) :
    x = y := by
  have hy : y.isZero = false := by
    rwa [Bool.eq_false_iff, Ne, ← value_eq_zero_iff, ← h, value_eq_zero_iff, ← Ne,
      ← Bool.eq_false_iff]
  refine eq_of_magnitude_eq ?_ ?_
  · rw [negative_eq hx, negative_eq hy, h]
  · rw [← abs_value, ← abs_value, h]

/-- No number of the format is closer to the rational one; where another is as close,
this is the one with the even mantissa. -/
structure IsNearest (x : Finite f) (q : ℚ) : Prop where
  closest : ∀ y : Finite f, |x.value - q| ≤ |y.value - q|
  even : ∀ y : Finite f, y.value ≠ x.value → |y.value - q| = |x.value - q| → x.mantissa % 2 = 0

/-- An even number of units is a number with an even mantissa. -/
theorem mantissa_even {x : Finite f} (hp : 1 < f.precision) {v : ℚ}
    (hx : x.magnitude = f.nearest v) (heven : Tie.even.round (v / 2 ^ f.unit v) % 2 = 0) :
    x.mantissa % 2 = 0 := by
  have hbound := f.round_div_unit_le v
  have hu := two_zpow_pos (f.unit v)
  unfold Finite.magnitude Format.nearest at hx
  generalize Tie.even.round (v / 2 ^ f.unit v) = r at hx heven hbound
  by_cases hle : x.exponent ≤ f.unit v
  · have hmant : x.mantissa = r * 2 ^ (f.unit v - x.exponent).toNat := by
      rw [two_zpow_split hle, ← mul_assoc] at hx
      exact_mod_cast mul_right_cancel₀ (two_zpow_pos x.exponent).ne' hx
    rw [hmant, Nat.mul_mod, heven, zero_mul, Nat.zero_mod]
  · -- the rounding has carried into the next power of two
    have hmant : x.mantissa * 2 ^ (x.exponent - f.unit v).toNat = r := by
      rw [two_zpow_split (not_le.1 hle).le, ← mul_assoc] at hx
      exact_mod_cast mul_right_cancel₀ hu.ne' hx
    have hfull : 2 ^ (f.precision - 1) ≤ x.mantissa := by
      rcases x.canonical.2.2.2 with hm | he
      · exact hm
      · exact absurd (f.minExponent_le_unit v) (by omega)
    have hdouble : x.mantissa * 2 ≤ r := by
      rw [← hmant]
      exact Nat.mul_le_mul_left _ (le_self_pow₀ one_le_two (by omega))
    have htop : 2 ^ f.precision = 2 ^ (f.precision - 2) * 4 := by
      rw [show (4 : ℕ) = 2 ^ 2 from rfl, ← pow_add]
      congr 1
      omega
    have hhalf : 2 ^ (f.precision - 1) = 2 ^ (f.precision - 2) * 2 := by
      rw [← pow_succ]
      congr 1
      omega
    omega

/-- The number with the sign of a rational one and its rounded magnitude is the nearest. -/
theorem isNearest_of_magnitude {x : Finite f} (hp : 1 < f.precision) {n : Numeral}
    (hs : x.negative = n.negative) (hm : x.magnitude = f.nearest n.magnitude) :
    x.IsNearest n.value := by
  have hdist : |x.value - n.value| = |f.nearest n.magnitude - n.magnitude| := by
    rw [value_eq, Numeral.value, hs, hm]
    split_ifs
    · rw [neg_sub_neg, abs_sub_comm]
    · rfl
  have hother (y : Finite f) : |y.magnitude - n.magnitude| ≤ |y.value - n.value| := by
    rw [← abs_value y, ← Numeral.abs_value n]
    exact abs_abs_sub_abs_le _ _
  have hround (y : Finite f) :=
    f.nearest_closest n.magnitude_nonneg y.canonical.1 y.canonical.2.1
  constructor
  · intro y
    rw [hdist]
    refine le_trans ?_ (hother y)
    rcases hround y with heq | hcloser | ⟨htie, -⟩
    · exact (congrArg (fun w => |w - n.magnitude|) heq).ge
    · exact hcloser.le
    · exact htie.le
  · intro y hne htie
    rcases hround y with heq | hcloser | ⟨-, heven⟩
    · -- the other one would have the same magnitude and the other sign
      have hflip : y.value = -x.value := by
        have habs : |y.value| = |x.value| := by
          rw [abs_value, abs_value, hm]
          exact heq
        exact (abs_eq_abs.1 habs).resolve_left hne
      have hnonzero : x.value ≠ 0 := by
        intro hzero
        rw [hzero, neg_zero] at hflip
        exact hne (hflip.trans hzero.symm)
      have hzero : n.value = 0 := by
        rw [hflip] at htie
        rcases abs_eq_abs.1 htie with h | h
        · exact absurd (by linarith) hnonzero
        · linarith
      rw [← abs_eq_zero, Numeral.abs_value] at hzero
      rw [hzero, Format.nearest_zero, ← abs_value, abs_eq_zero] at hm
      exact absurd hm hnonzero
    · rw [hdist] at htie
      exact absurd (hother y) (by rw [htie]; exact hcloser.not_ge)
    · exact mantissa_even hp hm heven

end Finite

/-- A numeral below the threshold is read as the number nearest to it. -/
theorem Format.ofNumeral_of_lt {f : Format} (hp : 1 < f.precision) {n : Numeral}
    (h : |n.value| < f.overflowThreshold) :
    ∃ x : Finite f, f.ofNumeral n = .finite x ∧ x.IsNearest n.value ∧ x.negative = n.negative := by
  rw [Numeral.abs_value, ← f.nearest_lt_iff n.magnitude_nonneg] at h
  obtain ⟨x, hx, hs, hm⟩ := (f.ofNumeral_standsFor n).exists_finite h
  exact ⟨x, hx, Finite.isNearest_of_magnitude hp hs hm, hs⟩

/-- What stands for a rounded natural number that is not too large is the number nearest to it. -/
theorem Floating.StandsFor.exists_isNearest {f : Format} (hp : 1 < f.precision) {x : Floating f}
    {n k : ℕ} (h : x.StandsFor false (f.nearest n)) (hn : n ≤ 2 ^ k)
    (hk : (k : ℤ) < f.maxExponent) : ∃ y : Finite f, x = .finite y ∧ y.IsNearest n := by
  have hlt : (n : ℚ) < f.overflowThreshold := by
    calc
      (n : ℚ) ≤ 2 ^ (k : ℤ) := by exact_mod_cast hn
      _ ≤ 2 ^ (f.maxExponent - 1) := two_zpow_le (by omega)
      _ < f.overflowThreshold := f.two_zpow_lt_overflowThreshold
  obtain ⟨y, hy, hs, hm⟩ := h.exists_finite ((f.nearest_lt_iff n.cast_nonneg).2 hlt)
  have hvalue : Numeral.value ⟨false, n, 0⟩ = n := by simp [Numeral.value, Numeral.magnitude]
  have hmagnitude : Numeral.magnitude ⟨false, n, 0⟩ = n := hvalue
  have hnearest := y.isNearest_of_magnitude (n := ⟨false, n, 0⟩) hp hs (by rw [hm, hmagnitude])
  rw [hvalue] at hnearest
  exact ⟨y, hy, hnearest⟩

/-- Any other numeral is beyond the range. -/
theorem Format.ofNumeral_of_le {f : Format} {n : Numeral} (h : f.overflowThreshold ≤ |n.value|) :
    f.ofNumeral n = .infinite n.negative := by
  have hstands := f.ofNumeral_standsFor n
  have hlarge : ¬f.nearest n.magnitude < 2 ^ f.maxExponent := by
    rw [f.nearest_lt_iff n.magnitude_nonneg, ← Numeral.abs_value]
    exact h.not_gt
  cases hx : f.ofNumeral n with
  | nan =>
    rw [hx] at hstands
    exact hstands.elim
  | infinite negative =>
    rw [hx] at hstands
    rw [hstands.1]
  | finite x =>
    rw [hx] at hstands
    exact absurd x.magnitude_lt (by rw [hstands.2]; exact hlarge)

end Abacus
