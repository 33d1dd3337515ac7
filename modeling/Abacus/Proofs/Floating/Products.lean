/-
Abacus.Proofs.Floating.Products — how close products and quotients are.

A product or quotient that underflows may be rounded twice, and may have lost
most of its bits then.  A result that has all of its bits is close to the exact
one however often it was rounded, as it is rounded from a number that is closer
than the precision (`roundProduct_cases`).  Dividing by a number and multiplying
by it again therefore gives a number close to the first one
(`Finite.div_mul_close`).
-/
import Abacus.Proofs.Floating.Scaling

namespace Abacus

/-- What is close to something that is close to a magnitude is close to this. -/
theorem abs_sub_le_of_close {u v w a b : ℚ} (ha : 0 ≤ a) (huv : |u - v| ≤ v * a)
    (hvw : |v - w| ≤ w * b) : |u - w| ≤ w * (a + b + a * b) := by
  have hv : v ≤ w * (1 + b) := by linarith [(abs_le.1 hvw).2]
  calc
    |u - w| ≤ |u - v| + |v - w| := abs_sub_le _ _ _
    _ ≤ w * (1 + b) * a + w * b := add_le_add (huv.trans (mul_le_mul_of_nonneg_right hv ha)) hvw
    _ = w * (a + b + a * b) := by ring

variable {f : Format}

/-! ## Numbers with all of their bits -/

/-- The exponent is in range: the number is neither beyond the largest one nor below the least one
of full precision, from where on bits are lost. -/
def Floating.IsNormal : Floating f → Prop
  | finite x => 2 ^ (f.precision - 1) ≤ x.mantissa
  | _ => False

instance : DecidablePred (Floating.IsNormal (f := f))
  | .finite x => inferInstanceAs (Decidable (2 ^ (f.precision - 1) ≤ x.mantissa))
  | .infinite _ | .nan => .isFalse id

namespace Finite

/-- The number has this sign, and is off this magnitude by a few units of its last bit. -/
structure IsCloseTo (x : Finite f) (negative : Bool) (v : ℚ) : Prop where
  negative : x.negative = negative
  close : |x.magnitude - v| ≤ v * (4 / 2 ^ f.precision)

variable {x : Finite f} (h : (Floating.finite x).IsNormal)
include h

theorem isZero_of_isNormal : x.isZero = false := by
  have hpos : 0 < x.mantissa := (Nat.two_pow_pos _).trans_le h
  rw [isZero, beq_eq_false_iff_ne]
  exact hpos.ne'

theorem two_zpow_le_of_isNormal : 2 ^ (f.minExponent + f.precision - 1) ≤ x.magnitude := by
  have hfull : (2 : ℚ) ^ (f.precision - 1) ≤ x.mantissa := by exact_mod_cast h
  calc
    (2 : ℚ) ^ (f.minExponent + f.precision - 1)
      = 2 ^ (f.precision - 1) * 2 ^ f.minExponent := by
        rw [← zpow_natCast, ← two_zpow_add, f.precision_sub_one]
        congr 1
        ring
    _ ≤ x.mantissa * 2 ^ x.exponent :=
        mul_le_mul hfull (two_zpow_le x.canonical.2.1) (two_zpow_pos _).le (Nat.cast_nonneg _)

end Finite

theorem Floating.IsNormal.exists_finite {x : Floating f} (h : x.IsNormal) :
    ∃ y : Finite f, x = .finite y ∧ y.isZero = false := by
  match x, h with
  | .finite y, h => exact ⟨y, rfl, Finite.isZero_of_isNormal h⟩

/-! ## Rounding with a small relative error -/

namespace Format

variable (f)

/-- Where the rounded magnitude has all of its bits, it is close to the exact one, even if this
is just below the least magnitude of full precision. -/
theorem abs_nearest_sub_le_of_le_nearest {v : ℚ} (hv : 0 ≤ v)
    (h : 2 ^ (f.minExponent + f.precision - 1) ≤ f.nearest v) :
    |f.nearest v - v| ≤ v * (2 / 2 ^ f.precision) := by
  rcases le_or_gt (2 ^ (f.minExponent + f.precision - 1)) v with hle | hlt
  · refine (f.abs_nearest_sub_le_mul hle).trans ?_
    rw [div_eq_mul_one_div v]
    gcongr
    norm_num
  · have hpos : 0 < v := by
      refine hv.lt_of_ne' ?_
      rintro rfl
      rw [f.nearest_zero] at h
      exact h.not_gt (two_zpow_pos _)
    have hlog := (Int.lt_zpow_iff_log_lt one_lt_two hpos).1 (by exact_mod_cast hlt)
    have hunit : f.unit v = f.minExponent := by
      unfold unit
      omega
    have herror := f.abs_nearest_sub_le hv
    rw [hunit] at herror
    have hprecision := f.precision_pos
    have hleast : (2 : ℚ) ^ f.minExponent ≤ 2 ^ (f.minExponent + f.precision - 1) :=
      two_zpow_le (by omega)
    rw [← mul_div_assoc, le_div_iff₀ (by positivity)]
    calc
      |f.nearest v - v| * 2 ^ f.precision ≤ 2 ^ f.minExponent / 2 * 2 ^ f.precision :=
        mul_le_mul_of_nonneg_right herror (by positivity)
      _ = 2 ^ (f.minExponent + f.precision - 1) := by
        rw [zpow_sub_one₀ two_ne_zero, two_zpow_add, zpow_natCast]
        ring
      _ ≤ v * 2 := by linarith [(abs_le.1 herror).2]

/-- The format with smaller numbers, down to this exponent. -/
def reaching (k : ℤ) : Format :=
  { f with
    minExponent := min f.minExponent k
    room := by
      have := f.room
      omega }

/-- A magnitude that is rounded twice is rounded to a number of the format from one that is closer
than the precision. -/
theorem roundTwice_cases (negative : Bool) (num : ℕ) {den : ℕ} (hden : 0 < den) (scale : ℤ) :
    ∃ w : ℚ, 0 ≤ w ∧ |w - num / den * 2 ^ scale| ≤ num / den * 2 ^ scale / 2 ^ f.precision ∧
      (f.roundTwice negative num den scale = .finite (.zero negative) ∨
        (f.roundTwice negative num den scale).StandsFor negative (f.nearest w)) := by
  rcases Nat.eq_zero_or_pos num with rfl | hnum
  · refine ⟨0, le_rfl, by simp, .inl ?_⟩
    simp [roundTwice]
  have hd : (0 : ℚ) < den := by exact_mod_cast hden
  set v : ℚ := num / den * 2 ^ scale with hv
  have hv0 : 0 < v := mul_pos (div_pos (by exact_mod_cast hnum) hd) (two_zpow_pos _)
  set e : ℤ := Int.log 2 v + 1 - f.precision with he
  have hunit : (f.reaching e).unit v = e := by
    change max (Int.log 2 v + 1 - f.precision) (min f.minExponent e) = e
    omega
  have hlow : (2 : ℚ) ^ ((f.reaching e).minExponent + (f.reaching e).precision - 1) ≤ v := by
    refine (two_zpow_le ?_).trans (two_zpow_log_le hv0)
    change min f.minExponent e + f.precision - 1 ≤ Int.log 2 v
    omega
  refine ⟨(f.reaching e).nearest v, nearest_nonneg _ v,
    (f.reaching e).abs_nearest_sub_le_mul hlow, ?_⟩
  rw [f.roundTwice_eq negative hnum hden hv he]
  split_ifs
  · exact .inl rfl
  · right
    have hround := f.round_standsFor negative (Tie.even.round (v / 2 ^ e)) one_pos e
    have hfull : (f.reaching e).nearest v = Tie.even.round (v / 2 ^ e) * 2 ^ e := by
      rw [nearest, hunit]
    rwa [Nat.cast_one, div_one, ← hfull] at hround

theorem roundProduct_cases (negative : Bool) (num : ℕ) {den : ℕ} (hden : 0 < den) (scale : ℤ) :
    ∃ w : ℚ, 0 ≤ w ∧ |w - num / den * 2 ^ scale| ≤ num / den * 2 ^ scale / 2 ^ f.precision ∧
      (f.roundProduct negative num den scale = .finite (.zero negative) ∨
        (f.roundProduct negative num den scale).StandsFor negative (f.nearest w)) := by
  unfold roundProduct
  cases f.underflow with
  | once =>
    refine ⟨num / den * 2 ^ scale, by positivity, ?_, .inr ?_⟩
    · rw [sub_self, abs_zero]
      positivity
    · exact f.round_standsFor negative num hden scale
  | twice => exact f.roundTwice_cases negative num hden scale

end Format

/-- What a magnitude is rounded to from one that is closer than the precision is close to it, if
it has all of its bits. -/
theorem Floating.StandsFor.exists_close {x : Floating f} {negative : Bool} {v w : ℚ}
    (h : x.StandsFor negative (f.nearest w)) (hx : x.IsNormal) (hw : 0 ≤ w)
    (hclose : |w - v| ≤ v / 2 ^ f.precision) :
    ∃ y : Finite f, x = .finite y ∧ y.isZero = false ∧ y.IsCloseTo negative v := by
  match x, h, hx with
  | .finite y, ⟨hsign, hmagnitude⟩, hx =>
    refine ⟨y, rfl, Finite.isZero_of_isNormal hx, hsign, ?_⟩
    have hnormal := Finite.two_zpow_le_of_isNormal hx
    rw [hmagnitude] at hnormal ⊢
    have hpower : (2 : ℚ) ≤ 2 ^ f.precision := le_self_pow₀ one_le_two f.precision_pos.ne'
    have hone : 1 / (2 : ℚ) ^ f.precision ≤ 1 / 2 := one_div_le_one_div_of_le two_pos hpower
    rw [div_eq_mul_one_div] at hclose
    have hv : 0 ≤ v := by
      have := (abs_nonneg _).trans hclose
      exact nonneg_of_mul_nonneg_left this (by positivity)
    refine (abs_sub_le_of_close (by positivity)
      (f.abs_nearest_sub_le_of_le_nearest hw hnormal) hclose).trans
      (mul_le_mul_of_nonneg_left ?_ hv)
    calc
      2 / (2 : ℚ) ^ f.precision + 1 / 2 ^ f.precision + 2 / 2 ^ f.precision * (1 / 2 ^ f.precision)
        ≤ 2 / 2 ^ f.precision + 1 / 2 ^ f.precision + 2 / 2 ^ f.precision * (1 / 2) := by gcongr
      _ = 4 / 2 ^ f.precision := by ring

theorem Format.roundProduct_close (f : Format) {negative : Bool} {num den : ℕ} (hden : 0 < den)
    {scale : ℤ} (h : (f.roundProduct negative num den scale).IsNormal) :
    ∃ z : Finite f, f.roundProduct negative num den scale = .finite z ∧ z.isZero = false ∧
      z.IsCloseTo negative (num / den * 2 ^ scale) := by
  obtain ⟨w, hw, hclose, hzero | hstands⟩ := f.roundProduct_cases negative num hden scale
  · rw [hzero] at h
    exact absurd (Finite.isZero_of_isNormal h) (by simp [Finite.isZero, Finite.zero])
  · exact hstands.exists_close h hw hclose

namespace Finite

variable {x y q p : Finite f}

/-- A product with all of its bits. -/
theorem exists_mul_close (h : (x.mul y).IsNormal) :
    ∃ z, x.mul y = .finite z ∧ z.isZero = false ∧
      z.IsCloseTo (x.negative != y.negative) (x.magnitude * y.magnitude) := by
  obtain ⟨z, hz, hnonzero, hclose⟩ := f.roundProduct_close one_pos h
  refine ⟨z, hz, hnonzero, ?_⟩
  rwa [product_eq] at hclose

/-- A quotient with all of its bits. -/
theorem exists_div_close (hy : y.isZero = false) (h : (x.div y).IsNormal) :
    ∃ z, x.div y = .finite z ∧ z.isZero = false ∧
      z.IsCloseTo (x.negative != y.negative) (x.magnitude / y.magnitude) := by
  obtain ⟨z, hz, hnonzero, hclose⟩ := f.roundProduct_close (mantissa_pos hy) h
  refine ⟨z, hz, hnonzero, ?_⟩
  rwa [quotient_eq] at hclose

/-- Multiplying a quotient by its divisor gives a number close to the dividend. -/
theorem div_mul_close (hy : y.isZero = false)
    (hq : q.IsCloseTo (x.negative != y.negative) (x.magnitude / y.magnitude))
    (hp : p.IsCloseTo (q.negative != y.negative) (q.magnitude * y.magnitude)) :
    p.negative = x.negative ∧ |p.magnitude - x.magnitude| ≤
      x.magnitude * (4 / 2 ^ f.precision + 4 / 2 ^ f.precision +
        4 / 2 ^ f.precision * (4 / 2 ^ f.precision)) := by
  have hpos := magnitude_pos hy
  constructor
  · rw [hp.negative, hq.negative]
    cases x.negative <;> cases y.negative <;> rfl
  · have hback : |q.magnitude * y.magnitude - x.magnitude| ≤
        x.magnitude * (4 / 2 ^ f.precision) := by
      have hscaled := mul_le_mul_of_nonneg_right hq.close hpos.le
      rwa [← abs_of_pos hpos, ← abs_mul, abs_of_pos hpos, sub_mul, mul_right_comm,
        div_mul_cancel₀ _ hpos.ne'] at hscaled
    exact abs_sub_le_of_close (by positivity) hp.close hback

end Finite

end Abacus
