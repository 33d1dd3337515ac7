/-
Abacus.Proofs.Decimal.Monotone — larger numbers are not printed as smaller ones.

A number is rounded twice on its way to a text, first to its guard digits and
then to the wanted ones, and the grid of the first rounding depends on the
number.  A smaller number has the finer grid.  So the first rounding takes it
at most half a unit above the coarser grid, which is a multiple of the finer
one, and there the second rounding does not tell it from the larger number
(`nearest_round_mono`).  Whether a whole number is rounded to guard digits
depends on the length of its mantissa, but as it is on every grid, that makes
no difference (`taken_le_natCast`, `natCast_le_taken`).
-/
import Abacus.Proofs.Decimal.Rendering

namespace Abacus.Decimal

/-! ## Two roundings -/

/-- A grid that is no coarser for the smaller number keeps the order, as long as
it has guard digits for the larger one. -/
theorem nearest_round_mono {count : ℕ} (hcount : 0 < count) {k l : ℕ} (hlk : l ≤ k) {v w : ℚ}
    (hv : 0 ≤ v) (hvw : v ≤ w) (hw : 10 ^ count ≤ w * 10 ^ l) :
    nearest count (Tie.up.round (v * 10 ^ k) / 10 ^ k) ≤
      nearest count (Tie.up.round (w * 10 ^ l) / 10 ^ l) := by
  have hw0 : 0 ≤ w * 10 ^ l := mul_nonneg (hv.trans hvw) (by positivity)
  set n := Tie.up.round (w * 10 ^ l) with hn
  obtain ⟨d, rfl⟩ := Nat.exists_eq_add_of_le hlk
  cases d with
  | zero =>
    -- one grid for both
    refine nearest_mono hcount (by positivity) (div_le_div_of_nonneg_right ?_ (by positivity))
    rw [hn]
    exact_mod_cast Tie.up.round_mono (mul_le_mul_of_nonneg_right hvw (by positivity))
  | succ d =>
    have hlarge : 10 ^ count ≤ n := by
      have hround := Tie.up.round_mono (v := ((10 ^ count : ℕ) : ℚ)) (by push_cast; exact hw)
      rwa [Tie.round_natCast] at hround
    -- half a unit of the coarser grid is a multiple of the finer one
    have hhalf : ((n : ℚ) + 1 / 2) * 10 ^ (d + 1) = (n * 10 ^ (d + 1) + 5 * 10 ^ d : ℕ) := by
      push_cast
      ring
    have hle : v * 10 ^ (l + (d + 1)) ≤ (n * 10 ^ (d + 1) + 5 * 10 ^ d : ℕ) := by
      rw [← hhalf, pow_add, ← mul_assoc]
      refine mul_le_mul_of_nonneg_right ?_ (by positivity)
      calc
        v * 10 ^ l ≤ w * 10 ^ l := mul_le_mul_of_nonneg_right hvw (by positivity)
        _ ≤ n + 1 / 2 := (Tie.lt_round_up_add_half hw0).le
    have hround := Tie.up.round_mono hle
    rw [Tie.round_natCast] at hround
    rw [← nearest_add_half hlarge]
    refine nearest_mono hcount (by positivity) ?_
    have hsplit : ((n : ℚ) + 1 / 2) * 10 ^ (l + (d + 1)) =
        (n * 10 ^ (d + 1) + 5 * 10 ^ d : ℕ) * 10 ^ l := by
      rw [← hhalf, pow_add]
      ring
    rw [div_le_div_iff₀ (by positivity) (by positivity), hsplit]
    exact mul_le_mul_of_nonneg_right (by exact_mod_cast hround) (by positivity)

/-! ## The magnitude printed -/

section AnyFormat

variable {f g : Format}

/-- The magnitude that a number is printed as when its digits are taken from it
directly. -/
def printedMagnitude (x : Finite f) (count : ℕ) : ℚ :=
  nearest count (taken x.mantissa x.exponent count)

theorem printedMagnitude_nonneg (x : Finite f) (count : ℕ) : 0 ≤ printedMagnitude x count :=
  nearest_nonneg count _

theorem printedMagnitude_of_isZero {x : Finite f} (hx : x.isZero = true) (count : ℕ) :
    printedMagnitude x count = 0 := by
  have hm : x.mantissa = 0 := by simpa [Finite.isZero] using hx
  rw [printedMagnitude, taken, hm, Nat.cast_zero, zero_mul, zero_mul, Tie.round_zero,
    Nat.cast_zero, zero_div, ite_self, nearest_zero]

/-- No digits are taken beyond a whole number. -/
theorem taken_le_natCast {m n : ℕ} {e : ℤ} (h : (m : ℚ) * 2 ^ e ≤ n) (count : ℕ) :
    taken m e count ≤ n := by
  unfold taken
  split_ifs
  · exact h
  · set k := count + guardDigits + leadingZeros (m.log2 + 1 + e)
    have hround := Tie.up.round_mono (w := ((n * 10 ^ k : ℕ) : ℚ))
      (show (m : ℚ) * 2 ^ e * 10 ^ k ≤ _ by
        push_cast
        exact mul_le_mul_of_nonneg_right h (by positivity))
    rw [Tie.round_natCast] at hround
    rw [div_le_iff₀ (by positivity)]
    exact_mod_cast hround

theorem natCast_le_taken {m n : ℕ} {e : ℤ} (h : (n : ℚ) ≤ m * 2 ^ e) (count : ℕ) :
    n ≤ taken m e count := by
  unfold taken
  split_ifs
  · exact h
  · set k := count + guardDigits + leadingZeros (m.log2 + 1 + e)
    have hround := Tie.up.round_mono (v := ((n * 10 ^ k : ℕ) : ℚ))
      (show _ ≤ (m : ℚ) * 2 ^ e * 10 ^ k by
        push_cast
        exact mul_le_mul_of_nonneg_right h (by positivity))
    rw [Tie.round_natCast] at hround
    rw [le_div_iff₀ (by positivity)]
    exact_mod_cast hround

/-- The digits of a whole number of full length are taken as they are. -/
theorem exists_taken_eq_natCast {x : Finite f} (h : 0 ≤ x.exponent) :
    ∃ n : ℕ, x.magnitude = n ∧ ∀ count, taken x.mantissa x.exponent count = n := by
  have hwhole : x.magnitude = (x.mantissa * 2 ^ x.exponent.toNat : ℕ) := by
    push_cast
    rw [Finite.magnitude, ← zpow_natCast, Int.toNat_of_nonneg h]
  exact ⟨_, hwhole, fun count => (if_pos h).trans hwhole⟩

theorem isZero_of_magnitude_le {x : Finite f} {y : Finite g} (hx : x.isZero = false)
    (h : x.magnitude ≤ y.magnitude) : y.isZero = false := by
  rw [Bool.eq_false_iff, Ne, ← Finite.magnitude_eq_zero_iff]
  exact ((Finite.magnitude_pos hx).trans_le h).ne'

theorem binaryExponent_mono {x : Finite f} {y : Finite g} (hx : x.isZero = false)
    (h : x.magnitude ≤ y.magnitude) : x.binaryExponent ≤ y.binaryExponent := by
  rw [Finite.binaryExponent_eq hx, Finite.binaryExponent_eq (isZero_of_magnitude_le hx h)]
  exact Int.add_le_add_right (Int.log_mono_right (Finite.magnitude_pos hx) h) 1

/-- The larger magnitude is not printed as the smaller one. -/
theorem printedMagnitude_mono (hf : f.HasSmallExponents) (hg : g.HasSmallExponents) {x : Finite f}
    {y : Finite g} (h : x.magnitude ≤ y.magnitude) {count : ℕ} (hcount : 0 < count) :
    printedMagnitude x count ≤ printedMagnitude y count := by
  cases hx : x.isZero with
  | true =>
    rw [printedMagnitude_of_isZero hx]
    exact printedMagnitude_nonneg y count
  | false =>
    have hy := isZero_of_magnitude_le hx h
    obtain ⟨hxlow, hxhigh⟩ := Finite.binaryExponent_bounds hf hx
    obtain ⟨hylow, hyhigh⟩ := Finite.binaryExponent_bounds hg hy
    have hxtaken := (taken_within_half (Finite.mantissa_pos hx) hxlow hxhigh count).2
    rcases le_or_gt 0 y.exponent with hye | hye
    · -- the larger number is kept
      obtain ⟨n, hn, hkept⟩ := exists_taken_eq_natCast hye
      refine nearest_mono hcount hxtaken.le ?_
      rw [hkept]
      exact taken_le_natCast (h.trans_eq hn) count
    rcases le_or_gt 0 x.exponent with hxe | hxe
    · -- the smaller number is kept
      obtain ⟨n, hn, hkept⟩ := exists_taken_eq_natCast hxe
      refine nearest_mono hcount hxtaken.le ?_
      rw [hkept]
      exact natCast_le_taken (hn.symm.trans_le h) count
    · have hzeros := leadingZeros_antitone hxlow (binaryExponent_mono hx h) hyhigh
      have hquarter : 1 / 4 ≤ y.magnitude * 10 ^ leadingZeros y.binaryExponent :=
        quarter_le_mul_leadingZeros (Finite.mantissa_pos hy) hylow hyhigh
      have hlarge : 10 ^ count ≤
          y.magnitude * 10 ^ (count + guardDigits + leadingZeros y.binaryExponent) := by
        calc
          (10 : ℚ) ^ count ≤ 1 / 4 * 10 ^ (count + guardDigits) := by
            rw [pow_add, guardDigits]
            have : (0 : ℚ) < 10 ^ count := by positivity
            linarith
          _ ≤ y.magnitude * 10 ^ leadingZeros y.binaryExponent * 10 ^ (count + guardDigits) :=
            mul_le_mul_of_nonneg_right hquarter (by positivity)
          _ = _ := by
            rw [pow_add _ (count + guardDigits)]
            ring
      rw [printedMagnitude, printedMagnitude, taken, taken, if_neg hxe.not_ge, if_neg hye.not_ge]
      exact nearest_round_mono hcount (Nat.add_le_add_left hzeros _) x.magnitude_nonneg h hlarge

/-! ## The number printed -/

/-- The number is zero, or its digits are taken from it directly. -/
def IsDirect (x : Finite f) : Prop :=
  x.isZero = true ∨ (estimate x.binaryExponent logTenOfTwo).floor.natAbs ≤ directExponent

/-- The number that a number is printed as. -/
def printed (x : Finite f) (count : ℕ) : ℚ :=
  if x.negative then -printedMagnitude x count else printedMagnitude x count

/-- The text of a number denotes what it is printed as. -/
theorem exists_printed (hf : f.HasSmallExponents) {x : Finite f} (hx : IsDirect x) {count : ℕ}
    (hcount : 0 < count) (hcount' : count < 2 ^ 31) :
    ∃ text n, (Floating.finite x).render? count = some text ∧ Numeral.read? text.toList = some n ∧
      n.value = printed x count := by
  cases hzero : x.isZero with
  | true =>
    refine ⟨"0", ⟨false, 0, 0⟩, render?_of_isZero hzero count, by decide +kernel, ?_⟩
    rw [printed, printedMagnitude_of_isZero hzero, neg_zero, ite_self]
    norm_num [Numeral.value, Numeral.magnitude]
  | false =>
    have hdirect := hx.resolve_left (Bool.eq_false_iff.1 hzero)
    have hprepare : prepare? x count = some ((x.mantissa, x.exponent), 0) :=
      if_neg (Nat.not_lt.2 hdirect)
    obtain ⟨digits, point, hfinite, htrimmed, -, hvalue⟩ :=
      renderFinite?_of_prepare hf hzero hcount hcount' hprepare
    rw [zpow_zero, mul_one] at hvalue
    obtain ⟨n, hread, hneg, hmag⟩ := read?_layout htrimmed.toLeading point x.negative count
    rw [← render?_of_isZero_eq_false hzero] at hfinite
    refine ⟨_, n, hfinite, by rwa [String.toList_ofList], ?_⟩
    rw [Numeral.value, hneg, hmag, hvalue]
    rfl

theorem printed_mono (hf : f.HasSmallExponents) (hg : g.HasSmallExponents) {x : Finite f}
    {y : Finite g} (h : x.value ≤ y.value) {count : ℕ} (hcount : 0 < count) :
    printed x count ≤ printed y count := by
  have hx := printedMagnitude_nonneg x count
  have hy := printedMagnitude_nonneg y count
  rw [Finite.value_eq, Finite.value_eq] at h
  unfold printed
  have hx0 := x.magnitude_nonneg
  have hy0 := y.magnitude_nonneg
  cases hxs : x.negative <;> cases hys : y.negative <;>
    simp only [hxs, hys, Bool.false_eq_true, if_false, if_true] at h ⊢
  · exact printedMagnitude_mono hf hg h hcount
  · -- only zeros
    rw [printedMagnitude_of_isZero (x := x) (Finite.magnitude_eq_zero_iff.1 (by linarith)),
      printedMagnitude_of_isZero (x := y) (Finite.magnitude_eq_zero_iff.1 (by linarith)), neg_zero]
  · linarith
  · exact neg_le_neg (printedMagnitude_mono hg hf (neg_le_neg_iff.1 h) hcount)

/-- Two numbers have texts, and the first of these denotes no larger number than
the second. -/
def PrintsInOrder (x : Finite f) (y : Finite g) (count : ℕ) : Prop :=
  ∃ s t m n, (Floating.finite x).render? count = some s ∧
    (Floating.finite y).render? count = some t ∧ Numeral.read? s.toList = some m ∧
    Numeral.read? t.toList = some n ∧ m.value ≤ n.value

end AnyFormat

/-- Numbers whose digits are taken from them directly are printed in their order, however long
the mantissa of each is. -/
theorem prints_in_order {p q : ℕ} {hp : 0 < p} {hq : 0 < q} (hplong : p ≤ longestPrecision)
    (hqlong : q ≤ longestPrecision) {x : Finite (Format.wide p hp)} {y : Finite (Format.wide q hq)}
    (hx : IsDirect x) (hy : IsDirect y) (h : x.value ≤ y.value) {count : ℕ} (hcount : 0 < count)
    (hcount' : count < 2 ^ 31) : PrintsInOrder x y count := by
  have hf : (Format.wide p hp).HasSmallExponents := hasSmallExponents_wide hplong
  have hg : (Format.wide q hq).HasSmallExponents := hasSmallExponents_wide hqlong
  obtain ⟨s, m, hs, hm, hmvalue⟩ := exists_printed hf hx hcount hcount'
  obtain ⟨t, n, ht, hn, hnvalue⟩ := exists_printed hg hy hcount hcount'
  refine ⟨s, t, m, n, hs, ht, hm, hn, ?_⟩
  rw [hmvalue, hnvalue]
  exact printed_mono hf hg h hcount

theorem value_mul_two_pow {m k : ℕ} {e : ℤ} (h : Format.decimal.Canonical (m * 2 ^ k) e) :
    (⟨false, m * 2 ^ k, e, h⟩ : Finite Format.decimal).value = m * 2 ^ (k + e) := by
  rw [two_zpow_add, zpow_natCast, ← mul_assoc]
  exact congrArg (· * (2 : ℚ) ^ e) (by push_cast [Finite.signedMantissa, Finite.withSign]; rfl)

/-- 7/128 and one quarter, in one digit. -/
theorem prints_in_order_quarter :
    let x : Finite Format.decimal := ⟨false, 7 * 2 ^ 253, -260, by decide +kernel⟩
    let y : Finite Format.decimal := ⟨false, 1 * 2 ^ 255, -257, by decide +kernel⟩
    IsDirect x ∧ IsDirect y ∧ x.value ≤ y.value ∧ 0 < 1 ∧ 1 < 2 ^ 31 ∧ PrintsInOrder x y 1 := by
  intro x y
  have hx : IsDirect x := .inr (by decide +kernel)
  have hy : IsDirect y := .inr (by decide +kernel)
  have h : x.value ≤ y.value := by
    rw [value_mul_two_pow, value_mul_two_pow]
    norm_num
  exact ⟨hx, hy, h, one_pos, by decide,
    prints_in_order (by decide) (by decide) hx hy h one_pos (by decide)⟩

/-- In nearly `2 ^ 32` digits, 7/128 is printed as a small number and one quarter
as zero. -/
theorem not_printsInOrder_quarter :
    ¬ ∀ (x y : Finite Format.decimal) (count : ℕ), IsDirect x → IsDirect y →
      x.value ≤ y.value → 0 < count → PrintsInOrder x y count := by
  intro h
  set x : Finite Format.decimal := ⟨false, 7 * 2 ^ 253, -260, by decide +kernel⟩ with hx
  set y : Finite Format.decimal := ⟨false, 1 * 2 ^ 255, -257, by decide +kernel⟩ with hy
  have hxy : x.value ≤ y.value := by
    rw [hx, hy, value_mul_two_pow, value_mul_two_pow]
    norm_num
  obtain ⟨s, t, m, n, hs, ht, hm, hn, hle⟩ :=
    h x y 4294967290 (.inr (by decide +kernel)) (.inr (by decide +kernel)) hxy (by norm_num)
  have hxtext : (Floating.finite x).render? 4294967290 = some "1E-4294967297" := by decide +kernel
  have hytext : (Floating.finite y).render? 4294967290 = some "0" := by decide +kernel
  rw [hxtext, Option.some.injEq] at hs
  rw [hytext, Option.some.injEq] at ht
  have hxread : Numeral.read? "1E-4294967297".toList = some ⟨false, 1, -4294967297⟩ := by
    decide +kernel
  have hyread : Numeral.read? "0".toList = some ⟨false, 0, 0⟩ := by decide +kernel
  rw [← hs, hxread, Option.some.injEq] at hm
  rw [← ht, hyread, Option.some.injEq] at hn
  have hmpos : 0 < m.value := by
    rw [← hm]
    exact mul_pos (by norm_num) (ten_zpow_pos _)
  have hnzero : n.value = 0 := by
    rw [← hn]
    norm_num [Numeral.value, Numeral.magnitude]
  linarith

end Abacus.Decimal
