/-
Abacus.Proofs.NumberSystem.PowerLaw — one case law for decimal powers.

A power is computed in one of four ways: as a product, as one divided by a
product, by the library with the sign put back, and by the library alone.
Before the sign is put back, the magnitude one is exact and a power far out of
range is not computed at all.  Each way ends in a result of known sign or in an
overflow (`PowerResult`), and which way is taken depends on the values of base
and exponent only (`pow_cases`), so all of them share one law
(`pow_follows_case_law`).  Of the powers that the library computes only the
sign matters.
-/
import Abacus.Proofs.NumberSystem.WholeNumbers

namespace Abacus

/-! ## Signs and values -/

namespace Finite

variable {f : Format}

/-- The sign bit counts unless the number is zero. -/
theorem value_neg_iff {x : Finite f} : x.value < 0 ↔ x.negative = true ∧ x.isZero = false := by
  cases hzero : x.isZero with
  | true => simp [value_eq_zero_iff.2 hzero]
  | false => simp [negative_eq hzero]

theorem value_nonneg_of_negative {x : Finite f} (h : x.negative = false) : 0 ≤ x.value := by
  rw [← not_lt, value_neg_iff, h]
  exact fun hneg => Bool.false_ne_true hneg.1

end Finite

theorem Floating.HasSign.checked {f : Format} {negative : Bool} {x : Floating f}
    (h : x.HasSign negative) (origin : Origin) :
    (∃ y : Finite f, x.checked origin = .ok (.finite y) ∧ y.negative = negative) ∨
      x.checked origin = .error (.overflow (.result origin)) := by
  cases h with
  | infinite => exact .inr rfl
  | @finite y hy => exact .inl ⟨y, rfl, hy⟩

namespace NumberSystem.Decimal

variable {b x : Finite Format.decimal} {n : ℤ}

theorem isInt_one : (Floating.one : Decimal).IsInt 1 :=
  Floating.isInt_ofInt hasWholeNumbers_decimal (by decide)

/-- The result of a power that is defined: zero, a number of this sign, or out
of range. -/
inductive PowerResult (negative : Bool) : Except EvaluationError Decimal → Prop where
  | value {y : Finite Format.decimal} (h : y.value ≠ 0 → y.negative = negative) :
      PowerResult negative (.ok (.finite y))
  | outOfRange : PowerResult negative (.error (.overflow (.result .power)))

theorem PowerResult.of_hasSign {negative : Bool} {x : Decimal} (h : x.HasSign negative) :
    PowerResult negative (x.checked .power) := by
  obtain ⟨y, hy, hsign⟩ | hoverflow := h.checked .power
  · rw [hy]
    exact .value fun _ => hsign
  · rw [hoverflow]
    exact .outOfRange

/-- The sign of an integral power. -/
def powerSign (b : Finite Format.decimal) (n : ℤ) : Bool :=
  decide (b.value < 0 ∧ Odd n)

theorem powerSign_of_zero (h : b.value = 0) (n : ℤ) : powerSign b n = false :=
  decide_eq_false fun hneg => hneg.1.ne h

theorem powerSign_of_nonzero (h : b.value ≠ 0) (n : ℤ) :
    powerSign b n = (b.negative && decide (Odd n)) := by
  rw [powerSign, Finite.negative_eq (Finite.value_ne_zero_iff.1 h), Bool.decide_and]

/-! ## Powers as products -/

theorem natAbs_mod_two_beq (n : ℤ) : (n.natAbs % 2 == 1) = decide (Odd n) := by
  rw [Bool.eq_iff_iff, beq_iff_eq, decide_eq_true_eq, ← Int.natAbs_odd, Nat.odd_iff]

/-- The power of zero is zero, unless the exponent is. -/
theorem isZero_natPow (hb : b.value = 0) {k : ℕ} (hk : k ≠ 0) : (b.natPow k).isZero = true := by
  have hround := Decimal.raisesToPowers.nearest b k
  rw [Finite.magnitude_eq_zero_iff.2 (Finite.value_eq_zero_iff.1 hb), zero_pow hk,
    Format.nearest_zero] at hround
  obtain ⟨y, hy, -, hmag⟩ := hround.exists_finite (two_zpow_pos _)
  rw [hy]
  exact Finite.magnitude_eq_zero_iff.1 hmag

theorem natPow_hasSign (h : (b.natPow n.natAbs).isZero = false) :
    (b.natPow n.natAbs).HasSign (powerSign b n) := by
  have hround := (Decimal.raisesToPowers.nearest b n.natAbs).hasSign
  rw [natAbs_mod_two_beq] at hround
  by_cases hb : b.value = 0
  · obtain rfl : n = 0 := by
      by_contra hn
      exact absurd (isZero_natPow hb (Int.natAbs_ne_zero.2 hn)) (Bool.eq_false_iff.1 h)
    rwa [powerSign_of_zero hb, ← Bool.and_false b.negative]
  · rwa [powerSign_of_nonzero hb]

theorem powByMultiplication_result (b : Finite Format.decimal) (negative : Bool) (n : ℤ) :
    PowerResult (powerSign b n) (powByMultiplication b negative n.natAbs) := by
  unfold powByMultiplication
  dsimp only
  cases hzero : (b.natPow n.natAbs).isZero with
  | true =>
    match hpower : b.natPow n.natAbs, hzero with
    | .finite y, hzero =>
      rw [if_pos (rfl : true = true)]
      split_ifs
      · exact .value fun hvalue => absurd (Finite.value_eq_zero_iff.2 hzero) hvalue
      · exact .outOfRange
  | false =>
    have hsign := natPow_hasSign hzero
    rw [if_neg Bool.false_ne_true]
    split_ifs
    · exact .of_hasSign hsign
    · obtain ⟨one, hone, hvalue⟩ := isInt_one
      have hdiv := one.div_hasSign hsign hzero
      rw [Finite.negative_of_value hvalue one_ne_zero, decide_eq_false (by decide),
        Bool.false_bne] at hdiv
      rw [hone]
      exact .of_hasSign hdiv

/-- The magnitude one stays one, whichever way the product is used. -/
theorem powByMultiplication_of_one {k : ℕ} (h : b.magnitude ^ k = 1) (negative : Bool) :
    ∃ y, powByMultiplication b negative k = .ok y ∧
      y.IsInt (ofSign (b.negative && k % 2 == 1) 1) := by
  have hone : 1 ≤ 2 ^ Format.decimal.precision := Nat.one_le_two_pow
  set m := ofSign (b.negative && k % 2 == 1) 1 with hm
  have habs : m.natAbs = 1 := natAbs_ofSign _ 1
  have hpower : (b.natPow k).IsInt m := by
    have hround := Decimal.raisesToPowers.nearest b k
    rw [h, ← Nat.cast_one] at hround
    exact isInt_ofSign hasWholeNumbers_decimal hround hone
  have hm0 : m ≠ 0 := by
    rintro h0
    rw [h0] at habs
    cases habs
  unfold powByMultiplication
  dsimp only
  cases negative with
  | false => exact ⟨_, hpower.checked .power, hpower⟩
  | true =>
    have hsquare : (Floating.one : Decimal).IsInt (m * m) := by
      rw [← Int.natAbs_mul_self, habs]
      exact Floating.isInt_ofInt hasWholeNumbers_decimal hone
    have hquotient := hsquare.div hasWholeNumbers_decimal hpower hm0 (habs.trans_le hone)
    rw [Bool.not_true, if_neg Bool.false_ne_true, if_neg fun h0 => hm0 (hpower.isZero_iff.1 h0)]
    exact ⟨_, hquotient.checked .power, hquotient⟩

/-! ## Powers of magnitudes -/

/-- A magnitude with the sign of the power. -/
theorem PowerResult.of_magnitude (negative : Bool) {x : Decimal} (h : x.HasSign false) :
    PowerResult negative
      ((x.checked .power).map fun power => if negative then power.neg else power) := by
  obtain ⟨y, hy, hsign⟩ | hoverflow := h.checked .power
  · rw [hy]
    change PowerResult _ (.ok (if negative then Floating.neg (.finite y) else .finite y))
    cases negative with
    | true =>
      refine .value fun _ => ?_
      rw [Finite.neg, hsign, Bool.not_false]
    | false => exact .value fun _ => hsign
  · rw [hoverflow]
    exact .outOfRange

/-- The sign is put back behind the power of the magnitude, unless the magnitude is one or the
power is far out of range. -/
theorem powByLogarithm_of_nonzero (hx : x.value = n) (hb : b.value ≠ 0) :
    powByLogarithm b x =
      if ((Floating.finite b.abs).sub .one).isZero then
        .ok (if powerSign b n then Floating.one.neg else .one)
      else if isFar (b.abs.log.mul (.finite x)) then
        if hasMinus (b.abs.log.mul (.finite x)) then .ok (.finite (.zero false))
        else .error (.overflow (.result .power))
      else ((b.abs.pow x).checked .power).map fun power =>
        if powerSign b n then power.neg else power := by
  have hodd : x.isOddIntegral = decide (Odd n) :=
    Bool.eq_iff_iff.2 ((Finite.isOddIntegral_iff hx).trans decide_eq_true_iff.symm)
  unfold powByLogarithm
  dsimp only
  rw [if_neg (mt Finite.value_eq_zero_iff.2 hb), hodd, ← powerSign_of_nonzero hb]
  cases (b.abs.pow x).checked .power <;> rfl

theorem powByLogarithm_result (hx : x.value = n) :
    PowerResult (powerSign b n) (powByLogarithm b x) := by
  by_cases hb : b.value = 0
  · rw [show powByLogarithm b x = .ok (.finite b) from if_pos (Finite.value_eq_zero_iff.1 hb)]
    exact .value fun hvalue => absurd hb hvalue
  · rw [powByLogarithm_of_nonzero hx hb]
    split
    · have hresult := PowerResult.of_magnitude (powerSign b n) Floating.one_hasSign
      rwa [isInt_one.checked .power] at hresult
    · split
      · split
        · exact .value fun hvalue => absurd (Finite.value_zero false) hvalue
        · exact .outOfRange
      · exact .of_magnitude _ (Decimal.raisesToPowers.hasSign b.abs x)

/-- The magnitude one is recognised by its distance from one, which is exact. -/
theorem powByLogarithm_of_one (hx : x.value = n) (h : |b.value| = 1) :
    ∃ y, powByLogarithm b x = .ok y ∧ y.IsInt (ofSign (powerSign b n) 1) := by
  have hb : b.value ≠ 0 := by
    intro hb
    rw [hb, abs_zero] at h
    exact zero_ne_one h
  have hdistance : ((Floating.finite b.abs).sub .one).isZero = true := by
    have habs : (Floating.finite b.abs).IsInt 1 := by
      refine ⟨b.abs, rfl, ?_⟩
      rw [b.abs.value_eq, Int.cast_one, ← h, b.abs_value]
      rfl
    have hsub := habs.sub hasWholeNumbers_decimal isInt_one (by decide) (by decide) (by decide)
    exact hsub.isZero_iff.2 (sub_self 1)
  rw [powByLogarithm_of_nonzero hx hb, if_pos hdistance]
  refine ⟨_, rfl, ?_⟩
  cases powerSign b n with
  | true => exact isInt_one.neg
  | false => exact isInt_one

/-! ## Which way is taken -/

theorem isZero_and_negative_iff :
    (b.isZero && x.negative && !x.isZero) = true ↔ b.value = 0 ∧ x.value < 0 := by
  rw [Finite.value_eq_zero_iff, Finite.value_neg_iff, Bool.and_eq_true, Bool.and_eq_true,
    Bool.not_eq_true', and_assoc]

theorem pow_of_zero (h : b.value = 0 ∧ x.value < 0) :
    decimal.pow (.finite b) (.finite x) = .error .divisionByZero :=
  if_pos (isZero_and_negative_iff.2 h)

theorem pow_of_integral (h : ¬(b.value = 0 ∧ x.value < 0)) (hx : x.value = n) :
    decimal.pow (.finite b) (.finite x) =
      if x.binaryExponent ≤ 64 then powByMultiplication b x.negative n.natAbs
      else powByLogarithm b x := by
  have hmag : x.nearestMagnitude = n.natAbs := by
    rw [Finite.nearestMagnitude_eq, Finite.magnitude_of_value hx, Tie.round_natCast]
  change pow (.finite b) (.finite x) = _
  unfold pow
  dsimp only
  rw [if_neg (mt isZero_and_negative_iff.1 h), if_pos (Finite.isIntegral_iff.2 ⟨n, hx⟩), hmag]

theorem pow_of_fraction (h : ¬(b.value = 0 ∧ x.value < 0)) (hx : ∀ n : ℤ, x.value ≠ n) :
    decimal.pow (.finite b) (.finite x) =
      if b.value = 0 then .ok (.finite b)
      else if b.value < 0 then .error (.domain .fractionalPowerOfNegative)
      else (b.pow x).checked .power := by
  change pow (.finite b) (.finite x) = _
  unfold pow
  dsimp only
  rw [if_neg (mt isZero_and_negative_iff.1 h),
    if_neg (mt Finite.isIntegral_iff.1 (not_exists.2 hx))]
  by_cases hb : b.value = 0
  · rw [if_pos hb, if_pos (Finite.value_eq_zero_iff.1 hb)]
  · rw [if_neg hb, if_neg (mt Finite.value_eq_zero_iff.2 hb),
      Finite.negative_eq (Finite.value_ne_zero_iff.1 hb)]
    simp only [decide_eq_true_eq]

/-- A power is undefined, or a fractional power of a negative number, or has
a result of known sign. -/
theorem pow_cases (b x : Finite Format.decimal) :
    (b.value = 0 ∧ x.value < 0 ∧
      decimal.pow (.finite b) (.finite x) = .error .divisionByZero) ∨
    (b.value < 0 ∧ (∀ n : ℤ, x.value ≠ n) ∧
      decimal.pow (.finite b) (.finite x) = .error (.domain .fractionalPowerOfNegative)) ∨
    ((b.value = 0 → 0 ≤ x.value) ∧ (b.value < 0 → ∃ n : ℤ, x.value = n) ∧
      ∃ negative, (∀ n : ℤ, x.value = n → negative = powerSign b n) ∧
        PowerResult negative (decimal.pow (.finite b) (.finite x))) := by
  by_cases hdiv : b.value = 0 ∧ x.value < 0
  · exact .inl ⟨hdiv.1, hdiv.2, pow_of_zero hdiv⟩
  have hnonneg : b.value = 0 → 0 ≤ x.value := fun hb => not_lt.1 fun hx => hdiv ⟨hb, hx⟩
  right
  by_cases hx : ∃ n : ℤ, x.value = n
  · obtain ⟨n, hx⟩ := hx
    right
    refine ⟨hnonneg, fun _ => ⟨n, hx⟩, powerSign b n, fun m hm => ?_, ?_⟩
    · rw [show n = m by exact_mod_cast hx.symm.trans hm]
    · rw [pow_of_integral hdiv hx]
      split_ifs
      · exact powByMultiplication_result b x.negative n
      · exact powByLogarithm_result hx
  · rw [pow_of_fraction hdiv (not_exists.1 hx)]
    rcases lt_trichotomy b.value 0 with hb | hb | hb
    · left
      rw [if_neg hb.ne, if_pos hb]
      exact ⟨hb, not_exists.1 hx, rfl⟩
    · right
      rw [if_pos hb]
      exact ⟨hnonneg, fun hneg => absurd hb hneg.ne, false, fun n hn => absurd ⟨n, hn⟩ hx,
        .value fun hvalue => absurd hb hvalue⟩
    · right
      rw [if_neg hb.ne', if_neg hb.not_gt]
      exact ⟨hnonneg, fun hneg => absurd hb hneg.not_gt, false, fun n hn => absurd ⟨n, hn⟩ hx,
        .of_hasSign (Decimal.raisesToPowers.hasSign b x)⟩

/-- Where the magnitude of the base or the exponent makes the power one, the
result is exact. -/
theorem pow_of_one (hx : x.value = n) (h : |b.value| = 1 ∨ n = 0) :
    ∃ y, decimal.pow (.finite b) (.finite x) = .ok y ∧ y.IsInt (ofSign (powerSign b n) 1) := by
  have hdiv : ¬(b.value = 0 ∧ x.value < 0) := by
    rintro ⟨hb, hneg⟩
    rw [hb, abs_zero] at h
    obtain rfl : n = 0 := h.resolve_left zero_ne_one
    exact hneg.ne (by rw [hx, Int.cast_zero])
  rw [pow_of_integral hdiv hx]
  split_ifs with hbits
  · have hmag : b.magnitude ^ n.natAbs = 1 := by
      rcases h with h | rfl
      · rw [← b.abs_value, h, one_pow]
      · rw [Int.natAbs_zero, pow_zero]
    have hsign : (b.negative && n.natAbs % 2 == 1) = powerSign b n := by
      rw [natAbs_mod_two_beq]
      by_cases hb : b.value = 0
      · obtain rfl : n = 0 := h.resolve_left fun h => by simp [hb] at h
        rw [powerSign_of_zero hb]
        exact Bool.and_false _
      · rw [powerSign_of_nonzero hb]
    rw [← hsign]
    exact powByMultiplication_of_one hmag x.negative
  · refine powByLogarithm_of_one hx (h.resolve_right ?_)
    rintro rfl
    have hzero : x.isZero = true := Finite.value_eq_zero_iff.1 (by rw [hx, Int.cast_zero])
    have hlarge := (Finite.lt_binaryExponent_iff (by decide)).1 (not_le.1 hbits)
    rw [Finite.magnitude_eq_zero_iff.2 hzero] at hlarge
    exact hlarge.not_gt (two_zpow_pos 64)

theorem pow_eq_divisionByZero_iff (b x : Finite Format.decimal) :
    decimal.pow (.finite b) (.finite x) = .error .divisionByZero ↔
      b.value = 0 ∧ x.value < 0 := by
  obtain ⟨hb, hx, hpow⟩ | ⟨hb, hx, hpow⟩ | ⟨hb, -, negative, -, hpow⟩ := pow_cases b x
  · exact iff_of_true hpow ⟨hb, hx⟩
  · rw [hpow]
    exact iff_of_false nofun fun h => hb.ne h.1
  · refine iff_of_false (fun h => ?_) fun h => (hb h.1).not_gt h.2
    rw [h] at hpow
    cases hpow

theorem exists_pow_eq_domain_iff (b x : Finite Format.decimal) :
    (∃ fault, decimal.pow (.finite b) (.finite x) = .error (.domain fault)) ↔
      b.value < 0 ∧ ∀ n : ℤ, x.value ≠ n := by
  obtain ⟨hb, -, hpow⟩ | ⟨hb, hx, hpow⟩ | ⟨-, hx, negative, -, hpow⟩ := pow_cases b x
  · rw [hpow]
    exact iff_of_false nofun fun h => h.1.ne hb
  · exact iff_of_true ⟨_, hpow⟩ ⟨hb, hx⟩
  · refine iff_of_false ?_ fun h => ?_
    · rintro ⟨fault, h⟩
      rw [h] at hpow
      cases hpow
    · obtain ⟨n, hn⟩ := hx h.1
      exact h.2 n hn

theorem pow_eq_error {error : EvaluationError}
    (h : decimal.pow (.finite b) (.finite x) = .error error) :
    error = .divisionByZero ∨ (∃ fault, error = .domain fault) ∨
      error = .overflow (.result .power) := by
  obtain ⟨-, -, hpow⟩ | ⟨-, -, hpow⟩ | ⟨-, -, negative, -, hpow⟩ := pow_cases b x
  · exact .inl (Except.error.inj (h.symm.trans hpow))
  · exact .inr (.inl ⟨_, Except.error.inj (h.symm.trans hpow)⟩)
  · rw [h] at hpow
    cases hpow
    exact .inr (.inr rfl)

theorem PowerResult.sign {z : Decimal} {negative : Bool} (h : PowerResult negative (.ok z)) :
    ∃ y : Finite Format.decimal, z = .finite y ∧
      (y.value = 0 ∨ if negative then y.value < 0 else 0 < y.value) := by
  cases h with
  | @value y h =>
    refine ⟨y, rfl, ?_⟩
    by_cases hzero : y.value = 0
    · exact .inl hzero
    · right
      have hsign := h hzero
      cases negative with
      | true => exact Finite.value_neg_iff.2 ⟨hsign, Finite.value_ne_zero_iff.1 hzero⟩
      | false => exact lt_of_le_of_ne (Finite.value_nonneg_of_negative hsign) (Ne.symm hzero)

theorem pow_sign (hx : x.value = n) {z : Decimal}
    (h : decimal.pow (.finite b) (.finite x) = .ok z) :
    ∃ y : Finite Format.decimal, z = .finite y ∧
      (y.value = 0 ∨ if b.value < 0 ∧ Odd n then y.value < 0 else 0 < y.value) := by
  obtain ⟨-, -, hpow⟩ | ⟨-, -, hpow⟩ | ⟨-, -, negative, hsign, hpow⟩ := pow_cases b x
  · cases h.symm.trans hpow
  · cases h.symm.trans hpow
  · rw [h, hsign n hx] at hpow
    simpa only [powerSign, decide_eq_true_eq] using hpow.sign

theorem exists_pow_of_one (hx : x.value = n) (h : |b.value| = 1 ∨ n = 0) :
    ∃ y : Finite Format.decimal, decimal.pow (.finite b) (.finite x) = .ok (.finite y) ∧
      y.value = if b.value < 0 ∧ Odd n then -1 else 1 := by
  obtain ⟨z, hz, y, rfl, hvalue⟩ := pow_of_one hx h
  refine ⟨y, hz, hvalue.trans ?_⟩
  unfold ofSign powerSign
  simp only [decide_eq_true_eq]
  split_ifs <;> norm_num

/-! ## The law -/

/-- What the power of a base `b` with an exponent `x` is, whichever way it is
computed. -/
structure PowerLaw (b x : ℚ) (result : Except EvaluationError Decimal) : Prop where
  /-- Only negative powers of zero divide by zero. -/
  divisionByZero : result = .error .divisionByZero ↔ b = 0 ∧ x < 0
  /-- Only fractional powers of negative numbers are outside the domain. -/
  domain : (∃ fault, result = .error (.domain fault)) ↔ b < 0 ∧ ∀ n : ℤ, x ≠ n
  /-- Everything else that fails is out of range. -/
  overflow : ∀ error, result = .error error → error = .divisionByZero ∨
    (∃ fault, error = .domain fault) ∨ error = .overflow (.result .power)
  /-- Integral powers of one and minus one are exact. -/
  unit : ∀ n : ℤ, x = n → |b| = 1 → ∃ y : Finite Format.decimal,
    result = .ok (.finite y) ∧ y.value = if b < 0 ∧ Odd n then -1 else 1
  /-- The sign of an integral power is that of the base, to that power. -/
  sign : ∀ n : ℤ, x = n → ∀ z, result = .ok z → ∃ y : Finite Format.decimal, z = .finite y ∧
    (y.value = 0 ∨ if b < 0 ∧ Odd n then y.value < 0 else 0 < y.value)
  /-- Everything to the power of zero is one, zero included. -/
  zeroExponent : x = 0 → ∃ y : Finite Format.decimal, result = .ok (.finite y) ∧ y.value = 1

/-- All four ways to compute a power obey the law. -/
theorem pow_follows_case_law (b x : Finite Format.decimal) :
    PowerLaw b.value x.value (decimal.pow (.finite b) (.finite x)) where
  divisionByZero := pow_eq_divisionByZero_iff b x
  domain := exists_pow_eq_domain_iff b x
  overflow _ := pow_eq_error
  unit _ hx hb := exists_pow_of_one hx (.inl hb)
  sign _ hx _ := pow_sign hx
  zeroExponent hx := by
    obtain ⟨y, hy, hvalue⟩ := exists_pow_of_one (b := b) (hx.trans Int.cast_zero.symm) (.inr rfl)
    exact ⟨y, hy, hvalue.trans (if_neg fun h => Int.not_odd_zero h.2)⟩

/-- An odd power of minus one, with an exponent beyond 64 bits. -/
example :
    decimal.pow (.finite ⟨true, 2 ^ 255, -255, by decide +kernel⟩)
        (.finite ⟨false, (2 ^ 64 + 1) * 2 ^ 191, -191, by decide +kernel⟩) =
      .ok (.finite ⟨true, 2 ^ 255, -255, by decide +kernel⟩) := by
  decide +kernel

end NumberSystem.Decimal

end Abacus
