/-
Abacus.Proofs.NumberSystem.Range — what decimals lose while they are read.

A numeral with no more places than the format has room for is read as a number
that is hardly further away from it than the precision, and as itself where it
is a number of the format (`Numeral.InRange.exists_reads`).  Its sign does not
matter.  Whether the zeros at the end of a numeral are written does matter in
rare cases, unless it has few digits.  Beyond the room there are no numbers,
and below it there is zero.
-/
import Abacus.Proofs.NumberSystem.Storing

namespace Abacus

open NumberSystem.Decimal (places)

namespace Numeral

/-! ## Numerals -/

/-- The numeral with the other sign. -/
def neg (n : Numeral) : Numeral :=
  { n with negative := !n.negative }

@[simp] theorem value_neg (n : Numeral) : n.neg.value = -n.value := by
  change (if (!n.negative) = true then -n.magnitude else n.magnitude) =
    -(if n.negative = true then -n.magnitude else n.magnitude)
  cases n.negative <;> simp

/-- The numeral has no more places in front of the point or behind it than there is room
for. -/
structure InRange (n : Numeral) : Prop where
  exponent : -places ≤ n.exponent
  magnitude_lt : n.magnitude < 10 ^ places

/-- A number of the decimal mode has this magnitude: there are bits for all of it. -/
def IsExact (n : Numeral) : Prop :=
  ∃ x : Finite Format.decimal, x.magnitude = n.magnitude

/-- Whole numbers of at most 77 digits are exact. -/
theorem isExact_of_nat {n : Numeral} {k : ℕ} (hk : k < 10 ^ 77) (h : n.magnitude = k) :
    n.IsExact := by
  have hfew : (k : ℤ).natAbs ≤ 2 ^ Format.decimal.precision := by
    change k ≤ 2 ^ 256
    omega
  obtain ⟨x, -, hx⟩ := Floating.isInt_ofInt hasWholeNumbers_decimal hfew
  exact ⟨x, by rw [Finite.magnitude_of_value hx, h, Int.natAbs_natCast]⟩

namespace InRange

variable {m n : Numeral}

theorem of_coefficient_lt {k : ℕ} (h : n.coefficient < 10 ^ k) (hlow : -places ≤ n.exponent)
    (hhigh : k + n.exponent ≤ places) : n.InRange := by
  refine ⟨hlow, lt_of_lt_of_le ?_ (ten_zpow_le_ten_zpow hhigh)⟩
  rw [ten_zpow_add, zpow_natCast]
  exact mul_lt_mul_of_pos_right (by exact_mod_cast h) (ten_zpow_pos _)

theorem neg (h : n.InRange) : n.neg.InRange :=
  ⟨h.exponent, h.magnitude_lt⟩

/-- A numeral in range denotes a multiple of the last place. -/
theorem exists_multiple (h : n.InRange) : ∃ k : ℤ, n.value = k * 10 ^ (-places) := by
  have hmagnitude : n.magnitude = (n.coefficient * 10 ^ (n.exponent + places).toNat : ℕ) *
      10 ^ (-places) := by
    have hplaces := h.exponent
    push_cast
    rw [mul_assoc, ← zpow_natCast, Int.toNat_of_nonneg (by omega), ← ten_zpow_add,
      add_neg_cancel_right]
    rfl
  rw [value, hmagnitude]
  split_ifs
  · exact ⟨-(n.coefficient * 10 ^ (n.exponent + places).toNat : ℕ), by push_cast; ring⟩
  · exact ⟨(n.coefficient * 10 ^ (n.exponent + places).toNat : ℕ), by push_cast; ring⟩

/-- A sum other than zero is no smaller than the last place. -/
theorem ten_zpow_le_abs_add (hm : m.InRange) (hn : n.InRange) (h : m.value + n.value ≠ 0) :
    10 ^ (-places) ≤ |m.value + n.value| := by
  obtain ⟨k, hk⟩ := hm.exists_multiple
  obtain ⟨l, hl⟩ := hn.exists_multiple
  have hpos := ten_zpow_pos (-places)
  rw [hk, hl, ← add_mul, ← Int.cast_add] at h ⊢
  have hone : (1 : ℚ) ≤ |((k + l : ℤ) : ℚ)| := by
    exact_mod_cast Int.one_le_abs (Int.cast_ne_zero.1 (left_ne_zero_of_mul h))
  rw [abs_mul, abs_of_pos hpos]
  exact le_mul_of_one_le_left hpos.le hone

theorem abs_add_lt (hm : m.InRange) (hn : n.InRange) :
    |m.value + n.value| < 2 * 10 ^ places := by
  have hsplit := abs_add_le m.value n.value
  rw [m.abs_value, n.abs_value] at hsplit
  linarith [hm.magnitude_lt, hn.magnitude_lt]

/-- The first and the last place of a numeral other than zero. -/
theorem bounds (h : n.InRange) (hc : n.coefficient ≠ 0) :
    10 ^ (-places) ≤ n.magnitude ∧ n.exponent.natAbs ≤ Bracket.largestExponent := by
  have hone : (1 : ℚ) ≤ n.coefficient := by exact_mod_cast Nat.pos_of_ne_zero hc
  have hle : (10 : ℚ) ^ n.exponent ≤ n.magnitude :=
    le_mul_of_one_le_left (ten_zpow_pos _).le hone
  refine ⟨(ten_zpow_le_ten_zpow h.exponent).trans hle, ?_⟩
  have hlt : n.exponent < places :=
    (zpow_lt_zpow_iff_right₀ (by norm_num)).1 (hle.trans_lt h.magnitude_lt)
  have hexponent := h.exponent
  have hplaces : places = 640000000 := rfl
  have hlargest : Bracket.largestExponent = 2 ^ 120 := rfl
  omega

end InRange

end Numeral

/-! ## Reading -/

/-- The numeral is read as the number, and with another sign as that number with
this sign. -/
structure Reads (n : Numeral) (x : Finite Format.decimal) : Prop where
  read : ∀ negative, Format.decimal.readNumeral { n with negative } = .finite { x with negative }
  negative : x.negative = n.negative
  close : |x.magnitude - n.magnitude| ≤ n.magnitude * (2 / 2 ^ 256)
  exact : n.IsExact → x.magnitude = n.magnitude

namespace Reads

variable {m n : Numeral} {x y : Finite Format.decimal}

theorem neg (h : Reads n x) : Reads n.neg x.neg :=
  ⟨h.read, congrArg (!·) h.negative, h.close, h.exact⟩

theorem readNumeral (h : Reads n x) : Format.decimal.readNumeral n = .finite x := by
  refine (h.read n.negative).trans (congrArg Floating.finite ?_)
  exact Finite.eq_of_magnitude_eq h.negative.symm rfl

/-- A number and what it is read from differ by what their magnitudes do. -/
theorem abs_value_sub (h : Reads n x) : |x.value - n.value| = |x.magnitude - n.magnitude| := by
  rw [x.value_eq, h.negative, Numeral.value]
  split_ifs
  · rw [neg_sub_neg, abs_sub_comm]
  · rfl

theorem magnitude_eq_zero (h : Reads n x) (hn : n.magnitude = 0) : x.magnitude = 0 := by
  have hclose := h.close
  rwa [hn, zero_mul, sub_zero, abs_nonpos_iff] at hclose

/-- Opposites that are read with one magnitude are read as opposites. -/
theorem value_add_eq_zero (hx : Reads m x) (hy : Reads n y) (hs : m.value + n.value = 0)
    (hmagnitude : x.magnitude = y.magnitude) : x.value + y.value = 0 := by
  rw [← sub_neg_eq_add, ← y.value_neg, sub_eq_zero]
  by_cases hzero : n.magnitude = 0
  · have hy0 := hy.magnitude_eq_zero hzero
    rw [Finite.value_eq_zero_iff.2 (Finite.magnitude_eq_zero_iff.1 (hmagnitude.trans hy0)),
      y.value_neg, Finite.value_eq_zero_iff.2 (Finite.magnitude_eq_zero_iff.1 hy0), neg_zero]
  · have hvalue : m.value = n.neg.value := by
      rw [n.value_neg]
      exact eq_neg_of_add_eq_zero_left hs
    have hnegative : x.negative = y.neg.negative := by
      rw [hx.negative, hy.neg.negative]
      exact Numeral.negative_eq_of_value_eq hvalue hzero
    rw [Finite.eq_of_magnitude_eq hnegative hmagnitude]

/-- Numerals of one magnitude with the same digits are read with one magnitude. -/
theorem magnitude_eq_of_alike (hx : Reads m x) (hy : Reads n y)
    (hmagnitude : m.magnitude = n.magnitude) (h : m.coefficient = n.coefficient) :
    x.magnitude = y.magnitude := by
  by_cases hc : n.coefficient = 0
  · have hzero := Numeral.magnitude_of_coefficient_eq_zero hc
    rw [hy.magnitude_eq_zero hzero, hx.magnitude_eq_zero (hmagnitude.trans hzero)]
  · have hexponent : m.exponent = n.exponent := by
      have hc' : (n.coefficient : ℚ) ≠ 0 := by exact_mod_cast hc
      rw [Numeral.magnitude, Numeral.magnitude, h] at hmagnitude
      exact zpow_right_injective₀ (by norm_num) (by norm_num) (mul_left_cancel₀ hc' hmagnitude)
    have hread := hx.read false
    rw [h, hexponent, hy.read false] at hread
    have hsame := congrArg Finite.magnitude (Floating.finite.inj hread)
    exact hsame.symm

/-- Numerals of one magnitude with few digits are read with one magnitude. -/
theorem magnitude_eq_of_short (hx : Reads m x) (hy : Reads n y)
    (hmagnitude : m.magnitude = n.magnitude) (hm : m.coefficient < 10 ^ 77)
    (hn : n.coefficient < 10 ^ 77) : x.magnitude = y.magnitude := by
  have hnearest {k : Numeral} {z : Finite Format.decimal} (hz : Reads k z)
      (hk : k.coefficient < 10 ^ 77) : z.magnitude = Format.decimal.nearest k.magnitude := by
    have hfew : k.coefficient < 2 ^ Format.decimal.precision := by
      change k.coefficient < 2 ^ 256
      omega
    have hstands := Format.decimal.readsNumerals.nearest (.inl hfew)
    rw [hz.read k.negative] at hstands
    exact hstands.2
  rw [hnearest hx hm, hnearest hy hn, hmagnitude]

end Reads

/-- Every numeral in range is read as a number. -/
theorem Numeral.InRange.exists_reads {n : Numeral} (h : n.InRange) : ∃ x, Reads n x := by
  by_cases hc : n.coefficient = 0
  · have hzero := Numeral.magnitude_of_coefficient_eq_zero hc
    refine ⟨.zero n.negative, fun negative => ?_, rfl, ?_, fun _ => ?_⟩
    · exact Format.decimal.readsNumerals.of_coefficient_eq_zero hc
    · rw [hzero, Finite.magnitude_zero]
      simp
    · rw [hzero, Finite.magnitude_zero]
  · obtain ⟨hlow, hexponent⟩ := h.bounds hc
    obtain ⟨hlow, hhigh⟩ := NumberSystem.Decimal.inRange_of_places
      ((ten_zpow_le_ten_zpow (by omega)).trans hlow)
      (h.magnitude_lt.trans_le (ten_zpow_le_ten_zpow (by omega)))
    obtain ⟨u, hclose, hexact, hfinite⟩ :=
      Format.decimal.readsNumerals.of_inRange (.inr hexponent) hlow hhigh
    obtain ⟨x, -, hsign, rfl⟩ := hfinite n.negative
    refine ⟨x, fun negative => ?_, hsign, hclose, ?_⟩
    · obtain ⟨y, hy, hysign, hymagnitude⟩ := hfinite negative
      rw [hy]
      exact congrArg Floating.finite (Finite.eq_of_magnitude_eq hysign hymagnitude)
    · rintro ⟨y, hy⟩
      exact hexact y hy

/-- A literal is read as the decimal that its numeral is read as. -/
theorem Decimal.read_literal {text : String} {n : Numeral} (h : IsLiteral true text)
    (hn : Numeral.read? text.toList = some n) : read text = Format.decimal.readNumeral n := by
  obtain ⟨negative, whole, fraction, hw, hf, -, rfl⟩ := h.exists_signed
  have hread := read_signed negative hw hf (stops_nil _)
  have hvalue := Numeral.read?_signed negative hw hf (.inl rfl)
  rw [List.append_nil, scanExponent_nil] at hread hvalue
  rw [String.toList_ofList, hvalue, Option.some.injEq] at hn
  rw [hread, ← hn, ofParts]
  split_ifs with hbare hrange
  · exact (Format.decimal.readsNumerals.of_coefficient_eq_zero
      (NumberSystem.Decimal.coefficient_of_isBare hbare)).symm
  · have hnonneg : ¬Format.decimal.maxExponent < 0 := by decide
    exact absurd hrange hnonneg
  · rfl

/-! ## Out of range -/

/-- A numeral far beyond the range is read as no number. -/
theorem not_finite_of_large {n : Numeral} (hn : n.exponent.natAbs ≤ Bracket.largestExponent)
    (h : 2 ^ (Format.decimal.maxExponent + 1) ≤ n.magnitude) (x : Finite Format.decimal) :
    Format.decimal.readNumeral n ≠ .finite x := by
  intro hread
  obtain ⟨v, -, hv, hstands⟩ := Format.decimal.readsNumerals.close hn
  have hx := hstands n.negative
  rw [hread] at hx
  have hlarge : 2 ^ Format.decimal.maxExponent ≤ v := by
    have hhalf : n.magnitude / 2 ^ (Format.decimal.precision + 3) ≤ n.magnitude / 2 :=
      div_le_div_of_nonneg_left n.magnitude_nonneg two_pos (le_self_pow₀ one_le_two (by decide))
    rw [zpow_add_one₀ two_ne_zero] at h
    linarith [(abs_le.1 (hv.trans hhalf)).1]
  have hnearest := Format.decimal.nearest_mono (two_zpow_pos _).le hlarge
  have hpower : Format.decimal.nearest (2 ^ Format.decimal.maxExponent) =
      2 ^ Format.decimal.maxExponent := by
    simpa using Format.decimal.nearest_of_representable (m := 1) (e := Format.decimal.maxExponent)
      Nat.one_le_two_pow (by decide)
  rw [hpower, ← hx.2] at hnearest
  exact absurd x.magnitude_lt hnearest.not_gt

/-- A short numeral far below the range is read as zero. -/
theorem exists_zero_of_small {n : Numeral} (hn : n.coefficient < 2 ^ 256)
    (h : n.magnitude < 2 ^ (Format.decimal.minExponent - 1)) :
    ∃ x : Finite Format.decimal, Format.decimal.readNumeral n = .finite x ∧ x.value = 0 := by
  have hstands := Format.decimal.readsNumerals.nearest (.inl hn)
  rw [Format.decimal.nearest_of_lt n.magnitude_nonneg h] at hstands
  obtain ⟨x, hx, -, hzero⟩ := hstands.exists_finite (two_zpow_pos _)
  exact ⟨x, hx, Finite.value_eq_zero_iff.2 (Finite.magnitude_eq_zero_iff.1 hzero)⟩

end Abacus
