/-
Abacus.Proofs.Numeral.Shortest — the shortest numeral reads back.

Whatever numeral the search settles on, it is read as the number it was
searched for (`ofNumeral_shortestNumeral`).  For a whole number of at most 53
bits it is that number and not just one close to it: all whole numbers of one
digit fewer are numbers of the format themselves.
-/
import Abacus.Proofs.Decimal.Nearest
import Abacus.Proofs.Floating.WholeNumbers
import Abacus.Proofs.Numeral.Reading

namespace Abacus

/-! ## Numerals of one magnitude -/

/-- How a numeral is written makes no difference to what it is read as. -/
theorem Format.ofNumeral_congr (f : Format) {m n : Numeral} (hs : m.negative = n.negative)
    (hm : m.magnitude = n.magnitude) : f.ofNumeral m = f.ofNumeral n := by
  have hread := f.ofNumeral_standsFor m
  rw [hs, hm] at hread
  exact hread.unique (f.ofNumeral_standsFor n)

namespace Finite

variable {f : Format}

/-- A numeral with exactly the value of a number is read as it. -/
theorem ofNumeral_of_magnitude_eq {x : Finite f} {n : Numeral} (hs : n.negative = x.negative)
    (hm : n.magnitude = x.magnitude) : f.ofNumeral n = .finite x := by
  have hread := f.ofNumeral_standsFor n
  rw [hm, f.nearest_magnitude] at hread
  exact hread.unique ⟨hs.symm, rfl⟩

theorem magnitudeRatio_pos (x : Finite f) : 0 < x.magnitudeRatio.2 :=
  Nat.two_pow_pos _

theorem magnitudeRatio_eq (x : Finite f) :
    (x.magnitudeRatio.1 : ℚ) / x.magnitudeRatio.2 = x.magnitude := by
  unfold magnitudeRatio magnitude
  rw [two_zpow_eq_div]
  push_cast
  ring

theorem exactNumeral_magnitude (x : Finite f) : x.exactNumeral.magnitude = x.magnitude := by
  unfold exactNumeral Numeral.magnitude magnitude
  split_ifs with h
  · dsimp only
    push_cast
    rw [mul_one, ← zpow_natCast, Int.toNat_of_nonneg h]
  · dsimp only
    push_cast
    rw [ten_zpow_eq, ← zpow_natCast (5 : ℚ), Int.toNat_of_nonneg (by omega), zpow_neg]
    field_simp

theorem exactNumeral_negative (x : Finite f) : x.exactNumeral.negative = x.negative := by
  unfold exactNumeral
  split_ifs <;> rfl

/-! ## The search -/

/-- What the search tries: the grid points around the magnitude, if they read
back. -/
theorem numeralOfLength?_eq_some {x : Finite f} {point : ℤ} {count : ℕ} {n : Numeral}
    (h : x.numeralOfLength? point count = some n) :
    x.readsBack n = true ∧ n.negative = x.negative ∧ n.exponent = point - count ∧
      n.coefficient ≤ x.magnitudeRatio.1 * 10 ^ (count - point).toNat /
        (x.magnitudeRatio.2 * 10 ^ (point - count).toNat) + 1 := by
  have hneg : -((count : ℤ) - point) = point - count := neg_sub _ _
  unfold numeralOfLength? at h
  dsimp only at h
  rw [hneg] at h
  split_ifs at h with hbelow habove
  · cases h
    rw [Bool.and_eq_true] at hbelow
    exact ⟨hbelow.1, rfl, rfl, Nat.le_succ _⟩
  · cases h
    exact ⟨habove, rfl, rfl, le_rfl⟩

/-- The numeral is found among the grid points, or it is the exact value. -/
theorem shortestNumeral_spec (x : Finite f) (limit : ℕ) :
    ((x.shortestNumeral limit).negative = x.negative ∧
      (x.shortestNumeral limit).magnitude = x.magnitude) ∨
    x.isZero = false ∧ ∃ count, x.numeralOfLength?
      (decimalExponentAbove x.magnitudeRatio.1 x.magnitudeRatio.2) (count + 1) =
        some (x.shortestNumeral limit) := by
  unfold shortestNumeral
  dsimp only
  split_ifs with hzero
  · refine .inl ⟨rfl, ?_⟩
    rw [magnitude_eq_zero_iff.2 hzero, Numeral.magnitude, Nat.cast_zero, zero_mul]
  · split
    · next n hn =>
      obtain ⟨count, -, hcount⟩ := List.exists_of_findSome?_eq_some hn
      exact .inr ⟨by simpa using hzero, count, hcount⟩
    · exact .inl ⟨x.exactNumeral_negative, x.exactNumeral_magnitude⟩

theorem shortestNumeral_negative (x : Finite f) (limit : ℕ) :
    (x.shortestNumeral limit).negative = x.negative := by
  rcases x.shortestNumeral_spec limit with h | ⟨-, count, h⟩
  · exact h.1
  · exact (numeralOfLength?_eq_some h).2.1

/-- The shortest numeral is read as the number. -/
theorem ofNumeral_shortestNumeral (x : Finite f) (limit : ℕ) :
    f.ofNumeral (x.shortestNumeral limit) = .finite x := by
  rcases x.shortestNumeral_spec limit with h | ⟨-, count, h⟩
  · exact ofNumeral_of_magnitude_eq h.1 h.2
  · simpa [readsBack] using (numeralOfLength?_eq_some h).1

end Finite

/-! ## Whole numbers -/

/-- The powers of ten around a number are those of its digits. -/
theorem ten_zpow_length_bounds {n : ℕ} (hn : 0 < n) :
    (10 : ℚ) ^ (((digitChars n).length : ℤ) - 1) ≤ n ∧
      (n : ℚ) < 10 ^ ((digitChars n).length : ℤ) := by
  rw [length_digitChars_eq hn, add_sub_cancel_right]
  exact ⟨ten_zpow_log_le (by exact_mod_cast hn), lt_ten_zpow_log _⟩

/-- A quotient is compared with a power of ten by whole numbers. -/
theorem mul_ten_pow_lt_iff {num den : ℕ} (hden : 0 < den) (k : ℤ) :
    num * 10 ^ (-k).toNat < den * 10 ^ k.toNat ↔ (num : ℚ) / den < 10 ^ k := by
  have hd : (0 : ℚ) < den := by exact_mod_cast hden
  obtain ⟨k, rfl | rfl⟩ := k.eq_nat_or_neg
  · rw [div_lt_iff₀ hd]
    simp only [Int.toNat_neg_natCast, pow_zero, Int.toNat_natCast, zpow_natCast]
    rw [mul_one, mul_comm (10 ^ k : ℚ)]
    exact_mod_cast Iff.rfl
  · rw [zpow_neg, zpow_natCast, div_lt_iff₀ hd, inv_mul_eq_div, lt_div_iff₀ (by positivity)]
    simp only [neg_neg, Int.toNat_neg_natCast, pow_zero, Int.toNat_natCast]
    rw [mul_one]
    exact_mod_cast Iff.rfl

/-- The power of ten above a quotient is the next one. -/
theorem decimalExponentAbove_eq {num den : ℕ} (hnum : 0 < num) (hden : 0 < den) :
    decimalExponentAbove num den = Int.log 10 ((num : ℚ) / den) + 1 := by
  have hd : (0 : ℚ) < den := by exact_mod_cast hden
  obtain ⟨hnle, hnlt⟩ := ten_zpow_length_bounds hnum
  obtain ⟨hdle, hdlt⟩ := ten_zpow_length_bounds hden
  unfold decimalExponentAbove
  dsimp only
  set a : ℤ := ((digitChars num).length : ℤ)
  set b : ℤ := ((digitChars den).length : ℤ)
  have hlow : (10 : ℚ) ^ (a - b - 1) ≤ num / den := by
    rw [le_div_iff₀ hd]
    calc
      (10 : ℚ) ^ (a - b - 1) * den ≤ 10 ^ (a - b - 1) * 10 ^ b :=
        mul_le_mul_of_nonneg_left hdlt.le (ten_zpow_pos _).le
      _ = 10 ^ (a - 1) := by rw [← ten_zpow_add]; congr 1; ring
      _ ≤ num := hnle
  have hhigh : (num : ℚ) / den < 10 ^ (a - b + 1) := by
    rw [div_lt_iff₀ hd]
    calc
      (num : ℚ) < 10 ^ a := hnlt
      _ = 10 ^ (a - b + 1) * 10 ^ (b - 1) := by rw [← ten_zpow_add]; congr 1; ring
      _ ≤ 10 ^ (a - b + 1) * den := mul_le_mul_of_nonneg_left hdle (ten_zpow_pos _).le
  split_ifs with h
  · exact (log_ten_add_one_eq hlow ((mul_ten_pow_lt_iff hden _).1 h)).symm
  · have hge : (10 : ℚ) ^ (a - b) ≤ num / den :=
      not_lt.1 fun hlt => h ((mul_ten_pow_lt_iff hden _).2 hlt)
    exact (log_ten_add_one_eq (by rwa [add_sub_cancel_right]) hhigh).symm

/-- Every even number of 54 bits is a number of the format. -/
theorem Format.nearest_binary64_of_even {n : ℕ} (hn : n ≤ 2 ^ 54) (h : 2 ∣ n) :
    Format.binary64.nearest n = n := by
  obtain ⟨m, rfl⟩ := h
  have hexact := Format.binary64.nearest_of_representable (m := m) (e := 1)
    (by change m ≤ 2 ^ 53; omega) (by decide)
  rw [zpow_one] at hexact
  push_cast
  rwa [mul_comm]

section WholeNumber

variable {x : Finite Format.binary64} {n : ℕ} (hx : x.magnitude = n)
include hx

theorem Finite.magnitudeRatio_of_nat : x.magnitudeRatio.1 = n * x.magnitudeRatio.2 := by
  have hq := x.magnitudeRatio_eq
  rw [hx, div_eq_iff (by exact_mod_cast x.magnitudeRatio_pos.ne')] at hq
  exact_mod_cast hq

/-- With enough digits the number itself is on the grid, and is taken. -/
theorem Finite.magnitude_of_numeralOfLength?_long {length count : ℕ} {m : Numeral}
    (hlong : length ≤ count) (h : x.numeralOfLength? length count = some m) :
    m.magnitude = n := by
  have hden := x.magnitudeRatio_pos
  have hratio := magnitudeRatio_of_nat hx
  have hplaces : ((count : ℤ) - length).toNat = count - length := by omega
  have hplaces' : (-((count : ℤ) - length)).toNat = 0 := by omega
  have hquot : x.magnitudeRatio.1 * 10 ^ (count - length) / x.magnitudeRatio.2 =
      n * 10 ^ (count - length) := by
    rw [hratio, mul_right_comm, Nat.mul_div_cancel _ hden]
  have hrem : x.magnitudeRatio.1 * 10 ^ (count - length) % x.magnitudeRatio.2 = 0 := by
    rw [hratio, mul_right_comm, Nat.mul_mod_left]
  have hexact : (⟨x.negative, n * 10 ^ (count - length), -((count : ℤ) - length)⟩ :
      Numeral).magnitude = n := by
    unfold Numeral.magnitude
    push_cast
    rw [mul_assoc, ← zpow_natCast, ← ten_zpow_add,
      show ((count - length : ℕ) : ℤ) + -((count : ℤ) - length) = 0 by omega, zpow_zero, mul_one]
  unfold numeralOfLength? at h
  dsimp only at h
  rw [hplaces, hplaces', pow_zero, mul_one, hquot, hrem] at h
  have hback : x.readsBack ⟨x.negative, n * 10 ^ (count - length), -((count : ℤ) - length)⟩ =
      true := by
    rw [readsBack, decide_eq_true_eq]
    exact ofNumeral_of_magnitude_eq rfl (hexact.trans hx.symm)
  rw [if_pos (by rw [hback]; simp [hden])] at h
  cases h
  exact hexact

/-- With fewer digits what is read back is a multiple of ten, and so is exact. -/
theorem Finite.magnitude_of_numeralOfLength?_short (hle : n ≤ 2 ^ 53) {count : ℕ} {m : Numeral}
    (hshort : count < (digitChars n).length)
    (h : x.numeralOfLength? ((digitChars n).length : ℕ) count = some m) :
    m.magnitude = n := by
  obtain ⟨hback, -, hexp, hcoeff⟩ := numeralOfLength?_eq_some h
  have hnlt : n < 10 ^ (digitChars n).length :=
    (length_digitChars_le_iff (length_digitChars_pos n)).1 le_rfl
  have hsixteen : (digitChars n).length ≤ 16 :=
    (length_digitChars_le_iff (by norm_num)).2 (hle.trans_lt (by norm_num))
  generalize (digitChars n).length = length at *
  set k := length - count with hk
  have hplaces : ((count : ℤ) - length).toNat = 0 := by omega
  have hplaces' : ((length : ℤ) - count).toNat = k := by omega
  have hkpos : 0 < k := by omega
  rw [hplaces, hplaces', pow_zero, mul_one, magnitudeRatio_of_nat hx, mul_comm n,
    Nat.mul_div_mul_left _ _ x.magnitudeRatio_pos] at hcoeff
  have hmag : m.magnitude = (m.coefficient * 10 ^ k : ℕ) := by
    unfold Numeral.magnitude
    rw [hexp, show (length : ℤ) - count = k by omega, zpow_natCast]
    push_cast
    rfl
  have hquot : n / 10 ^ k < 10 ^ (length - k) := by
    rw [Nat.div_lt_iff_lt_mul (by positivity), ← pow_add, Nat.sub_add_cancel (by omega)]
    exact hnlt
  have hbound : m.coefficient * 10 ^ k ≤ 2 ^ 54 := by
    calc
      m.coefficient * 10 ^ k ≤ 10 ^ (length - k) * 10 ^ k :=
        Nat.mul_le_mul_right _ (hcoeff.trans hquot)
      _ = 10 ^ length := by rw [← pow_add, Nat.sub_add_cancel (by omega)]
      _ ≤ 10 ^ 16 := Nat.pow_le_pow_right (by norm_num) hsixteen
      _ ≤ 2 ^ 54 := by norm_num
  have heven : 2 ∣ m.coefficient * 10 ^ k :=
    Dvd.dvd.mul_left (dvd_pow (by norm_num) hkpos.ne') _
  have hread := Format.binary64.ofNumeral_standsFor m
  rw [hmag, Format.nearest_binary64_of_even hbound heven, ← hmag] at hread
  rw [readsBack, decide_eq_true_eq] at hback
  rw [hback] at hread
  exact hread.2.symm.trans hx

/-- The shortest numeral of a whole number of at most 53 bits is that number: of
the numerals that read back, the search only finds those that are exact. -/
theorem Finite.magnitude_shortestNumeral (hle : n ≤ 2 ^ 53) (limit : ℕ) :
    (x.shortestNumeral limit).magnitude = n := by
  rcases x.shortestNumeral_spec limit with h | ⟨hzero, count, h⟩
  · exact h.2.trans hx
  · have hn : 0 < n := by
      rw [Nat.pos_iff_ne_zero]
      rintro rfl
      rw [Nat.cast_zero, magnitude_eq_zero_iff, hzero] at hx
      cases hx
    have hnum : 0 < x.magnitudeRatio.1 := by
      rw [magnitudeRatio_of_nat hx]
      exact Nat.mul_pos hn x.magnitudeRatio_pos
    rw [decimalExponentAbove_eq hnum x.magnitudeRatio_pos, magnitudeRatio_eq, hx,
      ← length_digitChars_eq hn] at h
    rcases le_or_gt (digitChars n).length (count + 1) with hlong | hshort
    · exact magnitude_of_numeralOfLength?_long hx hlong h
    · exact magnitude_of_numeralOfLength?_short hx hle hshort h

end WholeNumber

/-- A whole number of at most 53 bits is written as its digits. -/
theorem Binary64.text_of_nat {x : Finite Format.binary64} {n : ℕ} (hle : n ≤ 2 ^ 53)
    (hx : x.magnitude = n) :
    Binary64.text (.finite x) = String.ofList (signed x.negative (digitChars n)) := by
  have hplain := plainMagnitude_of_nat (Finite.magnitude_shortestNumeral hx hle 17)
  rw [text, Numeral.plain, x.shortestNumeral_negative, hplain]
  rfl

end Abacus
