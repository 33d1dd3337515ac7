/-
Abacus.Proofs.Rounding — what rounding a quotient to a natural number does.

`Tie.round` rounds a rational number that is not negative; `roundDiv` is the
same on a numerator and a denominator (`roundDiv_eq_round`).  It is monotone,
fixes whole numbers and errs by at most one half.
-/
import Abacus.Rounding
import Mathlib

namespace Abacus

namespace Tie

/-- The natural number nearest to a number that is not negative. -/
def round (tie : Tie) (v : ℚ) : ℕ :=
  if v - ⌊v⌋₊ < 1 / 2 then ⌊v⌋₊
  else if 1 / 2 < v - ⌊v⌋₊ then ⌊v⌋₊ + 1
  else tie.resolve ⌊v⌋₊

theorem le_resolve (tie : Tie) (n : ℕ) : n ≤ tie.resolve n := by
  cases tie <;> simp [resolve]

theorem resolve_le (tie : Tie) (n : ℕ) : tie.resolve n ≤ n + 1 := by
  cases tie
  · have := Nat.mod_lt n (show 2 > 0 by omega)
    simp only [resolve]
    omega
  · simp [resolve]

variable (tie : Tie)

theorem floor_le_round (v : ℚ) : ⌊v⌋₊ ≤ tie.round v := by
  unfold round
  split_ifs
  · exact le_rfl
  · exact Nat.le_succ _
  · exact tie.le_resolve _

theorem round_le_floor_add_one (v : ℚ) : tie.round v ≤ ⌊v⌋₊ + 1 := by
  unfold round
  split_ifs
  · exact Nat.le_succ _
  · exact le_rfl
  · exact tie.resolve_le _

@[simp] theorem round_natCast (n : ℕ) : tie.round n = n := by
  simp [round]

@[simp] theorem round_zero : tie.round 0 = 0 := by
  exact_mod_cast tie.round_natCast 0

theorem round_mono {v w : ℚ} (h : v ≤ w) : tie.round v ≤ tie.round w := by
  rcases (Nat.floor_mono h).lt_or_eq with hlt | heq
  · calc
      tie.round v ≤ ⌊v⌋₊ + 1 := tie.round_le_floor_add_one v
      _ ≤ ⌊w⌋₊ := hlt
      _ ≤ tie.round w := tie.floor_le_round w
  · -- with the same whole part, only the fractions are compared
    have hle := tie.le_resolve ⌊w⌋₊
    have hge := tie.resolve_le ⌊w⌋₊
    unfold round
    rw [heq]
    split_ifs <;> first | omega | linarith

theorem abs_round_sub_le {v : ℚ} (hv : 0 ≤ v) : |(tie.round v : ℚ) - v| ≤ 1 / 2 := by
  have hfloor := Nat.floor_le hv
  have hlt := Nat.lt_floor_add_one v
  have hle : ((⌊v⌋₊ : ℕ) : ℚ) ≤ tie.resolve ⌊v⌋₊ := by exact_mod_cast tie.le_resolve _
  have hge : (tie.resolve ⌊v⌋₊ : ℚ) ≤ ⌊v⌋₊ + 1 := by exact_mod_cast tie.resolve_le _
  unfold round
  rw [abs_le]
  split_ifs <;> push_cast <;> constructor <;> linarith

/-- A whole number closer than one half is the one. -/
theorem round_eq_of_abs_sub_lt {v : ℚ} (hv : 0 ≤ v) {n : ℕ} (h : |(n : ℚ) - v| < 1 / 2) :
    tie.round v = n := by
  have hr := tie.abs_round_sub_le hv
  have hdist : |((tie.round v : ℤ) : ℚ) - (n : ℤ)| < 1 := by
    have htri := abs_sub_le (tie.round v : ℚ) v n
    rw [abs_sub_comm v] at htri
    push_cast
    linarith
  have hint : |(tie.round v : ℤ) - n| < 1 := by exact_mod_cast hdist
  rw [Int.abs_lt_one_iff] at hint
  omega

/-- No whole number is closer than the rounded one, which is even where another is as
close. -/
theorem round_even_closest {v : ℚ} (hv : 0 ≤ v) (k : ℕ) :
    k = even.round v ∨ |(even.round v : ℚ) - v| < |(k : ℚ) - v| ∨
      |(even.round v : ℚ) - v| = |(k : ℚ) - v| ∧ even.round v % 2 = 0 := by
  have hfloor := Nat.floor_le hv
  have hlt := Nat.lt_floor_add_one v
  have hhalf := even.abs_round_sub_le hv
  have hround : even.round v = if v - ⌊v⌋₊ < 1 / 2 then ⌊v⌋₊
      else if 1 / 2 < v - ⌊v⌋₊ then ⌊v⌋₊ + 1 else ⌊v⌋₊ + ⌊v⌋₊ % 2 := rfl
  generalize ⌊v⌋₊ = n at hfloor hlt hround
  have hdown : |(n : ℚ) - v| = v - n := by rw [abs_of_nonpos (by linarith), neg_sub]
  have hup : |((n + 1 : ℕ) : ℚ) - v| = n + 1 - v := by
    push_cast
    exact abs_of_nonneg (by linarith)
  have hk : k + 1 ≤ n ∨ k = n ∨ k = n + 1 ∨ n + 2 ≤ k := by omega
  rcases hk with hfar | rfl | rfl | hfar
  · right; left
    have hcast : (k : ℚ) + 1 ≤ n := by exact_mod_cast hfar
    linarith [neg_abs_le ((k : ℚ) - v)]
  · split_ifs at hround with hbelow habove
    · exact .inl hround.symm
    · right; left
      rw [hround, hup, hdown]
      linarith
    · rcases Nat.mod_two_eq_zero_or_one k with heven | hodd
      · left
        omega
      · right; right
        refine ⟨?_, by omega⟩
        rw [hround, hodd, hup, hdown]
        linarith
  · split_ifs at hround with hbelow habove
    · right; left
      rw [hround, hup, hdown]
      linarith
    · exact .inl hround.symm
    · rcases Nat.mod_two_eq_zero_or_one n with heven | hodd
      · right; right
        refine ⟨?_, by omega⟩
        rw [hround, heven, hup, add_zero, hdown]
        linarith
      · left
        omega
  · right; left
    have hcast : (n : ℚ) + 2 ≤ k := by exact_mod_cast hfar
    linarith [le_abs_self ((k : ℚ) - v)]

/-- A tie goes to the even one of the two whole numbers around it. -/
theorem round_even_add_half (n : ℕ) : even.round (n + 1 / 2) = n + n % 2 := by
  have hfloor : ⌊(n : ℚ) + 1 / 2⌋₊ = n := by
    rw [Nat.floor_eq_iff (by positivity)]
    constructor <;> linarith
  unfold round
  rw [hfloor, if_neg (by linarith), if_neg (by linarith)]
  rfl

/-- Ties upwards are the whole part after adding one half. -/
theorem round_up_eq_floor {v : ℚ} (hv : 0 ≤ v) : Tie.up.round v = ⌊v + 1 / 2⌋₊ := by
  have hfloor := Nat.floor_le hv
  have hlt := Nat.lt_floor_add_one v
  have hpos : (0 : ℚ) ≤ v + 1 / 2 := by linarith
  symm
  rw [Nat.floor_eq_iff hpos]
  unfold round resolve
  split_ifs <;> push_cast <;> constructor <;> linarith

/-- A number is less than one half above its rounding. -/
theorem lt_round_up_add_half {v : ℚ} (hv : 0 ≤ v) : v < Tie.up.round v + 1 / 2 := by
  rw [round_up_eq_floor hv]
  linarith [Nat.lt_floor_add_one (v + 1 / 2)]

/-- Numbers without a tie between them are rounded alike. -/
theorem round_up_congr {v w : ℚ} (hv : 0 ≤ v) (hw : 0 ≤ w)
    (htie : ∀ n : ℕ, |w - v| < |(n : ℚ) + 1 / 2 - v|) : Tie.up.round w = Tie.up.round v := by
  have hpos : 0 ≤ v + 1 / 2 := by linarith
  rw [round_up_eq_floor hv, round_up_eq_floor hw, Nat.floor_eq_iff (by linarith)]
  have hfloor := Nat.floor_le hpos
  have hnext := Nat.lt_floor_add_one (v + 1 / 2)
  set n := ⌊v + 1 / 2⌋₊
  constructor
  · by_contra hcross
    rcases Nat.eq_zero_or_pos n with hzero | hn
    · rw [hzero, Nat.cast_zero] at hcross
      linarith
    · have ht := htie (n - 1)
      rw [Nat.cast_pred hn, abs_of_nonpos (by linarith), abs_of_nonpos (by linarith)] at ht
      linarith
  · by_contra hcross
    have ht := htie n
    rw [abs_of_nonneg (by linarith), abs_of_nonneg (by linarith)] at ht
    linarith

end Tie

/-- The fraction of a quotient is the remainder over the denominator. -/
theorem div_eq_div_add_mod {num den : ℕ} (hden : 0 < den) :
    (num : ℚ) / den = (num / den : ℕ) + (num % den : ℕ) / den := by
  have hd : (den : ℚ) ≠ 0 := by exact_mod_cast hden.ne'
  rw [div_eq_iff hd, add_mul, div_mul_cancel₀ _ hd, mul_comm]
  exact_mod_cast (Nat.div_add_mod num den).symm

theorem roundDiv_eq_round (tie : Tie) (num : ℕ) {den : ℕ} (h : 0 < den) :
    roundDiv tie num den = tie.round (num / den) := by
  have hden : (0 : ℚ) < den := by exact_mod_cast h
  have hfloor : ⌊(num : ℚ) / den⌋₊ = num / den := Nat.floor_div_eq_div num den
  have hfrac : (num : ℚ) / den - ⌊(num : ℚ) / den⌋₊ = (num % den : ℕ) / den := by
    rw [hfloor, div_eq_div_add_mod h, add_sub_cancel_left]
  have hbelow : (num : ℚ) / den - ⌊(num : ℚ) / den⌋₊ < 1 / 2 ↔ 2 * (num % den) < den := by
    rw [hfrac, div_lt_div_iff₀ hden two_pos, one_mul, mul_comm]
    exact_mod_cast Iff.rfl
  have habove : 1 / 2 < (num : ℚ) / den - ⌊(num : ℚ) / den⌋₊ ↔ den < 2 * (num % den) := by
    rw [hfrac, div_lt_div_iff₀ two_pos hden, one_mul, mul_comm]
    exact_mod_cast Iff.rfl
  unfold roundDiv Tie.round
  simp only [hbelow, habove]
  rw [hfloor]

/-- What is behind the digits of a whole number does not change how it is rounded to even units,
unless it is at the tie or reaches it. -/
theorem Tie.round_div_eq_of_not_half (tie : Tie) {n unit : ℕ} (hunit : 0 < unit)
    (hat : n % (2 * unit) ≠ unit) (hbelow : n % (2 * unit) + 1 ≠ unit) {x : ℚ} (hlow : n ≤ x)
    (hhigh : x < n + 1) :
    tie.round (x / (2 * unit : ℕ)) = n / (2 * unit) + if unit < n % (2 * unit) then 1 else 0 := by
  have hu : (0 : ℚ) < unit := by exact_mod_cast hunit
  have hsplit : (n : ℚ) = (2 * unit : ℕ) * (n / (2 * unit) : ℕ) + (n % (2 * unit) : ℕ) := by
    exact_mod_cast (Nat.div_add_mod n (2 * unit)).symm
  have hmod : n % (2 * unit) < 2 * unit := Nat.mod_lt _ (by positivity)
  have hx : 0 ≤ x / (2 * unit : ℕ) := div_nonneg ((Nat.cast_nonneg n).trans hlow) (by positivity)
  set q := n / (2 * unit)
  set r := n % (2 * unit)
  refine tie.round_eq_of_abs_sub_lt hx ?_
  rw [abs_sub_comm, abs_lt, lt_sub_iff_add_lt, sub_lt_iff_lt_add, lt_div_iff₀ (by positivity),
    div_lt_iff₀ (by positivity)]
  push_cast at hsplit ⊢
  split_ifs with h
  · have habove : (unit : ℚ) + 1 ≤ r := by exact_mod_cast h
    have hle : (r : ℚ) + 1 ≤ 2 * unit := by exact_mod_cast hmod
    constructor <;> nlinarith
  · have hle : (r : ℚ) + 2 ≤ unit := by exact_mod_cast (by omega : r + 2 ≤ unit)
    have hr : (0 : ℚ) ≤ r := Nat.cast_nonneg r
    constructor <;> nlinarith

/-- One half more than a whole number is rounded like it in even units: the next
tie is at a whole number. -/
theorem round_up_add_half_div (n : ℕ) {unit : ℕ} (hunit : 0 < unit) :
    Tie.up.round (((n : ℚ) + 1 / 2) / (2 * unit : ℕ)) =
      Tie.up.round ((n : ℚ) / (2 * unit : ℕ)) := by
  have hdouble : ((n : ℚ) + 1 / 2) / (2 * unit : ℕ) = (2 * n + 1 : ℕ) / (2 * (2 * unit) : ℕ) := by
    push_cast
    field_simp
  rw [hdouble, ← roundDiv_eq_round _ _ (by positivity), ← roundDiv_eq_round _ _ (by positivity)]
  have hdiv : (2 * n + 1) / (2 * (2 * unit)) = n / (2 * unit) := by
    rw [← Nat.div_div_eq_div_mul]
    congr 1
    omega
  have hmod : (2 * n + 1) % (2 * (2 * unit)) = 2 * (n % (2 * unit)) + 1 := by
    have hlarge := Nat.div_add_mod (2 * n + 1) (2 * (2 * unit))
    have hsmall := Nat.div_add_mod n (2 * unit)
    rw [hdiv, mul_assoc] at hlarge
    omega
  unfold roundDiv
  simp only [hdiv, hmod, Tie.resolve]
  split_ifs <;> omega

end Abacus
