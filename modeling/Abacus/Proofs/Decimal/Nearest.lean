/-
Abacus.Proofs.Decimal.Nearest — rounding to a number of decimal digits.

`nearest` rounds a magnitude to so many significant digits, a tie going up.
Magnitudes that are close together are rounded alike unless a tie lies between
them (`nearest_congr`), and what is within half of the last digit of a magnitude of
few digits is rounded to it (`nearest_eq_of_close`).
-/
import Abacus.Proofs.Rounding

namespace Abacus

/-! ## Powers of ten -/

theorem ten_zpow_pos (k : ℤ) : (0 : ℚ) < 10 ^ k :=
  zpow_pos (by norm_num) k

theorem ten_zpow_le_ten_zpow {a b : ℤ} (h : a ≤ b) : (10 : ℚ) ^ a ≤ 10 ^ b :=
  zpow_le_zpow_right₀ (by norm_num) h

theorem ten_zpow_add (a b : ℤ) : (10 : ℚ) ^ (a + b) = 10 ^ a * 10 ^ b :=
  zpow_add₀ (by norm_num) a b

theorem ten_zpow_log_le {v : ℚ} (hv : 0 < v) : (10 : ℚ) ^ Int.log 10 v ≤ v := by
  exact_mod_cast Int.zpow_log_le_self (by norm_num) hv

theorem lt_ten_zpow_log (v : ℚ) : v < 10 ^ (Int.log 10 v + 1) := by
  exact_mod_cast Int.lt_zpow_succ_log_self (by norm_num) v

/-- The exponent `e` with `10 ^ (e - 1) ≤ v < 10 ^ e` is the only one. -/
theorem log_ten_add_one_eq {v : ℚ} {e : ℤ} (hle : (10 : ℚ) ^ (e - 1) ≤ v) (hlt : v < 10 ^ e) :
    Int.log 10 v + 1 = e := by
  have hv : 0 < v := (ten_zpow_pos _).trans_le hle
  have hten : 1 < 10 := by norm_num
  have habove := (Int.lt_zpow_iff_log_lt hten hv).1 (by exact_mod_cast hlt)
  have hbelow := (Int.zpow_le_iff_le_log hten hv).1 (by exact_mod_cast hle)
  omega

end Abacus

namespace Abacus.Decimal

/-! ## Rounding to a number of digits -/

/-- The magnitudes of `count` digits around a magnitude are multiples of ten to
this power. -/
def place (count : ℕ) (v : ℚ) : ℤ :=
  Int.log 10 v + 1 - count

/-- A positive magnitude rounded to `count` significant digits, a tie going
up. -/
def nearest (count : ℕ) (v : ℚ) : ℚ :=
  Tie.up.round (v / 10 ^ place count v) * 10 ^ place count v

theorem div_place_lt (count : ℕ) (v : ℚ) : v / 10 ^ place count v < 10 ^ count := by
  rw [div_lt_iff₀ (ten_zpow_pos _), ← zpow_natCast, ← ten_zpow_add,
    show (count : ℤ) + place count v = Int.log 10 v + 1 by unfold place; ring]
  exact lt_ten_zpow_log v

theorem abs_nearest_sub_le (count : ℕ) {v : ℚ} (hv : 0 ≤ v) :
    |nearest count v - v| ≤ 10 ^ place count v / 2 := by
  have hpow := ten_zpow_pos (place count v)
  have hround := Tie.up.abs_round_sub_le (div_nonneg hv hpow.le)
  calc
    |nearest count v - v|
      = |Tie.up.round (v / 10 ^ place count v) - v / 10 ^ place count v| *
          10 ^ place count v := by
        rw [← abs_of_pos hpow, ← abs_mul, abs_of_pos hpow, sub_mul, div_mul_cancel₀ _ hpow.ne']
        rfl
    _ ≤ 1 / 2 * 10 ^ place count v := mul_le_mul_of_nonneg_right hround hpow.le
    _ = 10 ^ place count v / 2 := by ring

/-- Rounding to one digit or more changes a magnitude by at most one half. -/
theorem nearest_bounds {count : ℕ} (hcount : 0 < count) {v : ℚ} (hv : 0 < v) :
    v / 2 ≤ nearest count v ∧ nearest count v ≤ 2 * v := by
  have hunit : (10 : ℚ) ^ place count v ≤ v := by
    refine le_trans (ten_zpow_le_ten_zpow ?_) (ten_zpow_log_le hv)
    unfold place
    omega
  obtain ⟨hlo, hhi⟩ := abs_le.1 (abs_nearest_sub_le count hv.le)
  constructor <;> linarith

theorem nearest_nonneg (count : ℕ) (v : ℚ) : 0 ≤ nearest count v :=
  mul_nonneg (Nat.cast_nonneg _) (ten_zpow_pos _).le

@[simp] theorem nearest_zero (count : ℕ) : nearest count 0 = 0 := by
  rw [nearest, zero_div, Tie.round_zero, Nat.cast_zero, zero_mul]

theorem ten_zpow_add_place (count : ℕ) (v : ℚ) :
    (10 : ℚ) ^ count * 10 ^ place count v = 10 ^ (Int.log 10 v + 1) := by
  rw [← zpow_natCast, ← ten_zpow_add]
  congr 1
  unfold place
  ring

/-- Rounding carries up to the next power of ten, and not beyond it. -/
theorem nearest_le_ten_zpow (count : ℕ) (v : ℚ) :
    nearest count v ≤ 10 ^ (Int.log 10 v + 1) := by
  have hround := Tie.up.round_mono (div_place_lt count v).le
  have hpow : (10 : ℚ) ^ count = ((10 ^ count : ℕ) : ℚ) := by
    push_cast
    rfl
  rw [hpow, Tie.round_natCast] at hround
  rw [← ten_zpow_add_place, nearest, hpow]
  exact mul_le_mul_of_nonneg_right (by exact_mod_cast hround) (ten_zpow_pos _).le

/-- Rounding never leaves the decade downwards. -/
theorem ten_zpow_le_nearest {count : ℕ} (hcount : 0 < count) {v : ℚ} (hv : 0 < v) :
    10 ^ Int.log 10 v ≤ nearest count v := by
  have hsplit : (10 : ℚ) ^ Int.log 10 v = (10 ^ (count - 1) : ℕ) * 10 ^ place count v := by
    push_cast
    rw [← zpow_natCast, ← ten_zpow_add]
    congr 1
    unfold place
    omega
  have hle : ((10 ^ (count - 1) : ℕ) : ℚ) ≤ v / 10 ^ place count v := by
    rw [le_div_iff₀ (ten_zpow_pos _), ← hsplit]
    exact ten_zpow_log_le hv
  have hround := Tie.up.round_mono hle
  rw [Tie.round_natCast] at hround
  rw [hsplit, nearest]
  exact mul_le_mul_of_nonneg_right (by exact_mod_cast hround) (ten_zpow_pos _).le

/-- Rounding to a number of digits keeps the order. -/
theorem nearest_mono {count : ℕ} (hcount : 0 < count) {v w : ℚ} (hv : 0 ≤ v) (h : v ≤ w) :
    nearest count v ≤ nearest count w := by
  rcases hv.eq_or_lt with rfl | hpos
  · rw [nearest_zero]
    exact nearest_nonneg count w
  rcases (Int.log_mono_right hpos h : Int.log 10 v ≤ Int.log 10 w).eq_or_lt with hlog | hlog
  · have hplace : place count v = place count w := by
      unfold place
      rw [hlog]
    have hu := ten_zpow_pos (place count w)
    rw [nearest, nearest, hplace]
    refine mul_le_mul_of_nonneg_right ?_ hu.le
    exact_mod_cast Tie.up.round_mono (div_le_div_of_nonneg_right h hu.le)
  · calc
      nearest count v ≤ 10 ^ (Int.log 10 v + 1) := nearest_le_ten_zpow count v
      _ ≤ 10 ^ Int.log 10 w := ten_zpow_le_ten_zpow (by omega)
      _ ≤ nearest count w := ten_zpow_le_nearest hcount (hpos.trans_le h)

/-- Half a unit behind more digits than are kept makes no difference. -/
theorem nearest_add_half {count n k : ℕ} (hn : 10 ^ count ≤ n) :
    nearest count ((n + 1 / 2) / 10 ^ k) = nearest count (n / 10 ^ k) := by
  have hcast : (10 : ℚ) ^ count ≤ n := by exact_mod_cast hn
  have hn0 : (0 : ℚ) < n := lt_of_lt_of_le (by positivity) hcast
  have hk : (0 : ℚ) < 10 ^ k := by positivity
  set L := Int.log 10 ((n : ℚ) / 10 ^ k) with hL
  have hlow : (10 : ℚ) ^ L ≤ n / 10 ^ k := ten_zpow_log_le (by positivity)
  have hhigh : (n : ℚ) / 10 ^ k < 10 ^ (L + 1) := lt_ten_zpow_log _
  rw [div_lt_iff₀ hk, ← zpow_natCast (10 : ℚ) k, ← ten_zpow_add] at hhigh
  -- the number has more digits than are kept
  have hlength : (count : ℤ) < L + 1 + k := by
    have hlt := hcast.trans_lt hhigh
    rw [← zpow_natCast] at hlt
    exact (zpow_lt_zpow_iff_right₀ (by norm_num)).1 hlt
  obtain ⟨j, hj⟩ : ∃ j : ℕ, L + 1 + k = count + 1 + j := ⟨(L + 1 + k - count - 1).toNat, by omega⟩
  have hplace (v : ℚ) (hv : Int.log 10 v = L) :
      (10 : ℚ) ^ k * 10 ^ place count v = (2 * (5 * 10 ^ j) : ℕ) := by
    rw [← zpow_natCast, ← ten_zpow_add, place, hv,
      show (k : ℤ) + (L + 1 - count) = (j + 1 : ℕ) by push_cast; omega, zpow_natCast]
    push_cast
    ring
  have hlog : Int.log 10 (((n : ℚ) + 1 / 2) / 10 ^ k) = L := by
    have hnext : (n : ℚ) + 1 ≤ 10 ^ (L + 1 + k) := by
      have hnat : L + 1 + (k : ℤ) = ((count + 1 + j : ℕ) : ℤ) := by omega
      rw [hnat, zpow_natCast] at hhigh ⊢
      exact_mod_cast hhigh
    have := log_ten_add_one_eq (v := ((n : ℚ) + 1 / 2) / 10 ^ k) (e := L + 1) ?_ ?_
    · omega
    · rw [add_sub_cancel_right]
      exact hlow.trans (div_le_div_of_nonneg_right (by linarith) hk.le)
    · rw [div_lt_iff₀ hk, ← zpow_natCast (10 : ℚ) k, ← ten_zpow_add]
      linarith
  have hround := round_up_add_half_div n (by positivity : 0 < 5 * 10 ^ j)
  rw [nearest, nearest, div_div, div_div, hplace _ hlog, hplace _ hL.symm, hround, place, place,
    hlog, hL]

/-! ## Magnitudes close to each other -/

/-- What is close to a magnitude of `count` digits has no larger unit: the digits are not
all nines up to the next power of ten. -/
theorem place_le_of_close {count n : ℕ} {r w : ℚ} (hw : 0 < w)
    (hn : r = n * 10 ^ place count r) (hclose : w ≤ r + r / (10 ^ count * 2)) :
    place count w ≤ place count r := by
  have hp := ten_zpow_pos (place count r)
  have hnlt : n < 10 ^ count := by
    have h := div_place_lt count r
    rw [div_lt_iff₀ hp] at h
    have : (n : ℚ) * 10 ^ place count r < 10 ^ count * 10 ^ place count r := hn ▸ h
    exact_mod_cast lt_of_mul_lt_mul_right this hp.le
  have hnle : (n : ℚ) ≤ 10 ^ count - 1 := by
    rw [le_sub_iff_add_le]
    exact_mod_cast hnlt
  have hunit : r / (10 ^ count * 2) ≤ 10 ^ place count r / 2 := by
    rw [div_le_div_iff₀ (by positivity) (by norm_num)]
    calc
      r * 2 = n * 10 ^ place count r * 2 := by rw [← hn]
      _ ≤ 10 ^ count * 10 ^ place count r * 2 := by gcongr; linarith
      _ = 10 ^ place count r * (10 ^ count * 2) := by ring
  have hlt : w < 10 ^ (Int.log 10 r + 1) := by
    calc
      w ≤ r + 10 ^ place count r / 2 := by linarith
      _ = (n + 1 / 2) * 10 ^ place count r := by rw [add_mul, ← hn]; ring
      _ < 10 ^ count * 10 ^ place count r := by gcongr; linarith
      _ = 10 ^ (Int.log 10 r + 1) := by
        rw [← zpow_natCast, ← ten_zpow_add]
        congr 1
        unfold place
        ring
  have := (Int.lt_zpow_iff_log_lt (b := 10) (by norm_num) hw).1 (by exact_mod_cast hlt)
  unfold place
  omega

/-- What is closer to a magnitude of `count` digits than one half of the last of them, where it
has the most of them, is rounded to it. -/
theorem nearest_eq_of_close {count n : ℕ} {r w : ℚ} (hr : 0 < r)
    (hn : r = n * 10 ^ place count r) (hclose : |w - r| < r / (10 ^ count * 2)) :
    nearest count w = r := by
  have hone : (1 : ℚ) ≤ 10 ^ count := one_le_pow₀ (by norm_num)
  have hhalf : r / (10 ^ count * 2) ≤ r / 2 :=
    div_le_div_of_nonneg_left hr.le (by norm_num) (by linarith)
  obtain ⟨hlo, hhi⟩ := abs_lt.1 hclose
  have hw : 0 < w := by linarith
  have hu := ten_zpow_pos (place count w)
  have hplace := place_le_of_close hw hn (by linarith)
  -- so `r` is a whole number of the units of `w`
  obtain ⟨k, hk⟩ : ∃ k : ℕ, r = k * 10 ^ place count w := by
    refine ⟨n * 10 ^ (place count r - place count w).toNat, ?_⟩
    push_cast
    rw [← zpow_natCast, Int.toNat_of_nonneg (by omega), mul_assoc, ← ten_zpow_add,
      sub_add_cancel, ← hn]
  have hlt := div_place_lt count w
  rw [div_lt_iff₀ hu] at hlt
  set u : ℚ := 10 ^ place count w with hu'
  rw [lt_div_iff₀ (by positivity)] at hclose
  -- and of no more of them than `count` digits can count: the next one is a whole unit away
  have hkle : r ≤ 10 ^ count * u := by
    rw [hk]
    refine mul_le_mul_of_nonneg_right ?_ hu.le
    by_contra hgt
    have hnext : (10 : ℚ) ^ count + 1 ≤ k := by
      have hnat : 10 ^ count < k := by exact_mod_cast not_le.1 hgt
      exact_mod_cast hnat
    have hfar : u < r - w := by
      rw [hk]
      nlinarith
    have hnear : (r - w) * (10 ^ count * 2) < r := by
      refine lt_of_le_of_lt (mul_le_mul_of_nonneg_right ?_ (by positivity)) hclose
      linarith [neg_abs_le (w - r)]
    nlinarith
  have hdist : |(k : ℚ) - w / u| < 1 / 2 := by
    have hsplit : (k : ℚ) - w / u = (r - w) / u := by
      rw [hk]
      field_simp
    rw [hsplit, abs_div, abs_of_pos hu, abs_sub_comm, div_lt_iff₀ hu]
    have hcount : (0 : ℚ) < 10 ^ count := by positivity
    nlinarith
  have hround := Tie.up.round_eq_of_abs_sub_lt (div_nonneg hw.le hu.le) hdist
  unfold nearest
  rw [hround, ← hu', ← hk]

/-- A power of ten has few digits. -/
theorem ten_zpow_eq_mul_place {count : ℕ} (hcount : 0 < count) (k : ℤ) :
    (10 : ℚ) ^ k = (10 ^ (count - 1) : ℕ) * 10 ^ place count ((10 : ℚ) ^ k) := by
  have hlog : Int.log 10 ((10 : ℚ) ^ k) = k := by
    have h := log_ten_add_one_eq (v := (10 : ℚ) ^ k) (e := k + 1) (by simp)
      (zpow_lt_zpow_right₀ (by norm_num) (by omega))
    omega
  push_cast
  rw [place, hlog, ← zpow_natCast, ← ten_zpow_add]
  congr 1
  omega

/-- Magnitudes close to each other are rounded to a power of ten between them. -/
theorem nearest_congr_across {count : ℕ} (hcount : 0 < count) {v w : ℚ} {k : ℤ}
    (hclose : |w - v| ≤ v / 10 ^ (count + 3)) (hten : v ≤ 10 ^ k * 10)
    (hk : (v ≤ 10 ^ k ∧ (10 : ℚ) ^ k ≤ w) ∨ w ≤ 10 ^ k ∧ (10 : ℚ) ^ k ≤ v) :
    nearest count w = nearest count v := by
  have hbound : v / 10 ^ (count + 3) < 10 ^ k / (10 ^ count * 2) := by
    have hpos : (0 : ℚ) < 10 ^ k * 10 ^ count := by positivity
    rw [pow_add, div_lt_div_iff₀ (by positivity) (by positivity)]
    calc
      v * (10 ^ count * 2) ≤ 10 ^ k * 10 * (10 ^ count * 2) := by gcongr
      _ < 10 ^ k * (10 ^ count * 10 ^ 3) := by linarith
  have hdist := hclose.trans_lt hbound
  have hvk : |v - 10 ^ k| ≤ |w - v| := by
    rcases hk with hk | hk
    · rw [abs_of_nonpos (by linarith), abs_of_nonneg (by linarith)]
      linarith
    · rw [abs_of_nonneg (by linarith), abs_of_nonpos (by linarith)]
      linarith
  have hwk : |w - 10 ^ k| ≤ |w - v| := by
    rcases hk with hk | hk
    · rw [abs_of_nonneg (by linarith), abs_of_nonneg (by linarith)]
      linarith
    · rw [abs_of_nonpos (by linarith), abs_of_nonpos (by linarith)]
      linarith
  have hplace := ten_zpow_eq_mul_place hcount k
  rw [nearest_eq_of_close (ten_zpow_pos k) hplace (hwk.trans_lt hdist),
    nearest_eq_of_close (ten_zpow_pos k) hplace (hvk.trans_lt hdist)]

/-- Magnitudes without a tie between them are rounded alike. -/
theorem nearest_congr {count : ℕ} (hcount : 0 < count) {v w : ℚ} (hv : 0 < v)
    (hclose : |w - v| ≤ v / 10 ^ (count + 3))
    (htie : ∀ n : ℕ, |w - v| < |(n + 1 / 2) * 10 ^ place count v - v|) :
    nearest count w = nearest count v := by
  have hsmall : v / 10 ^ (count + 3) ≤ v / 1000 := by
    have hone : (1 : ℚ) ≤ 10 ^ count := one_le_pow₀ (by norm_num)
    refine div_le_div_of_nonneg_left hv.le (by norm_num) ?_
    rw [pow_add]
    linarith
  obtain ⟨hlo, hhi⟩ := abs_le.1 (hclose.trans hsmall)
  have hw : 0 < w := by linarith
  have hvw := ten_zpow_log_le hv
  have hwv := ten_zpow_log_le hw
  rcases lt_trichotomy (Int.log 10 w) (Int.log 10 v) with hlt | heq | hgt
  · have hle : w ≤ 10 ^ Int.log 10 v :=
      (lt_ten_zpow_log w).le.trans (ten_zpow_le_ten_zpow (by omega))
    exact nearest_congr_across hcount hclose (by linarith) (.inr ⟨hle, hvw⟩)
  · have hplace : place count w = place count v := by
      unfold place
      rw [heq]
    have hu := ten_zpow_pos (place count v)
    unfold nearest
    rw [hplace, Tie.round_up_congr (v := v / 10 ^ place count v) (by positivity) (by positivity)]
    intro n
    rw [← sub_div, abs_div, abs_of_pos hu, div_lt_iff₀ hu]
    calc
      |w - v| < |(n + 1 / 2) * 10 ^ place count v - v| := htie n
      _ = |n + 1 / 2 - v / 10 ^ place count v| * 10 ^ place count v := by
        rw [← abs_of_pos hu, ← abs_mul, abs_of_pos hu, sub_mul, div_mul_cancel₀ _ hu.ne']
  · have hle : v ≤ 10 ^ Int.log 10 w :=
      (lt_ten_zpow_log v).le.trans (ten_zpow_le_ten_zpow (by omega))
    exact nearest_congr_across hcount hclose (by linarith) (.inl ⟨hle, hwv⟩)

end Abacus.Decimal
