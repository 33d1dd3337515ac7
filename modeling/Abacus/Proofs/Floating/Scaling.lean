/-
Abacus.Proofs.Floating.Scaling — how close long numerals are read.

A numeral whose coefficient is no mantissa of the format is rounded from its
leading bits.  They may be on the other side of a tie than the numeral, but
they differ from it only beyond the precision (`readNumeral_close`): three
cuts are made on the way, and each of them leaves the leading bits.  A whole
numeral is cut but once, and its leading bits are not taken where they could
be on the other side (`readNumeral_whole_standsFor`).
-/
import Abacus.Proofs.Floating.Brackets
import Abacus.Proofs.Floating.Closest

namespace Abacus

namespace Truncated

/-- The magnitude that is left. -/
def magnitude (t : Truncated) : ℚ :=
  t.mantissa * 2 ^ t.exponent

/-- What is left of a number that has been cut, so that the number is a little larger. -/
structure LeftOf (t : Truncated) (v ratio : ℚ) : Prop where
  magnitude_le : t.magnitude ≤ v
  le_mul : v ≤ ratio * t.magnitude

theorem magnitude_nonneg (t : Truncated) : 0 ≤ t.magnitude :=
  mul_nonneg (Nat.cast_nonneg _) (two_zpow_pos _).le

/-- The ratio of a number and what one cut to so many bits leaves of it. -/
def loss (bits : ℕ) : ℚ :=
  1 + 2 / 2 ^ bits

theorem one_le_loss (bits : ℕ) : 1 ≤ loss bits :=
  le_add_of_nonneg_right (by positivity)

/-- The bits that are cut off are few compared with those that are kept. -/
theorem mod_extra_le {bits : ℕ} (hbits : 0 < bits) (m : ℕ) :
    m % 2 ^ (m.log2 + 1 - bits) * 2 ^ bits ≤
      2 * (m / 2 ^ (m.log2 + 1 - bits) * 2 ^ (m.log2 + 1 - bits)) := by
  rcases Nat.eq_zero_or_pos (m.log2 + 1 - bits) with hnone | hsome
  · rw [hnone, pow_zero, Nat.mod_one, zero_mul]
    exact Nat.zero_le _
  · set extra := m.log2 + 1 - bits with hextra
    have hm : m ≠ 0 := by
      rintro rfl
      rw [Nat.log2_zero] at hextra
      omega
    have hkept : 2 ^ (bits - 1) ≤ m / 2 ^ extra := by
      rw [Nat.le_div_iff_mul_le (Nat.two_pow_pos _), ← pow_add,
        show bits - 1 + extra = m.log2 by omega]
      exact Nat.log2_self_le hm
    calc
      m % 2 ^ extra * 2 ^ bits ≤ 2 ^ extra * 2 ^ bits :=
        Nat.mul_le_mul_right _ (Nat.mod_lt _ (Nat.two_pow_pos _)).le
      _ = 2 * (2 ^ (bits - 1) * 2 ^ extra) := by
        rw [mul_comm, ← mul_assoc, ← pow_succ', Nat.sub_add_cancel hbits]
      _ ≤ 2 * (m / 2 ^ extra * 2 ^ extra) :=
        Nat.mul_le_mul_left 2 (Nat.mul_le_mul_right _ hkept)

theorem cut_leftOf {bits : ℕ} (hbits : 0 < bits) (m : ℕ) (e : ℤ) (exact : Bool) :
    (cut bits m e exact).LeftOf (m * 2 ^ e) (loss bits) := by
  set extra := m.log2 + 1 - bits with hextra
  have hkept : (cut bits m e exact).magnitude = (m / 2 ^ extra * 2 ^ extra : ℕ) * 2 ^ e := by
    have hshift : (cut bits m e exact).magnitude = (m / 2 ^ extra : ℕ) * 2 ^ (e + extra) := by
      rw [← Nat.shiftRight_eq_div_pow]
      rfl
    rw [hshift, two_zpow_add, zpow_natCast]
    push_cast
    ring
  have hpos := two_zpow_pos e
  have hrest : (m : ℚ) ≤ loss bits * (m / 2 ^ extra * 2 ^ extra : ℕ) := by
    have hsplit : (m : ℚ) = (m / 2 ^ extra * 2 ^ extra : ℕ) + (m % 2 ^ extra : ℕ) := by
      exact_mod_cast (Nat.div_add_mod' m (2 ^ extra)).symm
    have hle : ((m % 2 ^ extra : ℕ) : ℚ) * 2 ^ bits ≤ 2 * (m / 2 ^ extra * 2 ^ extra : ℕ) := by
      exact_mod_cast mod_extra_le hbits m
    rw [← le_div_iff₀ (by positivity), mul_div_right_comm] at hle
    rw [loss, add_mul, one_mul]
    exact hsplit.le.trans (add_le_add_right hle _)
  constructor
  · rw [hkept]
    exact mul_le_mul_of_nonneg_right (by exact_mod_cast Nat.div_mul_le_self m _) hpos.le
  · rw [hkept, ← mul_assoc]
    exact mul_le_mul_of_nonneg_right hrest hpos.le

/-- A power of ten is cut twice: as a bracket, and then to its bits. -/
theorem tenPower_leftOf {bits : ℕ} (hbits : 0 < bits) {n : ℕ} (hn : n ≤ Bracket.largestExponent) :
    (tenPower bits n).LeftOf (10 ^ n) (loss bits ^ 2) := by
  have hlower := (Bracket.encloses_power (bits + powerGuard) 5 n).lower_le
  have hpow := Bracket.pow_le_lower bits 5 hn
  set b := Bracket.power (bits + powerGuard) 5 n with hb
  have hcut := cut_leftOf hbits b.lower (b.shift + n) (b.lower == b.upper)
  have hten : (10 : ℚ) ^ n = 5 ^ n * 2 ^ n := by
    rw [← mul_pow]
    norm_num
  have hbase : (b.lower : ℚ) * 2 ^ ((b.shift : ℤ) + n) = b.lower * 2 ^ b.shift * 2 ^ n := by
    rw [two_zpow_add, zpow_natCast, zpow_natCast, mul_assoc]
  rw [hbase] at hcut
  have htwo : (0 : ℚ) < 2 ^ n := by positivity
  constructor
  · rw [hten]
    refine hcut.magnitude_le.trans (mul_le_mul_of_nonneg_right ?_ htwo.le)
    exact_mod_cast hlower
  · calc
      (10 : ℚ) ^ n ≤ (1 + 1 / 2 ^ bits) * (b.lower * 2 ^ b.shift) * 2 ^ n := by
        rw [hten]
        exact mul_le_mul_of_nonneg_right (by exact_mod_cast hpow) htwo.le
      _ = (1 + 1 / 2 ^ bits) * (b.lower * 2 ^ b.shift * 2 ^ n) := mul_assoc _ _ _
      _ ≤ loss bits * (loss bits * (tenPower bits n).magnitude) := by
        refine mul_le_mul ?_ hcut.le_mul (by positivity) (by linarith [one_le_loss bits])
        exact add_le_add_right (div_le_div_of_nonneg_right (by norm_num) (by positivity)) _
      _ = loss bits ^ 2 * (tenPower bits n).magnitude := by ring

theorem product_leftOf {bits : ℕ} (hbits : 0 < bits) (c : ℕ) {t : Truncated} {v ratio : ℚ}
    (h : t.LeftOf v ratio) (hratio : 0 ≤ ratio) :
    (product bits c t).LeftOf (c * v) (ratio * loss bits) := by
  have hcut := cut_leftOf hbits (c * t.mantissa) t.exponent t.exact
  have hbase : ((c * t.mantissa : ℕ) : ℚ) * 2 ^ t.exponent = c * t.magnitude := by
    rw [magnitude, Nat.cast_mul, mul_assoc]
  rw [hbase] at hcut
  have hc : (0 : ℚ) ≤ c := Nat.cast_nonneg c
  constructor
  · exact hcut.magnitude_le.trans (mul_le_mul_of_nonneg_left h.magnitude_le hc)
  · calc
      c * v ≤ c * (ratio * t.magnitude) := mul_le_mul_of_nonneg_left h.le_mul hc
      _ = ratio * (c * t.magnitude) := mul_left_comm _ _ _
      _ ≤ ratio * (loss bits * (product bits c t).magnitude) :=
        mul_le_mul_of_nonneg_left hcut.le_mul hratio
      _ = ratio * loss bits * (product bits c t).magnitude := (mul_assoc _ _ _).symm

/-- The quotient by what is left of a number: it has been cut, and the whole quotient is less
than the fraction of it. -/
theorem quotient_leftOf {bits : ℕ} (hbits : 0 < bits) {c : ℕ} (hc : c ≠ 0) {t : Truncated}
    (ht : t.mantissa ≠ 0) : (quotient bits c t).LeftOf (c / t.magnitude) (loss bits ^ 2) := by
  set shift := bits + t.mantissa.log2 + 1 - c.log2 with hshift
  set q := c * 2 ^ shift / t.mantissa with hq
  have hcut := cut_leftOf hbits q (-t.exponent - shift)
    (t.exact && c * 2 ^ shift % t.mantissa == 0)
  have hquotient : quotient bits c t = cut bits q (-t.exponent - shift)
      (t.exact && c * 2 ^ shift % t.mantissa == 0) := by
    rw [hq, ← Nat.shiftLeft_eq]
    rfl
  rw [← hquotient] at hcut
  have hm : (0 : ℚ) < t.mantissa := by exact_mod_cast Nat.pos_of_ne_zero ht
  have hscale := two_zpow_pos (-t.exponent - shift)
  have hfraction : (c : ℚ) / t.magnitude =
      (c * 2 ^ shift : ℕ) / t.mantissa * 2 ^ (-t.exponent - (shift : ℤ)) := by
    have htwo := two_zpow_pos t.exponent
    rw [magnitude, zpow_sub₀ two_ne_zero, zpow_neg, zpow_natCast]
    push_cast
    field_simp
  have hfull : 2 ^ bits ≤ q := by
    rw [hq, Nat.le_div_iff_mul_le (Nat.pos_of_ne_zero ht)]
    calc
      2 ^ bits * t.mantissa ≤ 2 ^ bits * 2 ^ (t.mantissa.log2 + 1) :=
        Nat.mul_le_mul_left _ Nat.lt_log2_self.le
      _ ≤ 2 ^ c.log2 * 2 ^ shift := by
        rw [← pow_add, ← pow_add]
        exact Nat.pow_le_pow_right two_pos (by omega)
      _ ≤ c * 2 ^ shift := Nat.mul_le_mul_right _ (Nat.log2_self_le hc)
  have hfloor : ((c * 2 ^ shift : ℕ) : ℚ) / t.mantissa ≤ loss bits * q := by
    have hlt : ((c * 2 ^ shift : ℕ) : ℚ) / t.mantissa ≤ q + 1 := by
      rw [div_le_iff₀ hm]
      exact_mod_cast (Nat.lt_div_mul_add (Nat.pos_of_ne_zero ht)).le.trans_eq
        (Nat.add_one_mul _ _).symm
    have hone : (1 : ℚ) ≤ 2 / 2 ^ bits * q := by
      have hfull' : (2 : ℚ) ^ bits ≤ q := by exact_mod_cast hfull
      rw [div_mul_eq_mul_div, le_div_iff₀ (by positivity)]
      linarith
    rw [loss, add_mul, one_mul]
    linarith
  constructor
  · rw [hfraction]
    refine hcut.magnitude_le.trans (mul_le_mul_of_nonneg_right ?_ hscale.le)
    rw [hq]
    exact Nat.cast_div_le
  · calc
      (c : ℚ) / t.magnitude ≤ loss bits * q * 2 ^ (-t.exponent - (shift : ℤ)) := by
        rw [hfraction]
        exact mul_le_mul_of_nonneg_right hfloor hscale.le
      _ = loss bits * (q * 2 ^ (-t.exponent - (shift : ℤ))) := mul_assoc _ _ _
      _ ≤ loss bits * (loss bits * (quotient bits c t).magnitude) :=
        mul_le_mul_of_nonneg_left hcut.le_mul (by linarith [one_le_loss bits])
      _ = loss bits ^ 2 * (quotient bits c t).magnitude := by ring

/-- Three cuts lose no more than eight units of what is left. -/
theorem loss_pow_le {bits : ℕ} (hbits : 4 ≤ bits) : loss bits ^ 3 ≤ 1 + 8 / 2 ^ bits := by
  have hsmall : (2 : ℚ) / 2 ^ bits ≤ 1 / 8 := by
    rw [div_le_div_iff₀ (by positivity) (by norm_num)]
    have := pow_le_pow_right₀ (one_le_two (α := ℚ)) hbits
    linarith
  have hpos : (0 : ℚ) ≤ 2 / 2 ^ bits := by positivity
  have height : (8 : ℚ) / 2 ^ bits = 4 * (2 / 2 ^ bits) := by ring
  rw [loss, height]
  generalize (2 : ℚ) / 2 ^ bits = δ at hsmall hpos ⊢
  nlinarith [mul_nonneg hpos hpos]

theorem abs_sub_le_of_ratio {r w ε : ℚ} (hε : 0 ≤ ε) (hr : r ≤ (1 + ε) * w)
    (hwr : w ≤ (1 + ε) * r) : |r - w| ≤ w * ε := by
  rw [abs_le]
  constructor
  · rcases le_total r w with hle | hle
    · nlinarith
    · nlinarith
  · linarith

/-- A numeral in working precision is as close to it as the precision. -/
theorem ofNumeral_close {bits : ℕ} (hbits : 4 ≤ bits) {n : Numeral} (hc : n.coefficient ≠ 0)
    (hn : n.exponent.natAbs ≤ Bracket.largestExponent) :
    |(ofNumeral bits n).magnitude - n.magnitude| ≤ n.magnitude * (8 / 2 ^ bits) := by
  have hbits0 : 0 < bits := by omega
  have hpower := tenPower_leftOf hbits0 hn
  have hone := one_le_loss bits
  have hloss := loss_pow_le hbits
  have hsquare : loss bits ^ 2 ≤ 1 + 8 / 2 ^ bits :=
    (pow_le_pow_right₀ hone (by norm_num)).trans hloss
  unfold ofNumeral
  dsimp only
  split_ifs with hsign
  · have hvalue : (n.coefficient : ℚ) * 10 ^ n.exponent.natAbs = n.magnitude := by
      rw [Numeral.magnitude, ← zpow_natCast, Int.natAbs_of_nonneg hsign]
    have hleft := product_leftOf hbits0 n.coefficient hpower (by positivity)
    rw [hvalue, ← pow_succ] at hleft
    set r := product bits n.coefficient (tenPower bits n.exponent.natAbs)
    refine abs_sub_le_of_ratio (by positivity) ?_ ?_
    · refine hleft.magnitude_le.trans (le_mul_of_one_le_left n.magnitude_nonneg ?_)
      exact le_add_of_nonneg_right (by positivity)
    · exact hleft.le_mul.trans (mul_le_mul_of_nonneg_right hloss r.magnitude_nonneg)
  · have hvalue : (n.coefficient : ℚ) / 10 ^ n.exponent.natAbs = n.magnitude := by
      rw [Numeral.magnitude, ← zpow_natCast, Int.ofNat_natAbs_of_nonpos (by omega), zpow_neg,
        div_inv_eq_mul]
    set t := tenPower bits n.exponent.natAbs
    have hten : (0 : ℚ) < 10 ^ n.exponent.natAbs := by positivity
    have ht : 0 < t.magnitude :=
      pos_of_mul_pos_right (hten.trans_le hpower.le_mul) (by positivity)
    have hmantissa : t.mantissa ≠ 0 := by
      intro hzero
      rw [magnitude, hzero, Nat.cast_zero, zero_mul] at ht
      exact ht.false
    have hleft := quotient_leftOf hbits0 hc hmantissa
    have hcast : (0 : ℚ) ≤ n.coefficient := Nat.cast_nonneg _
    set r := quotient bits n.coefficient t
    refine abs_sub_le_of_ratio (by positivity) ?_ ?_
    · -- the quotient by less than the power is larger
      refine hleft.magnitude_le.trans ?_
      rw [← hvalue, div_le_iff₀ ht, mul_div_assoc', div_mul_eq_mul_div, le_div_iff₀ hten]
      calc
        n.coefficient * 10 ^ n.exponent.natAbs
          ≤ n.coefficient * ((1 + 8 / 2 ^ bits) * t.magnitude) :=
            mul_le_mul_of_nonneg_left
              (hpower.le_mul.trans (mul_le_mul_of_nonneg_right hsquare ht.le)) hcast
        _ = (1 + 8 / 2 ^ bits) * n.coefficient * t.magnitude := by ring
    · calc
        n.magnitude = n.coefficient / 10 ^ n.exponent.natAbs := hvalue.symm
        _ ≤ n.coefficient / t.magnitude :=
          div_le_div_of_nonneg_left hcast ht hpower.magnitude_le
        _ ≤ loss bits ^ 2 * r.magnitude := hleft.le_mul
        _ ≤ (1 + 8 / 2 ^ bits) * r.magnitude :=
          mul_le_mul_of_nonneg_right hsquare r.magnitude_nonneg

/-! ### Leading bits that decide

What is left of a number, and less than one unit of its last bit was cut off. -/

/-- The number is between what is left of it and the next number of as many bits. -/
structure FloorOf (t : Truncated) (v : ℚ) : Prop where
  magnitude_le : t.magnitude ≤ v
  lt_next : v < (t.mantissa + 1) * 2 ^ t.exponent
  eq_of_exact : t.exact = true → v = t.magnitude

theorem cut_floorOf (bits m : ℕ) (e : ℤ) : (cut bits m e true).FloorOf (m * 2 ^ e) := by
  set extra := m.log2 + 1 - bits with hextra
  have hscale : (2 : ℚ) ^ (e + extra) = 2 ^ extra * 2 ^ e := by
    rw [two_zpow_add, zpow_natCast, mul_comm]
  have hpos := two_zpow_pos e
  have hcut : cut bits m e true =
      ⟨m / 2 ^ extra, e + extra, m / 2 ^ extra * 2 ^ extra == m⟩ := by
    rw [← Nat.shiftRight_eq_div_pow, ← Nat.shiftLeft_eq]
    rfl
  rw [hcut]
  constructor
  · rw [magnitude, hscale, ← mul_assoc]
    exact mul_le_mul_of_nonneg_right (by exact_mod_cast Nat.div_mul_le_self m _) hpos.le
  · rw [hscale, ← mul_assoc]
    refine mul_lt_mul_of_pos_right ?_ hpos
    exact_mod_cast (Nat.lt_div_mul_add (Nat.two_pow_pos extra)).trans_eq (Nat.add_one_mul _ _).symm
  · intro hexact
    have heq : m / 2 ^ extra * 2 ^ extra = m := by simpa using hexact
    rw [magnitude, hscale, ← mul_assoc]
    exact_mod_cast congrArg (fun k : ℕ => (k : ℚ) * 2 ^ e) heq.symm

theorem mantissa_cut_ne_zero {bits m : ℕ} (hbits : 0 < bits) (hm : m ≠ 0) (e : ℤ) (exact : Bool) :
    (cut bits m e exact).mantissa ≠ 0 := by
  have hle : 2 ^ (m.log2 + 1 - bits) ≤ m :=
    (Nat.pow_le_pow_right two_pos (by omega)).trans (Nat.log2_self_le hm)
  change m >>> (m.log2 + 1 - bits) ≠ 0
  rw [Nat.shiftRight_eq_div_pow]
  exact (Nat.div_pos hle (Nat.two_pow_pos _)).ne'

/-- The leading bits have the place of the leading bit of the number. -/
theorem FloorOf.unit_eq {t : Truncated} {v : ℚ} (h : t.FloorOf v) (hm : t.mantissa ≠ 0)
    (f : Format) : f.unit v = t.exponent +
      max ((t.mantissa.log2 : ℤ) + 1 - f.precision) (f.minExponent - t.exponent) := by
  have hlow : (2 : ℚ) ^ ((t.mantissa.log2 : ℤ) + 1 + t.exponent - 1) ≤ v := by
    refine le_trans ?_ h.magnitude_le
    rw [magnitude, show (t.mantissa.log2 : ℤ) + 1 + t.exponent - 1 = t.mantissa.log2 + t.exponent by
      ring, two_zpow_add, zpow_natCast]
    refine mul_le_mul_of_nonneg_right ?_ (two_zpow_pos _).le
    exact_mod_cast Nat.log2_self_le hm
  have hlog := log_add_one_eq hlow (h.lt_next.trans_le ?_)
  · unfold Format.unit
    omega
  · rw [two_zpow_add]
    refine mul_le_mul_of_nonneg_right ?_ (two_zpow_pos _).le
    exact_mod_cast Nat.lt_log2_self

/-- Where the leading bits decide, they are rounded like the number. -/
theorem FloorOf.nearest_eq {t : Truncated} {v : ℚ} (h : t.FloorOf v) (hm : t.mantissa ≠ 0)
    {f : Format} (hdecided : t.isUndecided f = false) : f.nearest v = f.nearest t.magnitude := by
  have hpos := two_zpow_pos t.exponent
  have hself : t.FloorOf t.magnitude :=
    ⟨le_rfl, mul_lt_mul_of_pos_right (by linarith) hpos, fun _ => rfl⟩
  cases hexact : t.exact with
  | true => rw [h.eq_of_exact hexact]
  | false =>
    have hunit := h.unit_eq hm f
    unfold isUndecided at hdecided
    rw [hexact] at hdecided
    set dropped := max ((t.mantissa.log2 : ℤ) + 1 - f.precision) (f.minExponent - t.exponent)
    rcases lt_or_ge ((t.mantissa.log2 : ℤ) + 1 + t.exponent) f.minExponent with htiny | hlarge
    · -- nothing is left of either
      have hsmall : v < 2 ^ (f.minExponent - 1) := by
        refine h.lt_next.trans_le (le_trans ?_ (two_zpow_le (by omega :
          (t.mantissa.log2 : ℤ) + 1 + t.exponent ≤ f.minExponent - 1)))
        rw [two_zpow_add]
        refine mul_le_mul_of_nonneg_right ?_ hpos.le
        exact_mod_cast Nat.lt_log2_self
      rw [f.nearest_of_lt (t.magnitude_nonneg.trans h.magnitude_le) hsmall,
        f.nearest_of_lt t.magnitude_nonneg (h.magnitude_le.trans_lt hsmall)]
    · set half := 2 ^ (dropped - 1).toNat with hhalf
      have hmod : t.mantissa % (2 * half) ≠ half ∧ t.mantissa % (2 * half) + 1 ≠ half := by
        simpa only [Bool.not_false, Bool.true_and, decide_eq_true hlarge, Bool.or_eq_false_iff,
          beq_eq_false_iff_ne] using hdecided
      have hdropped : 1 ≤ dropped := by
        by_contra hnone
        have hone : half = 1 := by
          rw [hhalf, show (dropped - 1).toNat = 0 by omega, pow_zero]
        rw [hone] at hmod
        omega
      have hpow : (2 : ℚ) ^ (t.exponent + dropped) = (2 * half : ℕ) * 2 ^ t.exponent := by
        rw [two_zpow_add, mul_comm, hhalf, ← pow_succ']
        push_cast
        rw [← zpow_natCast]
        congr 2
        omega
      have hround {w : ℚ} (hw : t.FloorOf w) : Tie.even.round (w / 2 ^ (t.exponent + dropped)) =
          t.mantissa / (2 * half) + if half < t.mantissa % (2 * half) then 1 else 0 := by
        rw [hpow, mul_comm, ← div_div]
        refine Tie.even.round_div_eq_of_not_half (Nat.two_pow_pos _) hmod.1 hmod.2 ?_ ?_
        · rw [le_div_iff₀ hpos]
          exact hw.magnitude_le
        · rw [div_lt_iff₀ hpos]
          exact hw.lt_next
      rw [Format.nearest, Format.nearest, hunit, hself.unit_eq hm f, hround h, hround hself]

/-- In working precision a whole numeral is its coefficient, cut. -/
theorem ofNumeral_whole {bits : ℕ} (hbits : 0 < bits) {n : Numeral} (h : n.exponent = 0) :
    ofNumeral bits n = cut bits n.coefficient 0 true := by
  have hbracket : Bracket.power (bits + powerGuard) 5 0 = ⟨1, 1, 0⟩ := by
    rw [Bracket.power, if_pos rfl]
  have hone : (1 : ℕ).log2 + 1 - bits = 0 := by
    rw [show (1 : ℕ).log2 = 0 by decide]
    omega
  have hten : tenPower bits 0 = ⟨1, 0, true⟩ := by
    unfold tenPower cut
    rw [hbracket]
    dsimp only
    rw [hone]
    rfl
  unfold ofNumeral product
  rw [h, if_pos le_rfl, Int.natAbs_zero, hten, mul_one]

end Truncated

namespace Format

variable (f : Format)

/-- A whole numeral is rounded to the nearest number, however often its precision is raised. -/
theorem settleNumeral_standsFor {n : Numeral} (hc : n.coefficient ≠ 0) (h : n.exponent = 0)
    (fuel : ℕ) {precision : ℕ} (hprecision : 0 < precision) (step : ℕ) :
    (f.settleNumeral n fuel precision step).StandsFor n.negative (f.nearest n.magnitude) := by
  induction fuel generalizing precision step with
  | zero => exact f.roundNumeral_standsFor n
  | succ fuel ih =>
    have hbits : 0 < precision + wordBits := by omega
    rw [settleNumeral, Truncated.ofNumeral_whole hbits h]
    have hmantissa := Truncated.mantissa_cut_ne_zero hbits hc 0 true
    have hfloor := Truncated.cut_floorOf (precision + wordBits) n.coefficient 0
    have hvalue : (n.coefficient : ℚ) * 2 ^ (0 : ℤ) = n.magnitude := by
      rw [Numeral.magnitude, h, zpow_zero, zpow_zero]
    rw [hvalue] at hfloor
    set t := Truncated.cut (precision + wordBits) n.coefficient 0 true
    cases hundecided : t.isUndecided f with
    | true => exact ih (by omega) _
    | false =>
      have hround := f.round_standsFor n.negative t.mantissa one_pos t.exponent
      rw [Nat.cast_one, div_one] at hround
      rw [hfloor.nearest_eq hmantissa hundecided]
      exact hround

/-- Whatever precision a numeral is settled in, it is rounded from a magnitude that is closer to
it than the precision of the format, and that its sign does not change. -/
theorem settleNumeral_close {n : Numeral} (hc : n.coefficient ≠ 0)
    (hn : n.exponent.natAbs ≤ Bracket.largestExponent) (fuel : ℕ) {precision : ℕ}
    (hprecision : f.precision ≤ precision) (step : ℕ) :
    ∃ v, 0 ≤ v ∧ |v - n.magnitude| ≤ n.magnitude / 2 ^ (f.precision + 3) ∧
      ∀ negative, (f.settleNumeral { n with negative } fuel precision step).StandsFor negative
        (f.nearest v) := by
  -- on the fuel: the precision is only raised, so it stays that of the format at least
  induction fuel generalizing precision step with
  | zero =>
    refine ⟨n.magnitude, n.magnitude_nonneg, ?_, fun negative =>
      f.roundNumeral_standsFor { n with negative }⟩
    rw [sub_self, abs_zero]
    exact div_nonneg n.magnitude_nonneg (by positivity)
  | succ fuel ih =>
    set t := Truncated.ofNumeral (precision + wordBits) n with ht
    have hsettle (negative : Bool) : f.settleNumeral { n with negative } (fuel + 1) precision step =
        if t.isUndecided f then
          f.settleNumeral { n with negative } fuel (precision + step)
            (wholeWords ((precision + step) / 5))
        else f.round negative t.mantissa 1 t.exponent := rfl
    by_cases hundecided : t.isUndecided f = true
    · simp only [hsettle, hundecided, if_true]
      exact ih (by omega) _
    · simp only [hsettle, hundecided, if_false, Bool.false_eq_true]
      have hbits : 4 ≤ precision + wordBits := Nat.le_add_left_of_le (by decide)
      have hclose := Truncated.ofNumeral_close hbits hc hn
      rw [← ht] at hclose
      have hword : (8 : ℚ) / 2 ^ (precision + wordBits) ≤ 1 / 2 ^ (f.precision + 3) := by
        rw [div_le_div_iff₀ (by positivity) (by positivity), one_mul]
        calc
          (8 : ℚ) * 2 ^ (f.precision + 3) = 2 ^ (f.precision + 6) := by
            rw [pow_add, pow_add]
            ring
          _ ≤ 2 ^ (precision + wordBits) :=
            pow_le_pow_right₀ one_le_two (by unfold wordBits; omega)
      refine ⟨t.magnitude, t.magnitude_nonneg, hclose.trans ?_, fun negative => ?_⟩
      · exact (mul_le_mul_of_nonneg_left hword n.magnitude_nonneg).trans_eq (mul_one_div _ _)
      · have hround := f.round_standsFor negative t.mantissa one_pos t.exponent
        rwa [Nat.cast_one, div_one] at hround

/-- Where the range does not decide, a numeral is rounded, whatever its sign. -/
theorem roundInRange_cases (round : Numeral → Floating f) (n : Numeral) :
    (∀ negative, f.roundInRange round { n with negative } = f.ofNumeral { n with negative }) ∨
      ∀ negative, f.roundInRange round { n with negative } = round { n with negative } := by
  unfold ofNumeral roundInRange
  dsimp only
  split_ifs
  · exact .inl fun _ => rfl
  · exact .inl fun _ => rfl
  · exact .inl fun _ => rfl
  · exact .inr fun _ => rfl

/-- A whole numeral is read as the number nearest to it, however long it is. -/
theorem readNumeral_whole_standsFor {n : Numeral} (h : n.exponent = 0) :
    (f.readNumeral n).StandsFor n.negative (f.nearest n.magnitude) := by
  by_cases hfew : n.coefficient < 2 ^ f.precision
  · exact f.readNumeral_standsFor hfew
  have hc : n.coefficient ≠ 0 := fun hzero => hfew (hzero ▸ Nat.two_pow_pos _)
  have hread : f.readNumeral n = f.roundInRange f.scaleNumeral n := if_neg hfew
  rw [hread]
  rcases f.roundInRange_cases f.scaleNumeral n with heq | heq
  · rw [heq n.negative]
    exact f.ofNumeral_standsFor n
  · rw [heq n.negative]
    exact f.settleNumeral_standsFor hc h _ (Nat.lt_add_left _ (by decide)) wordBits

/-- Numerals are rounded from a magnitude that is closer to them than the precision, and that
their sign does not change. -/
theorem readNumeral_close {n : Numeral} (h : n.exponent.natAbs ≤ Bracket.largestExponent) :
    ∃ v, 0 ≤ v ∧ |v - n.magnitude| ≤ n.magnitude / 2 ^ (f.precision + 3) ∧
      ∀ negative, (f.readNumeral { n with negative }).StandsFor negative (f.nearest v) := by
  have hexact : |n.magnitude - n.magnitude| ≤ n.magnitude / 2 ^ (f.precision + 3) := by
    rw [sub_self, abs_zero]
    exact div_nonneg n.magnitude_nonneg (by positivity)
  by_cases hfew : n.coefficient < 2 ^ f.precision
  · exact ⟨_, n.magnitude_nonneg, hexact, fun negative =>
      f.readNumeral_standsFor (n := { n with negative }) hfew⟩
  have hread (negative : Bool) : f.readNumeral { n with negative } =
      f.roundInRange f.scaleNumeral { n with negative } := if_neg hfew
  simp only [hread]
  rcases f.roundInRange_cases f.scaleNumeral n with heq | heq
  · simp only [heq]
    exact ⟨_, n.magnitude_nonneg, hexact, fun negative => f.ofNumeral_standsFor { n with negative }⟩
  · simp only [heq]
    have hc : n.coefficient ≠ 0 := fun hzero => hfew (hzero ▸ Nat.two_pow_pos _)
    have hprecision : f.precision ≤ f.precision + wordBits := Nat.le_add_right _ _
    exact f.settleNumeral_close hc h
      (n.coefficient.log2 + 4 * n.exponent.natAbs + 1) hprecision wordBits

/-- What is closer to a magnitude than the precision is rounded to a number that is hardly
further away than the precision. -/
theorem abs_nearest_sub_le_of_close {r v : ℚ} (hr : 2 ^ (f.minExponent + f.precision) ≤ r)
    (h : |v - r| ≤ r / 2 ^ (f.precision + 1)) :
    |f.nearest v - r| ≤ r * (2 / 2 ^ f.precision) := by
  have hpos : 0 < r := (two_zpow_pos _).trans_le hr
  have hhalf : r / 2 ^ (f.precision + 1) ≤ r / 2 :=
    div_le_div_of_nonneg_left hpos.le two_pos (le_self_pow₀ one_le_two (Nat.succ_ne_zero _))
  obtain ⟨hbelow, habove⟩ := abs_le.1 (h.trans hhalf)
  have hv : 2 ^ (f.minExponent + f.precision - 1) ≤ v := by
    rw [zpow_sub_one₀ two_ne_zero]
    linarith
  have herror : |f.nearest v - v| ≤ 3 / 2 * r / 2 ^ f.precision :=
    (f.abs_nearest_sub_le_mul hv).trans
      (div_le_div_of_nonneg_right (by linarith) (by positivity))
  calc
    |f.nearest v - r| ≤ |f.nearest v - v| + |v - r| := abs_sub_le _ _ _
    _ ≤ 3 / 2 * r / 2 ^ f.precision + r / 2 ^ (f.precision + 1) := add_le_add herror h
    _ = r * (2 / 2 ^ f.precision) := by
      rw [pow_succ]
      field_simp
      norm_num

end Format

end Abacus
