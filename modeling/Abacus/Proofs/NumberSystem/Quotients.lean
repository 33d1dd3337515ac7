/-
Abacus.Proofs.NumberSystem.Quotients — dividing and multiplying back.

A quotient of decimals is rounded, and so is its product with the divisor; the
literals were rounded before.  All of this together is far below the fiftieth
digit, so a line that divides a literal by another one and multiplies by it
again prints what the first literal alone prints (`quotients_multiply_back`).
What the divisor loses while it is read does not matter, as both operations
have the same divisor.
-/
import Abacus.Proofs.Floating.Products
import Abacus.Proofs.NumberSystem.Sums

namespace Abacus

/-! ## Numbers -/

namespace Numeral

/-- A numeral is divided by another one and multiplied by it again, and no number on the way
leaves the range of exponents.  Where the first one is zero, all numbers but the divisor are. -/
structure DividesInRange (m n : Numeral) : Prop where
  divisor : (Format.decimal.readNumeral n).IsNormal
  dividend : m.coefficient ≠ 0 → (Format.decimal.readNumeral m).IsNormal
  quotient : m.coefficient ≠ 0 →
    ((Format.decimal.readNumeral m).div (Format.decimal.readNumeral n)).IsNormal
  product : m.coefficient ≠ 0 →
    (((Format.decimal.readNumeral m).div (Format.decimal.readNumeral n)).mul
      (Format.decimal.readNumeral n)).IsNormal

/-- The numbers on the way. -/
structure DividesBack (m n : Numeral) (x y q p : Finite Format.decimal) : Prop where
  dividend : Format.decimal.readNumeral m = .finite x
  divisor : Format.decimal.readNumeral n = .finite y
  divisor_ne_zero : y.isZero = false
  quotient : x.div y = .finite q
  product : q.mul y = .finite p

variable {m n : Numeral}

theorem negative_eq (h : 0 < m.magnitude) : m.negative = decide (m.value < 0) := by
  unfold value
  cases m.negative with
  | true => exact (decide_eq_true (by simpa using h)).symm
  | false => exact (decide_eq_false (by simpa using h.le)).symm

/-- What a numeral is read as is close to it if it has all of its bits. -/
theorem exists_read_close (hm : m.exponent.natAbs ≤ Bracket.largestExponent)
    (h : (Format.decimal.readNumeral m).IsNormal) :
    ∃ x, Format.decimal.readNumeral m = .finite x ∧ x.isZero = false ∧
      x.IsCloseTo m.negative m.magnitude := by
  obtain ⟨v, hv, hclose, hstands⟩ := Format.decimal.readsNumerals.close hm
  refine (hstands m.negative).exists_close h hv (hclose.trans ?_)
  exact div_le_div_of_nonneg_left m.magnitude_nonneg (by positivity)
    (pow_le_pow_right₀ one_le_two (by omega))

namespace DividesInRange

variable (h : DividesInRange m n)
include h

/-- Dividing zero gives zero, and multiplying it by the divisor does. -/
theorem exists_zeros (hm : m.coefficient = 0) :
    ∃ x y q p, DividesBack m n x y q p ∧ x.isZero = true ∧ p.isZero = true := by
  obtain ⟨y, hy, hy0⟩ := h.divisor.exists_finite
  set x : Finite Format.decimal := .zero m.negative
  have hx : x.magnitude = 0 := Finite.magnitude_zero _
  have hquotient := x.div_standsFor hy0 (.inr fun hne => absurd (by rw [hx, zero_div]) hne)
  rw [hx, zero_div, Format.nearest_zero] at hquotient
  obtain ⟨q, hq, -, hq0⟩ := hquotient.exists_finite (two_zpow_pos _)
  have hproduct := q.mul_standsFor y (.inr fun hne => absurd (by rw [hq0, zero_mul]) hne)
  rw [hq0, zero_mul, Format.nearest_zero] at hproduct
  obtain ⟨p, hp, -, hp0⟩ := hproduct.exists_finite (two_zpow_pos _)
  exact ⟨x, y, q, p,
    ⟨Format.decimal.readsNumerals.of_coefficient_eq_zero hm, hy, hy0, hq, hp⟩,
    Finite.magnitude_eq_zero_iff.1 hx, Finite.magnitude_eq_zero_iff.1 hp0⟩

/-- The last number has the sign of the numeral, and both it and what the numeral is read as are
much closer to it than half of the fiftieth digit. -/
theorem exists_close (hm : m.coefficient ≠ 0)
    (hexponent : m.exponent.natAbs ≤ Bracket.largestExponent) :
    ∃ x y q p, DividesBack m n x y q p ∧ x.negative = m.negative ∧ p.negative = m.negative ∧
      |x.magnitude - m.magnitude| ≤ m.magnitude * (2 / 5 / 10 ^ 50) ∧
      |p.magnitude - m.magnitude| ≤ m.magnitude * (2 / 5 / 10 ^ 50) := by
  obtain ⟨x, hx, -, hxclose⟩ := exists_read_close hexponent (h.dividend hm)
  obtain ⟨y, hy, hy0⟩ := h.divisor.exists_finite
  have hdiv : (Floating.finite x).div (.finite y) = x.div y := if_neg (by rw [hy0]; decide)
  have hquotient := h.quotient hm
  have hproduct := h.product hm
  rw [hx, hy, hdiv] at hquotient hproduct
  obtain ⟨q, hq, -, hqclose⟩ := Finite.exists_div_close hy0 hquotient
  rw [hq] at hproduct
  obtain ⟨p, hp, -, hpclose⟩ := Finite.exists_mul_close hproduct
  obtain ⟨hsign, hback⟩ := Finite.div_mul_close hy0 hqclose hpclose
  have hpx := abs_sub_le_of_close (by positivity) hback hxclose.close
  refine ⟨x, y, q, p, ⟨hx, hy, hy0, hq, hp⟩, hxclose.negative, hsign.trans hxclose.negative,
    hxclose.close.trans ?_, hpx.trans ?_⟩
  · refine mul_le_mul_of_nonneg_left ?_ m.magnitude_nonneg
    change (4 : ℚ) / 2 ^ 256 ≤ 2 / 5 / 10 ^ 50
    norm_num
  · refine mul_le_mul_of_nonneg_left ?_ m.magnitude_nonneg
    change (4 : ℚ) / 2 ^ 256 + 4 / 2 ^ 256 + 4 / 2 ^ 256 * (4 / 2 ^ 256) + 4 / 2 ^ 256 +
      (4 / 2 ^ 256 + 4 / 2 ^ 256 + 4 / 2 ^ 256 * (4 / 2 ^ 256)) * (4 / 2 ^ 256) ≤ 2 / 5 / 10 ^ 50
    norm_num

/-- The first and the last number are printed alike, as the digits of the numeral. -/
theorem exists_text (hfew : FewDigits 50 m.value)
    (hexponent : m.exponent.natAbs ≤ Bracket.largestExponent) :
    ∃ text, Decimal.IsCanonical 50 text ∧ Denotes text m.value ∧ ∃ x y q p,
      DividesBack m n x y q p ∧ NumberSystem.Decimal.render (.finite x) = text ∧
      NumberSystem.Decimal.render (.finite p) = text := by
  by_cases hm : m.coefficient = 0
  · obtain ⟨x, y, q, p, hback, hx, hp⟩ := h.exists_zeros hm
    have hrender := NumberSystem.Decimal.render_of_isZero hx
    have hvalue : m.value = 0 := by
      rw [← abs_eq_zero, m.abs_value, magnitude_of_coefficient_eq_zero hm]
    have hdenotes := NumberSystem.Decimal.render_zero_denotes hx
    rw [hrender, ← hvalue] at hdenotes
    exact ⟨"0", .inl rfl, hdenotes, x, y, q, p, hback, hrender,
      NumberSystem.Decimal.render_of_isZero hp⟩
  · obtain ⟨x, y, q, p, hback, hxsign, hpsign, hx, hp⟩ := h.exists_close hm hexponent
    have hpos : 0 < m.magnitude :=
      mul_pos (by exact_mod_cast Nat.pos_of_ne_zero hm) (ten_zpow_pos _)
    have hvalue : m.value ≠ 0 := by
      rw [← abs_pos, m.abs_value]
      exact hpos
    have hsign := negative_eq hpos
    obtain ⟨text, hcanonical, hdenotes, hprinted⟩ :=
      NumberSystem.Decimal.exists_text hfew hvalue
    rw [m.abs_value] at hprinted
    exact ⟨text, hcanonical, hdenotes, x, y, q, p, hback,
      hprinted x (hxsign.trans hsign) hx, hprinted p (hpsign.trans hsign) hp⟩

end DividesInRange

end Numeral

/-! ## Lines -/

namespace Calculator

variable {a b c : String} {m n : Numeral} (ha : IsNumeral a m)
include ha

/-- A literal has no more places behind the point than its line has characters. -/
theorem IsNumeral.natAbs_exponent_le : m.exponent.natAbs ≤ a.length + 2 := by
  obtain ⟨text, htokens, hread⟩ := ha
  have hlength := (tokenize_eq_ok_iff.1 htokens).length_text_le List.mem_cons_self
  cases alternates_of_tokenize htokens with
  | number hliteral _ =>
    obtain ⟨negative, whole, fraction, hw, hf, -, rfl⟩ := hliteral.exists_signed
    have hvalue := Numeral.read?_signed negative hw hf (.inl rfl)
    rw [List.append_nil, scanExponent_nil] at hvalue
    rw [String.toList_ofList, hvalue, Option.some.injEq] at hread
    have hexponent : m.exponent = -fraction.length := by
      rw [← hread]
      exact zero_sub _
    have hpointed : fraction.length ≤ (pointed fraction).length := by
      rcases eq_or_ne fraction [] with rfl | hne
      · exact Nat.zero_le _
      · rw [pointed_of_ne_nil hne]
        exact Nat.le_succ _
    have hsigned : (whole ++ pointed fraction).length ≤
        (signed negative (whole ++ pointed fraction)).length := by
      cases negative with
      | true => exact Nat.le_succ _
      | false => exact le_rfl
    rw [String.length_ofList, String.length_toList] at hlength
    rw [List.length_append] at hsigned
    omega

variable (hb : IsNumeral b n) (hc : IsNumeral c n) (environment : Environment)
  {x y q p : Finite Format.decimal} (h : m.DividesBack n x y q p)
include h

theorem evaluate_dividend :
    (evaluate .decimal environment a).value = .ok (NumberSystem.Decimal.render (.finite x)) := by
  obtain ⟨t, hta, hx⟩ := ha.exists_token
  rw [h.dividend] at hx
  have hpostfix : toPostfix [.number t] = .ok (Expression.number t).postorder := rfl
  have hvalue := (evaluateIn_of_postorder hta hpostfix environment).2 hx
  exact evaluate_eq_ok_iff.2 ⟨.finite x, hvalue, rfl⟩

include hb hc

theorem evaluate_div_mul :
    (evaluate .decimal environment (a ++ "/" ++ b ++ "*" ++ c)).value =
      .ok (NumberSystem.Decimal.render (.finite p)) := by
  obtain ⟨t, hta, hx⟩ := ha.exists_token
  obtain ⟨u, htb, hy⟩ := hb.exists_token
  obtain ⟨w, htc, hy'⟩ := hc.exists_token
  rw [h.dividend] at hx
  rw [h.divisor] at hy hy'
  have hover : Operator.ofChar? '/' = some .div := rfl
  have htimes : Operator.ofChar? '*' = some .mul := rfl
  have htokens := tokenize_between htimes nofun rfl rfl
    (tokenize_between hover nofun rfl rfl hta htb) htc
  have hdiv : NumberSystem.decimal.binary .div (.finite x) (.finite y) = .ok (.finite q) := by
    change NumberSystem.Decimal.div (.finite x) (.finite y) = _
    have hne : ¬y.isZero = true := by
      rw [h.divisor_ne_zero]
      exact Bool.false_ne_true
    rw [NumberSystem.Decimal.div, Floating.isZero, if_neg hne, Floating.div, if_neg hne, h.quotient]
    rfl
  have hmul : NumberSystem.decimal.binary .mul (.finite q) (.finite y) = .ok (.finite p) := by
    change (q.mul y).checked _ = _
    rw [h.product]
    rfl
  have hevaluate : (Expression.binary .mul (.binary .div (.number t) (.number u))
      (.number w)).evaluate NumberSystem.decimal environment = .ok (.finite p) := by
    simp only [Expression.evaluate, bind_eq_ok_iff]
    exact ⟨_, ⟨_, hx, _, hy, hdiv⟩, _, hy', hmul⟩
  have hvalue := (evaluateIn_of_postorder htokens rfl environment).2 hevaluate
  exact evaluate_eq_ok_iff.2 ⟨.finite p, hvalue, rfl⟩

end Calculator

/-- A literal of at most fifty digits that is divided by another one and multiplied by it again is
printed as it is alone, namely as its own digits, if no number on the way leaves the range of
exponents and the literal has fewer characters than a machine can count. -/
theorem quotients_multiply_back {a b c : String} {m n : Numeral} (ha : Calculator.IsNumeral a m)
    (hb : Calculator.IsNumeral b n) (hc : Calculator.IsNumeral c n) (hfew : FewDigits 50 m.value)
    (hrange : m.DividesInRange n) (hlength : a.length < Word.modulus) :
    ∃ text, Decimal.IsCanonical 50 text ∧ Denotes text m.value ∧ ∀ environment,
      (Calculator.evaluate .decimal environment a).value = .ok text ∧
      (Calculator.evaluate .decimal environment (a ++ "/" ++ b ++ "*" ++ c)).value = .ok text := by
  have hexponent : m.exponent.natAbs ≤ Bracket.largestExponent := by
    have hplaces := ha.natAbs_exponent_le
    unfold Word.modulus at hlength
    unfold Bracket.largestExponent
    omega
  obtain ⟨text, hcanonical, hdenotes, x, y, q, p, hback, hx, hp⟩ :=
    hrange.exists_text hfew hexponent
  refine ⟨text, hcanonical, hdenotes, fun environment => ⟨?_, ?_⟩⟩
  · rw [Calculator.evaluate_dividend ha environment hback, hx]
  · rw [Calculator.evaluate_div_mul ha hb hc environment hback, hp]

/-- A third, three times. -/
theorem quotients_multiply_back_third :
    Numeral.DividesInRange ⟨false, 1, 0⟩ ⟨false, 3, 0⟩ ∧
    (Calculator.evaluate .decimal (fun _ => none) "1 ").value = .ok "1" ∧
    (Calculator.evaluate .decimal (fun _ => none) ("1 " ++ "/" ++ " 3 " ++ "*" ++ " 3")).value =
      .ok "1" := by
  have hrange : Numeral.DividesInRange ⟨false, 1, 0⟩ ⟨false, 3, 0⟩ :=
    ⟨by decide +kernel, fun _ => by decide +kernel, fun _ => by decide +kernel,
      fun _ => by decide +kernel⟩
  have hone : (Calculator.evaluate .decimal (fun _ => none) "1 ").value = .ok "1" := by
    decide +kernel
  obtain ⟨text, -, -, hprinted⟩ := quotients_multiply_back (a := "1 ") (b := " 3 ") (c := " 3")
    ⟨"1", by decide +kernel⟩ ⟨"3", by decide +kernel⟩ ⟨"3", by decide +kernel⟩
    (Numeral.fewDigits (by norm_num)) hrange (by decide)
  obtain ⟨halone, hback⟩ := hprinted fun _ => none
  exact ⟨hrange, hone, hback.trans (halone.symm.trans hone)⟩

end Abacus
