/-
Abacus.Proofs.NumberSystem.Printing — what is printed can be read again.

A printed result is either a literal of its number system, or, in decimals, has
the notation `d.ddE±n`.  In both cases it is read as a number that is printed
the same.  For integers and in double precision this number is the result
itself, up to the sign of zero; in decimals it is only so close to the result
that its fifty digits are the same.
-/
import Abacus.Proofs.NumberSystem.Finiteness
import Abacus.Proofs.NumberSystem.WholeNumbers
import Abacus.Proofs.Syntax.Spelling

namespace Abacus

/-! ## Literals as lines -/

theorem tokenize_literal {caps : Capabilities} {text : String}
    (h : IsLiteral caps.decimals text) : tokenize caps text = .ok [.number text] := by
  have hend : Spaced [] [] := .nil nofun
  have hspells : Spells [.number text] (String.ofList ([] ++ (text.toList ++ []))) :=
    .mk nofun hend
  rw [List.nil_append, List.append_nil, String.ofList_toList] at hspells
  exact tokenize_of_spells (.number h .nil) hspells

/-- A line that is a literal has the value of the literal. -/
theorem Calculator.evaluateIn_literal {V : Type} {system : NumberSystem V} {text : String} {x : V}
    (h : IsLiteral system.capabilities.decimals text) (hx : system.readLiteral text = .ok x)
    (environment : Environment) : (evaluateIn system environment text).value = .ok x := by
  refine evaluateIn_eq_ok_iff.2 ⟨_, [.number text], tokenize_literal h, rfl, ?_⟩
  rw [Evaluation.evaluate_eq, List.foldlM_cons, Evaluation.step_number, hx]
  rfl

namespace NumberSystem

/-- A text is read as a number that is printed as the text. -/
def ReadsBack {V : Type} (system : NumberSystem V) (text : String) : Prop :=
  ∃ x, system.readLiteral text = .ok x ∧ system.render x = text

/-! ## Whole numbers -/

theorem isLiteral_toString (n : ℤ) (decimals : Bool) : IsLiteral decimals (toString n) := by
  have hempty : ∀ c ∈ ([] : List Char), c.isDigit = true := List.forall_mem_nil _
  have h := isLiteral_signed (decide (n < 0)) (isDigits_digitChars n.natAbs) hempty
    (fun hne => absurd rfl hne : [] ≠ [] → decimals = true)
  rwa [pointed_nil, List.append_nil, ← toString_int] at h

theorem Integer.readLiteral_toString (n : ℤ) : readLiteral (toString n) = .ok n := by
  rw [toString_int, readLiteral_signed _ (isDigits_digitChars n.natAbs), digitsValue_digitChars]
  by_cases h : n < 0
  · rw [if_pos (decide_eq_true h)]
    congr 1
    omega
  · rw [if_neg (by simpa using h)]
    congr 1
    omega

theorem Integer.readsBack (n : ℤ) : integer.ReadsBack (toString n) :=
  ⟨n, Integer.readLiteral_toString n, rfl⟩

/-! ## Double precision -/

theorem Float.readsBack_toString {n : ℤ} (hn : n.natAbs ≤ 2 ^ 53) :
    float.ReadsBack (toString n) := by
  obtain ⟨x, hx, hint⟩ :=
    Float.readLiteral_isInt (isLiteral_toString n false) (Integer.readLiteral_toString n) hn
  exact ⟨x, hx, Float.format_isInt hint hn⟩

/-- The text of the shortest digits denotes them.  It has more of them only in a whole
number. -/
theorem Float.exists_text_eq_signed (x : Finite Format.binary64) :
    ∃ whole fraction, IsDigits whole ∧ (∀ c ∈ fraction, c.isDigit = true) ∧
      Binary64.text (.finite x) = String.ofList (signed x.negative (whole ++ pointed fraction)) ∧
      (NumeralParts.value ⟨x.negative, whole, fraction, 0⟩).magnitude =
        (x.shortestNumeral 17).magnitude ∧
      (fraction = [] ∨ digitsValue (whole ++ fraction) ≤ (x.shortestNumeral 17).coefficient) := by
  obtain ⟨whole, fraction, hplain, hw, hf, hvalue, hmore⟩ :=
    plainMagnitude_denotes (x.shortestNumeral 17).coefficient (x.shortestNumeral 17).exponent
  refine ⟨whole, fraction, hw, hf, ?_, ?_, hmore⟩
  · rw [Binary64.text, Numeral.plain, hplain, x.shortestNumeral_negative]
    rfl
  · rw [NumeralParts.magnitude_value, zero_sub, hvalue]
    rfl

/-- The shortest digits are read as the number itself. -/
theorem Float.readLiteral_text (x : Finite Format.binary64) :
    IsLiteral true (Binary64.text (.finite x)) ∧
      float.readLiteral (Binary64.text (.finite x)) = .ok (.finite x) := by
  obtain ⟨whole, fraction, hw, hf, htext, hvalue, -⟩ := Float.exists_text_eq_signed x
  have hread : Binary64.ofNumeral (NumeralParts.value ⟨x.negative, whole, fraction, 0⟩) =
      .finite x := by
    rw [← x.ofNumeral_shortestNumeral 17]
    exact Format.binary64.ofNumeral_congr (x.shortestNumeral_negative 17).symm hvalue
  rw [htext]
  refine ⟨isLiteral_signed x.negative hw hf fun _ => rfl, ?_⟩
  unfold float
  dsimp only
  rw [readLiteral, Binary64.read?_signed x.negative hw hf, hread]
  rfl

/-- A number is printed as a whole number or in its shortest digits. -/
theorem Float.format_cases (x : Finite Format.binary64) :
    (∃ n : ℤ, n.natAbs ≤ 2 ^ 53 ∧ x.value = n ∧ Binary64.format (.finite x) = toString n) ∨
      Binary64.format (.finite x) = Binary64.text (.finite x) := by
  unfold Binary64.format
  dsimp only
  split_ifs with hzero hsmall
  · refine .inl ⟨0, by decide, ?_, rfl⟩
    rw [Int.cast_zero]
    exact Finite.value_eq_zero_iff.2 hzero
  · rw [Bool.and_eq_true, decide_eq_true_eq] at hsmall
    obtain ⟨n, hn⟩ := Finite.isIntegral_iff.1 hsmall.1
    have habs : x.abs.floor = n.natAbs := by
      refine Finite.floor_of_value ?_
      rw [Finite.value_eq, if_neg (by simp [Finite.abs])]
      exact (Finite.magnitude_of_value hn).trans (Int.cast_natCast _).symm
    have hlimit : x.abs.floor < 10 ^ Binary64.integerDigits := hsmall.2
    rw [habs, Binary64.integerDigits] at hlimit
    exact .inl ⟨n, by omega, hn, by rw [Finite.floor_of_value hn]⟩
  · exact .inr rfl

/-- The text of a finite number is a literal, and is read back. -/
theorem Float.format_readsBack {x : Binary64} (hx : x.isFinite = true) :
    IsLiteral true x.format ∧ float.ReadsBack x.format := by
  cases x with
  | nan => cases hx
  | infinite negative => cases hx
  | finite y =>
    rcases format_cases y with ⟨n, hn, -, hformat⟩ | hformat
    · rw [hformat]
      exact ⟨isLiteral_toString n true, readsBack_toString hn⟩
    · obtain ⟨hliteral, hread⟩ := readLiteral_text y
      rw [hformat]
      exact ⟨hliteral, .finite y, hread, hformat⟩

end NumberSystem

/-! ## Decimals -/

/-- The text has the notation `d.ddE±n` with this exponent. -/
def IsScientific (exponent : ℤ) (text : String) : Prop :=
  ∃ negative digits, IsDigits digits ∧
    text = String.ofList (signed negative (Decimal.scientific digits exponent))

theorem IsScientific.exists_signed {exponent : ℤ} {text : String}
    (h : IsScientific exponent text) :
    ∃ negative whole fraction, IsDigits whole ∧ (∀ c ∈ fraction, c.isDigit = true) ∧
      text.toList = signed negative (whole ++ (pointed fraction ++ exponentTail exponent)) := by
  obtain ⟨negative, digits, hdigits, rfl⟩ := h
  obtain ⟨c, cs, rfl, hc⟩ := hdigits.exists_cons
  refine ⟨negative, [c], cs, ⟨by simp, by simpa using hc⟩, (List.forall_mem_cons.1 hdigits.2).2, ?_⟩
  rw [String.toList_ofList, Decimal.scientific_cons]

/-- A text has one exponent. -/
theorem IsScientific.unique {e e' : ℤ} {text : String} (h : IsScientific e text)
    (h' : IsScientific e' text) : e = e' := by
  obtain ⟨negative, whole, fraction, hw, hf, htext⟩ := h.exists_signed
  obtain ⟨negative', whole', fraction', hw', hf', htext'⟩ := h'.exists_signed
  have hscan := scanParts?_signed negative hw hf (stops_exponentTail e)
  have hscan' := scanParts?_signed negative' hw' hf' (stops_exponentTail e')
  rw [← htext] at hscan
  rw [← htext', hscan, scanExponent_exponentTail, scanExponent_exponentTail] at hscan'
  simp only [Option.some.injEq, Prod.mk.injEq, NumeralParts.mk.injEq] at hscan'
  exact hscan'.1.2.2.2

/-- A literal has no exponent. -/
theorem IsLiteral.not_isScientific {decimals : Bool} {text : String} (h : IsLiteral decimals text)
    (e : ℤ) : ¬IsScientific e text := by
  intro hscientific
  obtain ⟨negative, whole, fraction, hw, hf, -, htext⟩ := h.exists_signed
  obtain ⟨negative', whole', fraction', -, -, htext'⟩ := hscientific.exists_signed
  have hmark : 'E' ∈ text.toList := by
    rw [htext', signed]
    split_ifs <;> simp [exponentTail]
  have hdigit : 'E'.isDigit = false := rfl
  have hwhole : 'E' ∉ whole := fun hmem => by simpa [hdigit] using hw.2 _ hmem
  have hfraction : 'E' ∉ fraction := fun hmem => by simpa [hdigit] using hf _ hmem
  rw [htext, String.toList_ofList, signed, pointed] at hmark
  split_ifs at hmark <;> simp [hwhole, hfraction] at hmark

namespace Decimal

/-- A text in plain notation is a literal. -/
theorem isLiteral_layout {digits : List Char} (h : Leading digits) {point : ℤ} (negative : Bool)
    {count : ℕ} (hplain : isPlain point count = true) :
    IsLiteral true (String.ofList (layout digits point negative count)) := by
  obtain ⟨whole, fraction, htext, hw, hf, -, -⟩ := layout_plain h negative hplain
  rw [htext]
  exact isLiteral_signed negative hw hf fun _ => rfl

/-- The other notation has the exponent of the first digit. -/
theorem isScientific_layout {digits : List Char} (h : Leading digits) {point : ℤ} (negative : Bool)
    {count : ℕ} (hplain : isPlain point count = false) :
    IsScientific (point - 1) (String.ofList (layout digits point negative count)) := by
  refine ⟨negative, digits, h.isDigits, ?_⟩
  unfold layout
  rw [hplain]
  rfl

end Decimal

namespace NumberSystem.Decimal

open Abacus.Decimal

/-- Places in front of the point and behind it that the format has room for. -/
def places : ℤ :=
  640000000

/-- A magnitude with its first digit hardly outside of these places is well within the range of
the format. -/
theorem inRange_of_places {v : ℚ} (hlow : 10 ^ (-places - 1) ≤ v) (hhigh : v < 10 ^ (places + 1)) :
    2 ^ (Format.decimal.minExponent + Format.decimal.precision) ≤ v ∧
      2 * v < 2 ^ Format.decimal.maxExponent := by
  have hmin : Format.decimal.minExponent + Format.decimal.precision = -0x80000000 := rfl
  have hmax : Format.decimal.maxExponent = 0x7ffffffe + 1 := rfl
  have hplaces : places = 640000000 := rfl
  constructor
  · rw [hmin]
    exact (two_zpow_le_ten_zpow (by omega) (by omega)).trans hlow
  · have hten : (10 : ℚ) ^ (places + 1) ≤ 2 ^ (0x7ffffffe : ℤ) :=
      ten_zpow_le_two_zpow (by omega) (by omega)
    rw [hmax, two_zpow_add, zpow_one, mul_comm]
    exact mul_lt_mul_of_pos_right (hhigh.trans_le hten) two_pos

/-- With a point in the range of printed exponents, a magnitude is well within the
range of the format. -/
theorem positional_inRange {digits : List Char} (h : Leading digits) {point : ℤ}
    (hpoint : (point - 1).natAbs ≤ 640000000) :
    2 ^ (Format.decimal.minExponent + Format.decimal.precision) ≤ positional digits point ∧
      2 * positional digits point < 2 ^ Format.decimal.maxExponent := by
  have hplaces : places = 640000000 := rfl
  have hlog := h.log_positional point
  have hlow := ten_zpow_log_le (h.positional_pos point)
  have hhigh := lt_ten_zpow_log (positional digits point)
  rw [hlog] at hhigh
  rw [eq_sub_of_add_eq hlog] at hlow
  exact inRange_of_places ((ten_zpow_le_ten_zpow (by omega)).trans hlow)
    (hhigh.trans_le (ten_zpow_le_ten_zpow (by omega)))

/-- Digits are read as a number close enough to what they denote that it is
printed with the same digits.  There may be any number of them, if no power of ten is
left. -/
theorem render_ofParts {negative : Bool} {whole fraction digits : List Char} {exponent point : ℤ}
    (h : Trimmed digits) (hlength : digits.length ≤ Decimal.digits)
    (hvalue : digitsValue (whole ++ fraction) * 10 ^ (exponent - fraction.length) =
      positional digits point)
    (hcoefficient : digitsValue (whole ++ fraction) < 10 ^ Decimal.digits ∨
      exponent = fraction.length)
    (hexponent : exponent ≤ Format.decimal.maxExponent)
    (hpoint : (point - 1).natAbs ≤ 640000000) :
    ∃ y, ofParts ⟨negative, whole, fraction, exponent⟩ = .finite y ∧
      render (.finite y) = String.ofList (layout digits point negative Decimal.digits) := by
  have hpos := h.positional_pos point
  obtain ⟨hlow, hhigh⟩ := positional_inRange h.toLeading hpoint
  have hread : (NumeralParts.value ⟨negative, whole, fraction, exponent⟩).coefficient <
      2 ^ Format.decimal.precision ∨
      (NumeralParts.value ⟨negative, whole, fraction, exponent⟩).exponent.natAbs ≤
        Bracket.largestExponent := by
    rcases hcoefficient with hfew | heq
    · left
      refine hfew.trans_le ?_
      change 10 ^ 50 ≤ 2 ^ 256
      norm_num
    · right
      change (exponent - fraction.length).natAbs ≤ _
      rw [sub_eq_zero.2 heq]
      exact Nat.zero_le _
  have hmagnitude : (NumeralParts.value ⟨negative, whole, fraction, exponent⟩).magnitude =
      positional digits point := by
    rw [NumeralParts.magnitude_value, hvalue]
  obtain ⟨u, hclose, -, hfinite⟩ := Format.decimal.readsNumerals.of_inRange hread
    (hmagnitude ▸ hlow) (hmagnitude ▸ hhigh)
  obtain ⟨y, hy, hnegative, rfl⟩ := hfinite negative
  rw [hmagnitude] at hclose
  set r := positional digits point with hr
  have hnear : (2 : ℚ) / 2 ^ Format.decimal.precision ≤ 2 / 5 / 10 ^ Decimal.digits := by
    change (2 : ℚ) / 2 ^ 256 ≤ 2 / 5 / 10 ^ 50
    norm_num
  have hclose' := hclose.trans (mul_le_mul_of_nonneg_left hnear hpos.le)
  have hbare : ¬NumeralParts.isBare ⟨negative, whole, fraction, exponent⟩ = true := by
    intro hbare
    rw [Numeral.magnitude_of_coefficient_eq_zero (coefficient_of_isBare hbare)] at hmagnitude
    exact hpos.ne hmagnitude
  refine ⟨y, ?_, ?_⟩
  · rw [ofParts, if_neg hbare, if_neg hexponent.not_gt]
    exact hy
  · rw [render_of_close h hlength hclose', hnegative]

/-- A text of digits is read back, if its parts denote what it was laid out for. -/
theorem readsBack_of_read {negative : Bool} {whole fraction digits : List Char}
    {exponent point : ℤ}
    (hread : Decimal.read (String.ofList (layout digits point negative Decimal.digits)) =
      ofParts ⟨negative, whole, fraction, exponent⟩)
    (h : Trimmed digits) (hlength : digits.length ≤ Decimal.digits)
    (hvalue : digitsValue (whole ++ fraction) * 10 ^ (exponent - fraction.length) =
      positional digits point)
    (hcoefficient : digitsValue (whole ++ fraction) < 10 ^ Decimal.digits)
    (hexponent : exponent ≤ Format.decimal.maxExponent)
    (hpoint : (point - 1).natAbs ≤ 640000000) :
    decimal.ReadsBack (String.ofList (layout digits point negative Decimal.digits)) := by
  obtain ⟨y, hy, hrender⟩ := render_ofParts h hlength hvalue (.inl hcoefficient) hexponent hpoint
  refine ⟨.finite y, ?_, hrender⟩
  unfold decimal
  dsimp only
  rw [readLiteral, hread, hy]
  rfl

theorem readsBack_plain {digits : List Char} {point : ℤ} (h : Trimmed digits)
    (hlength : digits.length ≤ Decimal.digits) (negative : Bool)
    (hplain : isPlain point Decimal.digits = true) :
    IsLiteral true (String.ofList (layout digits point negative Decimal.digits)) ∧
      decimal.ReadsBack (String.ofList (layout digits point negative Decimal.digits)) := by
  obtain ⟨whole, fraction, htext, hw, hf, hlt, hvalue⟩ :=
    layout_plain h.toLeading negative hplain
  rw [max_eq_left hlength] at hlt
  have hpoint : -10 < point ∧ point ≤ 50 := by
    rw [isPlain, Bool.and_eq_true, decide_eq_true_eq, decide_eq_true_eq] at hplain
    exact hplain
  refine ⟨isLiteral_layout h.toLeading negative hplain, ?_⟩
  have hread := Decimal.read_signed negative hw hf (stops_nil _)
  rw [List.append_nil, ← htext] at hread
  refine readsBack_of_read hread h hlength ?_ hlt (by decide) (by omega)
  rw [← hvalue, scanExponent_nil, zero_sub]

theorem readsBack_scientific {digits : List Char} {point : ℤ} (h : Trimmed digits)
    (hlength : digits.length ≤ Decimal.digits) (negative : Bool)
    (hplain : isPlain point Decimal.digits = false) :
    IsScientific (point - 1) (String.ofList (layout digits point negative Decimal.digits)) ∧
      ((point - 1).natAbs ≤ 640000000 →
        decimal.ReadsBack (String.ofList (layout digits point negative Decimal.digits))) := by
  refine ⟨isScientific_layout h.toLeading negative hplain, fun hpoint => ?_⟩
  obtain ⟨whole, fraction, htext, hw, hf, hall, hvalue⟩ :=
    layout_scientific h.toLeading negative hplain
  have hread := Decimal.read_signed negative hw hf (stops_exponentTail (point - 1))
  rw [scanExponent_exponentTail, ← htext] at hread
  have hmax : Format.decimal.maxExponent = 0x7fffffff := rfl
  refine readsBack_of_read hread h hlength ?_ ?_ (by omega) hpoint
  · rw [hall, hvalue]
  · rw [hall]
    exact (digitsValue_lt h.isDigits.2).trans_le (Nat.pow_le_pow_right (by norm_num) hlength)

theorem readsBack_toString {n : ℤ} (hn : n.natAbs < 10 ^ 50) : decimal.ReadsBack (toString n) := by
  obtain ⟨x, hx, hint⟩ := readLiteral_isInt (isLiteral_toString n false)
    (Integer.readLiteral_toString n) (by omega)
  exact ⟨x, hx, render_isInt hint hn⟩

/-- The text of a finite number is a literal, or has an exponent; unless that is
beyond the range, it is read back. -/
theorem render_readsBack {x : Decimal} (hx : x.isFinite = true) :
    (IsLiteral true (render x) ∧ decimal.ReadsBack (render x)) ∨
      ∃ e, IsScientific e (render x) ∧
        (e.natAbs ≤ 640000000 → decimal.ReadsBack (render x)) := by
  cases x with
  | nan => cases hx
  | infinite negative => cases hx
  | finite y =>
    cases hzero : y.isZero with
    | true =>
      rw [render_of_isZero hzero]
      exact .inl ⟨isLiteral_toString 0 true, readsBack_toString (by decide)⟩
    | false =>
      obtain ⟨-, digits, point, hfinite, -, htrimmed, hlength, -⟩ :=
        renderFinite?_spec hasSmallExponents_decimal hzero (by decide : 0 < Decimal.digits)
          (by decide)
      rw [render_of_renderFinite? hzero hfinite]
      cases hplain : isPlain point Decimal.digits with
      | true => exact .inl (readsBack_plain htrimmed hlength y.negative hplain)
      | false => exact .inr ⟨_, readsBack_scientific htrimmed hlength y.negative hplain⟩

end NumberSystem.Decimal

/-! ## Fixed points -/

theorem Calculator.evaluate_of_readsBack {mode : Mode} {text : String}
    (hliteral : IsLiteral mode.system.capabilities.decimals text)
    (h : mode.system.ReadsBack text) (environment : Environment) :
    (evaluate mode environment text).value = .ok text := by
  obtain ⟨x, hx, hrender⟩ := h
  exact evaluate_eq_ok_iff.2 ⟨x, evaluateIn_literal hliteral hx environment, hrender⟩

/-- The text of a result is a literal outside of decimals, and a literal or one
with an exponent in them.  A literal has itself as its result, whatever the
variables are.  A text with an exponent is read as a number that is printed as
it, as far as exponents are in range. -/
theorem printed_results_are_fixed {mode : Mode} {environment : Environment} {line text : String}
    (h : (Calculator.evaluate mode environment line).value = .ok text) :
    (mode ≠ .decimal → IsLiteral mode.system.capabilities.decimals text) ∧
    (IsLiteral mode.system.capabilities.decimals text → ∀ environment' : Environment,
      (Calculator.evaluate mode environment' text).value = .ok text) ∧
    (mode = .decimal → (IsLiteral true text ∨ ∃ e, IsScientific e text) ∧
      ∀ e, IsScientific e text → e.natAbs ≤ 640000000 → NumberSystem.decimal.ReadsBack text) := by
  obtain ⟨x, hx, rfl⟩ := Calculator.evaluate_eq_ok_iff.1 h
  cases mode with
  | float =>
    obtain ⟨hliteral, hread⟩ :=
      NumberSystem.Float.format_readsBack (NumberSystem.preserves_float.evaluateIn hx)
    exact ⟨fun _ => hliteral, fun _ => Calculator.evaluate_of_readsBack hliteral hread, nofun⟩
  | integer =>
    have hliteral := NumberSystem.isLiteral_toString x false
    have hread := NumberSystem.Integer.readsBack x
    exact ⟨fun _ => hliteral, fun _ => Calculator.evaluate_of_readsBack hliteral hread, nofun⟩
  | decimal =>
    have hcases := NumberSystem.Decimal.render_readsBack
      (NumberSystem.preserves_decimal.evaluateIn hx)
    refine ⟨fun hmode => absurd rfl hmode, fun hliteral => ?_, fun _ => ⟨?_, fun e he hrange => ?_⟩⟩
    · rcases hcases with ⟨-, hread⟩ | ⟨e, he, -⟩
      · exact Calculator.evaluate_of_readsBack hliteral hread
      · exact absurd he (hliteral.not_isScientific e)
    · exact hcases.imp And.left fun ⟨e, he, _⟩ => ⟨e, he⟩
    · rcases hcases with ⟨hliteral, -⟩ | ⟨e', he', hread⟩
      · exact absurd he (hliteral.not_isScientific e)
      · obtain rfl := he.unique he'
        exact hread hrange

/-- An eighth is printed as a literal, and a large power with an exponent. -/
theorem printed_results_are_fixed_eighth :
    ((Calculator.evaluate .decimal (fun _ => none) "-1 / 8").value = .ok "-0.125" ∧
      (Calculator.evaluate .decimal (fun _ => none) "-0.125").value = .ok "-0.125") ∧
    ((Calculator.evaluate .decimal (fun _ => none) "10 ^ 60 / 8").value = .ok "1.25E+59" ∧
      NumberSystem.decimal.ReadsBack "1.25E+59") := by
  have heighth : (Calculator.evaluate .decimal (fun _ => none) "-1 / 8").value = .ok "-0.125" := by
    decide +kernel
  have hlarge : (Calculator.evaluate .decimal (fun _ => none) "10 ^ 60 / 8").value =
      .ok "1.25E+59" := by
    decide +kernel
  have hliteral : IsLiteral true "-0.125" := by
    have hwhole : IsDigits ['0'] := ⟨by decide, by simp⟩
    have hfraction : ∀ c ∈ ['1', '2', '5'], c.isDigit = true := by simp [Char.isDigit]
    have htext : "-0.125" = String.ofList (signed true (['0'] ++ pointed ['1', '2', '5'])) := by
      decide +kernel
    rw [htext]
    exact isLiteral_signed true hwhole hfraction fun _ => rfl
  have hscientific : IsScientific 59 "1.25E+59" :=
    ⟨false, ['1', '2', '5'], ⟨by decide, by simp [Char.isDigit]⟩, by decide +kernel⟩
  obtain ⟨-, hfixed, -⟩ := printed_results_are_fixed heighth
  obtain ⟨-, -, hread⟩ := printed_results_are_fixed hlarge
  have hfirst := hfixed hliteral (fun _ => none)
  have hsecond := (hread rfl).2 59 hscientific (by decide)
  exact ⟨⟨heighth, hfirst⟩, hlarge, hsecond⟩

end Abacus
