/-
Abacus.Proofs.NumberSystem.Forms — when a decimal is printed with an exponent.

A number fits plain notation if it is not too large for the digits that are asked
for and does not start with too many zeros (`PlainFits`); any other is to have an
exponent (`FormFits`).  What is printed decides, not the number that it was rounded
from, so a carry can move a text from one form to the other.  Every text has the
form that a limit of nine zeros asks for (`form_follows_magnitude`).  With the ten
zeros of `plainZeros` the tenth would still be written out, which it is not
(`not_formFits_ten_zeros`).
-/
import Abacus.Proofs.NumberSystem.Printing

namespace Abacus.Decimal

/-! ## The rule -/

/-- Written out, the magnitude has this many zeros between the point and its first digit. -/
def HasZeros (k : ℕ) (r : ℚ) : Prop :=
  ∃ digits, Leading digits ∧ r = positional digits (-(k : ℤ))

/-- The magnitude is below `10 ^ count` and starts with at most so many zeros behind the
point; from one on it has none there. -/
def PlainFits (most count : ℕ) (r : ℚ) : Prop :=
  r < 10 ^ count ∧ ∀ k, HasZeros k r → k ≤ most

/-- The text is written out exactly when the number that it denotes fits, and otherwise it is
`d.ddE±n` with the exponent of the first digit. -/
def FormFits (most count : ℕ) (text : String) : Prop :=
  ∃ n, Numeral.read? text.toList = some n ∧
    (IsLiteral true text ↔ PlainFits most count |n.value|) ∧
    (¬PlainFits most count |n.value| → IsScientific (Int.log 10 |n.value|) text)

/-! ## Digits and their place -/

section Place

variable {digits : List Char} (h : Leading digits) (point : ℤ)
include h

theorem hasZeros_positional_iff (k : ℕ) : HasZeros k (positional digits point) ↔ point = -k := by
  constructor
  · rintro ⟨others, hothers, hvalue⟩
    rw [← h.log_positional point, hvalue, hothers.log_positional]
  · rintro rfl
    exact ⟨digits, h, rfl⟩

theorem positional_lt_iff (count : ℕ) : positional digits point < 10 ^ count ↔ point ≤ count := by
  have hlog := h.log_positional point
  have hlt := Int.lt_zpow_iff_log_lt (R := ℚ) (b := 10) (by norm_num) (x := count)
    (h.positional_pos point)
  rw [zpow_natCast, Nat.cast_ofNat] at hlt
  rw [hlt]
  omega

theorem plainFits_positional_iff (most count : ℕ) :
    PlainFits most count (positional digits point) ↔ -(most : ℤ) ≤ point ∧ point ≤ count := by
  rw [PlainFits, positional_lt_iff h]
  simp only [hasZeros_positional_iff h]
  constructor
  · rintro ⟨hle, hzeros⟩
    have hmost := hzeros (-point).toNat
    omega
  · rintro ⟨hge, hle⟩
    exact ⟨hle, fun k hk => by omega⟩

end Place

theorem isPlain_iff (point : ℤ) (count : ℕ) :
    isPlain point count = true ↔ -((plainZeros - 1 : ℕ) : ℤ) ≤ point ∧ point ≤ count := by
  rw [isPlain, plainZeros, Bool.and_eq_true, decide_eq_true_eq, decide_eq_true_eq]
  omega

/-! ## Forms of texts -/

/-- Digits are laid out in the form that fits the number they stand for. -/
theorem formFits_layout {digits : List Char} (h : Leading digits) (point : ℤ) (negative : Bool)
    (count : ℕ) :
    FormFits (plainZeros - 1) count (String.ofList (layout digits point negative count)) := by
  obtain ⟨n, hread, -, hmagnitude⟩ := read?_layout h point negative count
  refine ⟨n, by rwa [String.toList_ofList], ?_⟩
  rw [n.abs_value, hmagnitude, plainFits_positional_iff h, ← isPlain_iff]
  cases hplain : isPlain point count with
  | true =>
    exact ⟨iff_of_true (isLiteral_layout h negative hplain) rfl, fun hne => absurd rfl hne⟩
  | false =>
    have hscientific := isScientific_layout h negative hplain
    have hlog : Int.log 10 (positional digits point) = point - 1 := by
      have := h.log_positional point
      omega
    rw [hlog]
    exact ⟨iff_of_false (fun hl => hl.not_isScientific _ hscientific) Bool.false_ne_true,
      fun _ => hscientific⟩

/-- Zero has no first digit, and fits. -/
theorem formFits_zero (most count : ℕ) : FormFits most count "0" := by
  have hread : Numeral.read? "0".toList = some ⟨false, 0, 0⟩ := by decide +kernel
  have hvalue : Numeral.value ⟨false, 0, 0⟩ = 0 := by
    norm_num [Numeral.value, Numeral.magnitude]
  have hfits : PlainFits most count 0 := by
    refine ⟨by positivity, ?_⟩
    rintro k ⟨digits, hdigits, hzero⟩
    exact absurd hzero (hdigits.positional_pos _).ne
  refine ⟨_, hread, ?_⟩
  rw [hvalue, abs_zero]
  exact ⟨iff_of_true (NumberSystem.isLiteral_toString 0 true) hfits, fun hne => absurd hfits hne⟩

/-! ## What is printed

Whatever the count of digits: a text is that of zero, or of digits with a place. -/

theorem prepare?_pos {f : Format} {x : Finite f} (hx : x.isZero = false) {count m : ℕ}
    {e power : ℤ} (h : prepare? x count = some ((m, e), power)) : 0 < m := by
  have hitself (h : ((x.mantissa, x.exponent), (0 : ℤ)) = ((m, e), power)) : 0 < m := by
    cases h
    exact Finite.mantissa_pos hx
  unfold prepare? at h
  dsimp only at h
  split_ifs at h
  · simp only [Option.bind_eq_bind, Option.bind_eq_some_iff] at h
    obtain ⟨wanted, -, bits, -, precision, -, h⟩ := h
    cases hscale : scaleDown? x (estimate x.binaryExponent logTenOfTwo).floor wanted precision with
    | none =>
      rw [hscale] at h
      exact hitself (Option.some.inj h)
    | some answer =>
      rw [hscale] at h
      obtain rfl : answer = ((m, e), power) := Option.some.inj h
      obtain ⟨_, _, y, -, hy, -, -, rfl, -, -⟩ := exists_of_scaleDown? hscale
      exact Finite.mantissa_pos hy
  · exact hitself (Option.some.inj h)

theorem digitText?_leading {m count : ℕ} {e point : ℤ} {digits : List Char} (hm : 0 < m)
    (h : digitText? m e count = some (digits, point)) : digits = [] ∨ Leading digits := by
  unfold digitText? at h
  split_ifs at h
  · refine .inr ?_
    simp only [Option.some.injEq, Prod.mk.injEq] at h
    rw [← h.1]
    exact leading_digitChars (by rw [Nat.shiftLeft_eq]; positivity)
  · simp only [Option.bind_eq_bind, Option.bind_eq_some_iff, Option.pure_def, Option.some.injEq,
      Prod.mk.injEq] at h
    obtain ⟨places, -, point', -, rfl, -⟩ := h
    split_ifs with hzero
    · exact .inl rfl
    · exact .inr (leading_digitChars (Nat.pos_iff_ne_zero.2 hzero))

theorem layout_of_layout? {digits : List Char} {point : ℤ} {negative : Bool} {count : ℕ}
    {text : List Char} (h : layout? digits point negative count = some text) :
    layout digits point negative (comparable count) = text := by
  unfold layout? at h
  split_ifs at h
  · exact Option.some.inj h
  · obtain ⟨_, -, htext⟩ := Option.map_eq_some_iff.1 h
    exact htext

/-- A text is that of zero, or of digits with a place. -/
theorem exists_layout {f : Format} {x : Finite f} (hx : x.isZero = false) {count : ℕ}
    (hcount : 0 < count) {text : String} (h : renderFinite? x count = some text) :
    text = "0" ∨ ∃ digits point, Trimmed digits ∧
      text = String.ofList (layout digits point x.negative (comparable count)) := by
  simp only [renderFinite?, Option.bind_eq_bind, Option.bind_eq_some_iff, Prod.exists] at h
  obtain ⟨m, e, power, hprepare, digits, point, hdigits, h⟩ := h
  split_ifs at h with hempty
  · exact .inl (Option.some.inj h).symm
  · simp only [Option.bind_eq_some_iff, Prod.exists, Option.pure_def, Option.some.injEq] at h
    obtain ⟨rounded, place, hround, cs, hlayout, rfl⟩ := h
    have hleading : Leading digits :=
      (digitText?_leading (prepare?_pos hx hprepare) hdigits).resolve_left
        fun hnil => hempty (by rw [hnil]; rfl)
    have htrimmed := (roundDigits_spec hleading (point + power) hcount).1
    rw [(roundDigits?_eq_some_iff.1 hround).1] at htrimmed
    exact .inr ⟨rounded, place, htrimmed, by rw [layout_of_layout? hlayout]⟩

/-- The form of every text follows from the number that it denotes and the digits that were asked
for, with a limit of nine zeros, however long the mantissa is.  (A count of `2 ^ 63` digits or
more is compared as none.)  There is a text for every number of digits that can be asked for in
practice. -/
theorem form_follows_magnitude {precision : ℕ} {hp : 0 < precision}
    (x : Finite (Format.wide precision hp)) (hx : x.isZero = false) {count : ℕ}
    (hcount : 0 < count) :
    (∀ text, (Floating.finite x).render? count = some text →
      FormFits (plainZeros - 1) (comparable count) text) ∧
    (precision ≤ longestPrecision → count < 2 ^ 31 →
      ∃ text, (Floating.finite x).render? count = some text) := by
  rw [render?_of_isZero_eq_false hx]
  constructor
  · intro text htext
    rcases exists_layout hx hcount htext with rfl | ⟨digits, point, htrimmed, rfl⟩
    · exact formFits_zero _ _
    · exact formFits_layout htrimmed.toLeading point x.negative (comparable count)
  · intro hlong hcount'
    obtain ⟨w, digits, point, htext, -⟩ :=
      renderFinite?_spec (hasSmallExponents_wide hlong) hx hcount hcount'
    exact ⟨_, htext⟩

/-- In two digits 99.75 is rounded to one hundred, which is too large for them. -/
theorem form_follows_magnitude_carry :
    let x : Finite Format.decimal := ⟨false, 399 * 2 ^ 247, -249, by decide +kernel⟩
    (Floating.finite x).render? 2 = some "1E+2" ∧ FormFits (plainZeros - 1) 2 "1E+2" := by
  intro x
  have htext : (Floating.finite x).render? 2 = some "1E+2" := by decide +kernel
  exact ⟨htext, (form_follows_magnitude x (by decide +kernel) two_pos).1 _ htext⟩

/-- The tenth zero behind the point is not written out. -/
theorem not_formFits_ten_zeros :
    ¬ ∀ (x : Finite Format.decimal) (count : ℕ), x.isZero = false → 0 < count →
      ∀ text, (Floating.finite x).render? count = some text → FormFits plainZeros count text := by
  intro h
  set x : Finite Format.decimal :=
    ⟨false, 79571717825565862744861159703491334416072984127575634790474236302905519522005, -292,
      by decide +kernel⟩
  have htext : (Floating.finite x).render? 50 = some "1E-11" := by decide +kernel
  obtain ⟨n, hread, hform, -⟩ := h x 50 (by decide +kernel) (by decide) _ htext
  have hone : Numeral.read? "1E-11".toList = some ⟨false, 1, -11⟩ := by decide +kernel
  obtain rfl := Option.some.inj (hone.symm.trans hread)
  have hleading : Leading ['1'] := ⟨⟨by simp, by simp⟩, by decide⟩
  have hdigit : digitsValue ['1'] = 1 := digitsValue_singleton '1'
  have hvalue : |Numeral.value ⟨false, 1, -11⟩| = positional ['1'] (-10) := by
    rw [Numeral.abs_value, Numeral.magnitude, positional, hdigit]
    norm_num
  have hfits : PlainFits plainZeros 50 |Numeral.value ⟨false, 1, -11⟩| := by
    rw [hvalue, plainFits_positional_iff hleading]
    decide
  have hscientific : IsScientific (-11) "1E-11" :=
    ⟨false, ['1'], hleading.isDigits, by decide +kernel⟩
  exact (hform.2 hfits).not_isScientific _ hscientific

end Abacus.Decimal
