/-
Abacus.Proofs.Decimal.Canonical — every number has one form in print.

A text is canonical if it has no zeros that could be left out, no point
without digits after it, no exponent of zero and no more significant digits
than were asked for (`Canonical`).  Digits without zeros at their ends are laid
out canonically (`canonical_layout`), and those of a nonzero number are never
rounded away, so each number is printed canonically (`prints_canonically`).
Counts from about `2 ^ 32` digits on are an exception: the power of ten that
the digits are taken with is then reduced, and the digits are lost.
-/
import Abacus.Proofs.Decimal.Rendering
import Abacus.Proofs.Floating.Closest

namespace Abacus.Decimal

/-! ## Canonical texts -/

/-- The digits from the first one that is not zero on. -/
def significant (digits : List Char) : List Char :=
  digits.dropWhile (· = '0')

/-- The text of a positive magnitude, in plain notation or with an exponent,
without a character too many. -/
inductive Canonical (count : ℕ) : List Char → Prop where
  | plain {whole fraction : List Char} (isDigits : IsDigits whole)
      (fraction_isDigit : ∀ c ∈ fraction, c.isDigit = true)
      (whole_head : whole = ['0'] ∨ whole.head? ≠ some '0')
      (fraction_last : fraction.getLast? ≠ some '0')
      (nonzero : significant (whole ++ fraction) ≠ [])
      (few : (significant (whole ++ fraction)).length ≤ count) :
      Canonical count (whole ++ pointed fraction)
  | scientific {first : Char} {fraction : List Char} {exponent : ℤ}
      (isDigit : first.isDigit = true) (nonzero : first ≠ '0')
      (fraction_isDigit : ∀ c ∈ fraction, c.isDigit = true)
      (fraction_last : fraction.getLast? ≠ some '0')
      (few : fraction.length + 1 ≤ count) (exponent_ne : exponent ≠ 0) :
      Canonical count (first :: (pointed fraction ++ exponentTail exponent))

namespace Canonical

variable {count : ℕ} {body : List Char}

/-- A canonical text begins with a digit. -/
theorem exists_cons (h : Canonical count body) :
    ∃ c rest, body = c :: rest ∧ c.isDigit = true := by
  cases h with
  | plain hdigits =>
    obtain ⟨c, rest, rfl, hc⟩ := hdigits.exists_cons
    exact ⟨c, _, rfl, hc⟩
  | scientific hdigit => exact ⟨_, _, rfl, hdigit⟩

/-- Zero is not among them. -/
theorem ne_zero (h : Canonical count body) : body ≠ ['0'] := by
  cases h with
  | @plain whole fraction hdigits _ _ _ hnonzero =>
    intro hzero
    obtain ⟨c, rest, rfl, -⟩ := hdigits.exists_cons
    rw [List.cons_append, List.cons.injEq, List.append_eq_nil_iff] at hzero
    obtain ⟨rfl, rfl, hfraction⟩ := hzero
    rcases eq_or_ne fraction [] with rfl | hne
    · exact hnonzero rfl
    · rw [pointed_of_ne_nil hne] at hfraction
      cases hfraction
  | scientific _ hnonzero =>
    intro hzero
    exact hnonzero (List.cons.inj hzero).1

/-- Only the sign in front can be a minus. -/
theorem head?_signed (h : Canonical count body) (negative : Bool) :
    (signed negative body).head? = some '-' ↔ negative = true := by
  obtain ⟨c, rest, rfl, hc⟩ := h.exists_cons
  cases negative with
  | true => exact iff_of_true rfl rfl
  | false =>
    refine iff_of_false (fun hhead => ?_) Bool.false_ne_true
    exact ne_of_isDigit hc (by decide : '-'.isDigit = false) (Option.some.inj hhead)

theorem signed_ne_zero (h : Canonical count body) (negative : Bool) :
    signed negative body ≠ ['0'] := by
  cases negative with
  | true => exact fun hzero => absurd (List.cons.inj hzero).1 (by decide)
  | false => exact h.ne_zero

end Canonical

/-- The text of a number without a character too many: `0`, or a canonical one
behind a sign. -/
def IsCanonical (count : ℕ) (text : String) : Prop :=
  text = "0" ∨ ∃ negative body, text.toList = signed negative body ∧ Canonical count body

/-! ## Layouts are canonical -/

theorem significant_of_head {digits : List Char} (h : digits.head? ≠ some '0') :
    significant digits = digits := by
  cases digits with
  | nil => rfl
  | cons c rest =>
    unfold significant
    rw [List.dropWhile_cons_of_neg]
    simpa using h

section Layout

variable {digits : List Char} (h : Trimmed digits) {count : ℕ} (hlength : digits.length ≤ count)
include h

/-- Zeros in front are not significant. -/
theorem significant_zeros_append (k : ℕ) : significant (zeros k ++ digits) = digits := by
  induction k with
  | zero => exact significant_of_head h.head
  | succ k ih =>
    rw [zeros, List.replicate_succ, List.cons_append]
    unfold significant
    rw [List.dropWhile_cons_of_pos (by decide)]
    exact ih

theorem getLast?_drop {k : ℕ} (hk : k < digits.length) :
    (digits.drop k).getLast? ≠ some '0' := by
  rw [List.getLast?_drop, if_neg (by omega)]
  exact h.last

include hlength

theorem canonical_pointAfter {places : ℕ} (hpos : 0 < places) (hplaces : places ≤ count) :
    Canonical count (pointAfter places digits) := by
  obtain ⟨hne, hdigits⟩ := h.isDigits
  have hhead := h.head
  unfold pointAfter
  split_ifs with hle
  · -- zeros up to the point
    set whole := digits ++ zeros (places - digits.length) with hwhole
    have hlen : whole.length = places := by
      rw [hwhole, List.length_append, length_zeros]
      omega
    have hleading : whole.head? ≠ some '0' := by rwa [hwhole, List.head?_append_of_ne_nil _ hne]
    rw [← List.append_nil whole, ← pointed_nil]
    refine .plain ⟨by simp [hwhole, hne], ?_⟩ nofun (.inr hleading) nofun ?_ ?_
    · exact List.forall_mem_append.2 ⟨hdigits, fun _ => isDigit_of_mem_zeros⟩
    · rw [List.append_nil, significant_of_head hleading]
      exact List.ne_nil_of_length_pos (by omega)
    · rw [List.append_nil, significant_of_head hleading]
      omega
  · have hdrop : digits.drop places ≠ [] := by
      rw [Ne, List.drop_eq_nil_iff]
      exact hle
    have htake : digits.take places ≠ [] := by
      rw [Ne, List.take_eq_nil_iff]
      simp [hpos.ne', hne]
    rw [← pointed_of_ne_nil hdrop]
    refine .plain ⟨htake, fun c hc => hdigits c (List.mem_of_mem_take hc)⟩
      (fun c hc => hdigits c (List.mem_of_mem_drop hc)) (.inr ?_) (getLast?_drop h (by omega))
      ?_ ?_
    · rwa [List.head?_take, if_neg hpos.ne']
    · rwa [List.take_append_drop, significant_of_head hhead]
    · rwa [List.take_append_drop, significant_of_head hhead]

theorem canonical_fraction (k : ℕ) : Canonical count ('0' :: '.' :: (zeros k ++ digits)) := by
  obtain ⟨hne, hdigits⟩ := h.isDigits
  have hfraction : zeros k ++ digits ≠ [] := by simp [hne]
  have hsignificant : significant (['0'] ++ (zeros k ++ digits)) = digits := by
    rw [← List.append_assoc]
    exact significant_zeros_append h (k + 1)
  rw [show '0' :: '.' :: (zeros k ++ digits) = ['0'] ++ pointed (zeros k ++ digits) by
    rw [pointed_of_ne_nil hfraction]; rfl]
  refine .plain ⟨by simp, by simp⟩ ?_ (.inl rfl) ?_ ?_ ?_
  · exact List.forall_mem_append.2 ⟨fun _ => isDigit_of_mem_zeros, hdigits⟩
  · rw [List.getLast?_append_of_ne_nil _ hne]
    exact h.last
  · rwa [hsignificant]
  · rwa [hsignificant]

theorem canonical_scientific {exponent : ℤ} (he : exponent ≠ 0) :
    Canonical count (scientific digits exponent) := by
  obtain ⟨c, rest, rfl, hc⟩ := h.isDigits.exists_cons
  rw [scientific_cons]
  have hhead := h.head
  refine .scientific hc (by simpa using hhead) (List.forall_mem_cons.1 h.isDigits.2).2 ?_ hlength he
  rcases eq_or_ne rest [] with rfl | hne
  · nofun
  · have := h.last
    rwa [List.getLast?_cons_of_ne_nil hne] at this

/-- Digits without zeros at their ends are laid out canonically, whatever the
place of the point. -/
theorem canonical_layout (point : ℤ) (negative : Bool) :
    ∃ body, layout digits point negative count = signed negative body ∧ Canonical count body := by
  have hpos : 0 < digits.length := List.length_pos_iff.2 h.isDigits.1
  refine ⟨_, rfl, ?_⟩
  cases hplain : isPlain point count with
  | true =>
    rw [isPlain, Bool.and_eq_true, decide_eq_true_eq, decide_eq_true_eq] at hplain
    rw [if_neg (by decide)]
    split_ifs
    · exact canonical_pointAfter h hlength (by omega) (by omega)
    · exact canonical_fraction h hlength _
  | false =>
    rw [isPlain, Bool.and_eq_false_iff, decide_eq_false_iff_not, decide_eq_false_iff_not,
      plainZeros] at hplain
    rw [if_pos (by decide)]
    exact canonical_scientific h hlength (by omega)

end Layout

/-! ## Numbers are printed canonically -/

/-- A number has a text: `0` if it is zero, and otherwise a canonical one
behind its sign. -/
def PrintsCanonically {f : Format} (x : Finite f) (count : ℕ) : Prop :=
  ∃ text, (Floating.finite x).render? count = some text ∧ (text = "0" ↔ x.value = 0) ∧
    (text.toList.head? = some '-' ↔ x.value < 0) ∧
    (x.value ≠ 0 → ∃ body, text.toList = signed (decide (x.value < 0)) body ∧
      Canonical count body)

/-- Digits are found for a number, and rounding leaves some of them. -/
def TakesDigits {f : Format} (x : Finite f) (count : ℕ) : Prop :=
  ∃ m e power digits point, prepare? x count = some ((m, e), power) ∧
    digitText? m e count = some (digits, point) ∧ digits ≠ [] ∧
    (roundDigits digits (point + power) count).1 ≠ []

theorem takesDigits {f : Format} (hf : f.HasSmallExponents) {x : Finite f}
    (hx : x.isZero = false) {count : ℕ} (hcount : 0 < count) (hcount' : count < 2 ^ 31) :
    TakesDigits x count := by
  obtain ⟨m, e, power, hprepare, hm, hlow, hhigh, -⟩ := prepare?_spec hf hx hcount'
  obtain ⟨digits, point, htext, hleading, -⟩ := digitText?_spec hm hlow hhigh hcount'
  obtain ⟨htrimmed, -, -⟩ := roundDigits_spec hleading (point + power) hcount
  exact ⟨m, e, power, digits, point, hprepare, htext, hleading.isDigits.1, htrimmed.isDigits.1⟩

/-- Every finite number, however long its mantissa is, is printed canonically in any number of
digits that can be asked for in practice. -/
theorem prints_canonically {precision : ℕ} {hp : 0 < precision}
    (hlong : precision ≤ longestPrecision) (x : Finite (Format.wide precision hp)) {count : ℕ}
    (hcount : 0 < count) (hcount' : count < 2 ^ 31) :
    PrintsCanonically x count ∧ (x.value ≠ 0 → TakesDigits x count) := by
  cases hx : x.isZero with
  | true =>
    have hvalue : x.value = 0 := Finite.value_eq_zero_iff.2 hx
    refine ⟨⟨"0", render?_of_isZero hx count, iff_of_true rfl hvalue, ?_, fun h => absurd hvalue h⟩,
      fun h => absurd hvalue h⟩
    rw [hvalue]
    exact iff_of_false (by decide) (lt_irrefl 0)
  | false =>
    have hvalue := Finite.value_ne_zero_iff.2 hx
    obtain ⟨-, digits, point, hfinite, -, htrimmed, hlength, -⟩ :=
      renderFinite?_spec (hasSmallExponents_wide hlong) hx hcount hcount'
    obtain ⟨body, hlayout, hbody⟩ := canonical_layout htrimmed hlength point x.negative
    rw [hlayout, Finite.negative_eq hx, ← render?_of_isZero_eq_false hx] at hfinite
    refine ⟨⟨_, hfinite, iff_of_false (fun hzero => ?_) hvalue, ?_, fun _ => ⟨body, ?_, hbody⟩⟩,
      fun _ => takesDigits (hasSmallExponents_wide hlong) hx hcount hcount'⟩
    · exact hbody.signed_ne_zero _ (by simpa using congrArg String.toList hzero)
    · rw [String.toList_ofList, hbody.head?_signed, decide_eq_true_eq]
    · exact String.toList_ofList

/-- One quarter in fifty digits. -/
theorem prints_canonically_quarter :
    let x : Finite Format.decimal := ⟨false, 2 ^ 255, -257, by decide +kernel⟩
    0 < 50 ∧ 50 < 2 ^ 31 ∧ x.value ≠ 0 ∧ PrintsCanonically x 50 ∧ TakesDigits x 50 := by
  intro x
  have hvalue : x.value ≠ 0 := Finite.value_ne_zero_iff.2 (by decide +kernel)
  obtain ⟨hprints, htakes⟩ := prints_canonically (by decide) x (by decide : 0 < 50) (by decide)
  exact ⟨by decide, by decide, hvalue, hprints, htakes hvalue⟩

/-- In nearly `2 ^ 32` digits one quarter is printed as zero. -/
theorem not_printsCanonically_quarter :
    ¬ ∀ (x : Finite Format.decimal) (count : ℕ), 0 < count → PrintsCanonically x count := by
  intro h
  set x : Finite Format.decimal := ⟨false, 2 ^ 255, -257, by decide +kernel⟩ with hx
  have hzero : x.isZero = false := by decide +kernel
  obtain ⟨text, htext, hiff, -, -⟩ := h x 4294967290 (by norm_num)
  have hrender : (Floating.finite x).render? 4294967290 = some "0" := by decide +kernel
  rw [hrender, Option.some.injEq] at htext
  have hvalue := Finite.value_eq_zero_iff.1 (hiff.1 htext.symm)
  rw [hzero] at hvalue
  exact Bool.false_ne_true hvalue

end Abacus.Decimal
