/-
Abacus.Proofs.NumberSystem.PrintedText — the texts that results are printed as.

Whatever the mode, a result is printed as a sign, digits, possibly a fraction
and possibly an exponent.  Such a text is one numeral and nothing else, so the
double that is kept of it is the one nearest to the number that it shows.
-/
import Abacus.Proofs.NumberSystem.Printing

namespace Abacus

/-- A text that a result is printed as: a literal, or one with an exponent. -/
def IsPrinted (text : String) : Prop :=
  IsLiteral true text ∨ ∃ e, IsScientific e text

/-! ## The form of the text -/

section

variable {text : String} (h : IsPrinted text)
include h

theorem IsPrinted.exists_signed :
    ∃ negative whole fraction tail, IsDigits whole ∧ (∀ c ∈ fraction, c.isDigit = true) ∧
      (tail = [] ∨ ∃ e, tail = exponentTail e) ∧
      text.toList = signed negative (whole ++ (pointed fraction ++ tail)) := by
  rcases h with hliteral | ⟨e, hscientific⟩
  · obtain ⟨negative, whole, fraction, hw, hf, -, rfl⟩ := hliteral.exists_signed
    exact ⟨negative, whole, fraction, [], hw, hf, .inl rfl, by simp⟩
  · obtain ⟨negative, whole, fraction, hw, hf, htext⟩ := hscientific.exists_signed
    exact ⟨negative, whole, fraction, exponentTail e, hw, hf, .inr ⟨e, rfl⟩, htext⟩

/-- Nothing is left of the text behind its numeral. -/
theorem IsPrinted.exists_read? : ∃ n, Numeral.read? text.toList = some n := by
  obtain ⟨negative, whole, fraction, tail, hw, hf, htail, htext⟩ := h.exists_signed
  rw [htext]
  exact ⟨_, Numeral.read?_signed negative hw hf htail⟩

/-- The text is read as the double nearest to its numeral. -/
theorem IsPrinted.binary64_read? {n : Numeral} (hn : Numeral.read? text.toList = some n) :
    Binary64.read? text = some (Binary64.ofNumeral n) := by
  obtain ⟨negative, whole, fraction, tail, hw, -, -, htext⟩ := h.exists_signed
  have hread := Binary64.read?_of_isDigits negative hw (pointed fraction ++ tail)
  rw [← htext, String.ofList_toList, hn] at hread
  exact hread

/-- Digits, a minus sign, a point and the mark and sign of an exponent are the only
characters. -/
theorem IsPrinted.isDigit_or_mem {c : Char} (hc : c ∈ text.toList) :
    c.isDigit = true ∨ c ∈ ['-', '.', 'E', '+'] := by
  obtain ⟨negative, whole, fraction, tail, hw, hf, htail, htext⟩ := h.exists_signed
  have hbody : c = '-' ∨ c ∈ whole ∨ c ∈ pointed fraction ∨ c ∈ tail := by
    rw [htext, signed] at hc
    split_ifs at hc
    · simpa using hc
    · right
      simpa using hc
  rcases hbody with rfl | hwhole | hfraction | hexponent
  · simp
  · exact .inl (hw.2 c hwhole)
  · rw [pointed] at hfraction
    split_ifs at hfraction
    · cases hfraction
    · rcases List.mem_cons.1 hfraction with rfl | hmem
      · simp
      · exact .inl (hf c hmem)
  · rcases htail with rfl | ⟨e, rfl⟩
    · cases hexponent
    · have hdigits := (isDigits_digitChars e.natAbs).2 c
      simp only [exponentTail, List.mem_cons] at hexponent
      rcases hexponent with rfl | hsign | hmem
      · simp
      · right
        split_ifs at hsign <;> simp [hsign]
      · exact .inl (hdigits hmem)

/-- The text has no word in it that has a letter other than `E`. -/
theorem IsPrinted.lacks_word {word : List Char}
    (hword : ∃ c ∈ word, c.isAlpha = true ∧ c ≠ 'E') : ¬word <:+: text.toList := by
  intro hoccurs
  obtain ⟨c, hc, hletter, hmark⟩ := hword
  rcases h.isDigit_or_mem (hoccurs.subset hc) with hdigit | hmem
  · rw [isDigit_iff] at hdigit
    rw [isAlpha_iff, isUpper_iff, isLower_iff] at hletter
    omega
  · simp only [List.mem_cons, List.not_mem_nil, or_false] at hmem
    rcases hmem with rfl | rfl | rfl | rfl
    · exact absurd hletter (by decide)
    · exact absurd hletter (by decide)
    · exact hmark rfl
    · exact absurd hletter (by decide)

end

/-! ## Results -/

theorem Calculator.isPrinted_of_evaluate {mode : Mode} {environment : Environment}
    {line text : String} (h : (evaluate mode environment line).value = .ok text) :
    IsPrinted text := by
  obtain ⟨x, hx, rfl⟩ := evaluate_eq_ok_iff.1 h
  cases mode with
  | float =>
    exact .inl (NumberSystem.Float.format_readsBack
      (NumberSystem.preserves_float.evaluateIn hx)).1
  | integer => exact .inl (NumberSystem.isLiteral_toString x true)
  | decimal =>
    exact (NumberSystem.Decimal.render_readsBack (NumberSystem.preserves_decimal.evaluateIn hx)).imp
      And.left fun ⟨e, he, _⟩ => ⟨e, he⟩

end Abacus
