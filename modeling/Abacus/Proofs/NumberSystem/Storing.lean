/-
Abacus.Proofs.NumberSystem.Storing — what a stored value is read as.

A session keeps the number that it reads from a printed result.  Only the number
that the text denotes matters for this, up to the sign of a zero
(`Binary64.read?_of_denotes`).  What a number in double precision is printed as
denotes its shortest numeral, and so is read as the number itself
(`Binary64.read?_format`).
-/
import Abacus.Proofs.Floating.Closest
import Abacus.Proofs.NumberSystem.PrintedText

namespace Abacus

variable {f : Format}

/-! ## Numbers with one value -/

namespace Floating

/-- Two finite numbers with the same value; they may differ in the sign of zero. -/
def SameValue (x y : Floating f) : Prop :=
  ∃ a b : Finite f, x = .finite a ∧ y = .finite b ∧ a.value = b.value

theorem SameValue.symm {x y : Floating f} (h : x.SameValue y) : y.SameValue x := by
  obtain ⟨a, b, hx, hy, hvalue⟩ := h
  exact ⟨b, a, hy, hx, hvalue.symm⟩

theorem SameValue.eq_of_isZero {x y : Floating f} (h : x.SameValue y) (hx : x.isZero = false) :
    x = y := by
  obtain ⟨a, b, rfl, rfl, hvalue⟩ := h
  rw [Finite.eq_of_value_eq hvalue hx]

end Floating

/-! ## Numerals with one value -/

namespace Numeral

variable {m n : Numeral} (h : m.value = n.value)
include h

theorem magnitude_eq_of_value_eq : m.magnitude = n.magnitude := by
  rw [← abs_value, h, abs_value]

theorem negative_eq_of_value_eq (hn : n.magnitude ≠ 0) : m.negative = n.negative := by
  have hpos : 0 < n.magnitude := lt_of_le_of_ne n.magnitude_nonneg hn.symm
  have hvalue := h
  unfold value at hvalue
  rw [magnitude_eq_of_value_eq h] at hvalue
  split_ifs at hvalue with hm hsign hsign
  · exact hm.trans hsign.symm
  · linarith
  · linarith
  · rw [Bool.not_eq_true] at hm hsign
    exact hm.trans hsign.symm

/-- Numerals with one value are read as numbers with one value. -/
theorem exists_ofNumeral {x : Finite f} (hx : f.ofNumeral n = .finite x) :
    ∃ y : Finite f, f.ofNumeral m = .finite y ∧ y.value = x.value := by
  have hread := f.ofNumeral_standsFor n
  rw [hx] at hread
  obtain ⟨hnegative, hmagnitude⟩ := hread
  have hread' := f.ofNumeral_standsFor m
  rw [magnitude_eq_of_value_eq h, ← hmagnitude] at hread'
  obtain ⟨y, hy, hnegative', hmagnitude'⟩ := hread'.exists_finite x.magnitude_lt
  refine ⟨y, hy, ?_⟩
  rw [y.value_eq, x.value_eq, hmagnitude', hnegative', hnegative]
  by_cases hzero : x.magnitude = 0
  · simp [hzero]
  · rw [negative_eq_of_value_eq h]
    intro hn
    rw [hn, f.nearest_zero] at hmagnitude
    exact hzero hmagnitude

end Numeral

/-! ## What a text denotes -/

/-- The whole text is a numeral with this value. -/
def Denotes (text : String) (q : ℚ) : Prop :=
  ∃ n, Numeral.read? text.toList = some n ∧ n.value = q

theorem denotes_toString (n : ℤ) : Denotes (toString n) n := by
  have hread := Numeral.read?_signed (decide (n < 0)) (isDigits_digitChars n.natAbs)
    (List.forall_mem_nil _) (.inl rfl)
  rw [pointed_nil, List.append_nil, List.append_nil] at hread
  refine ⟨_, by rw [toString_int, String.toList_ofList]; exact hread, ?_⟩
  rw [Numeral.value, NumeralParts.magnitude_value, List.append_nil, digitsValue_digitChars,
    scanExponent_nil, List.length_nil, Nat.cast_zero, sub_zero, zpow_zero, mul_one,
    Nat.cast_natAbs, Int.cast_abs]
  by_cases h : n < 0
  · have hneg : (n : ℚ) < 0 := by exact_mod_cast h
    simp [NumeralParts.value, h, abs_of_neg hneg]
  · have hpos : (0 : ℚ) ≤ n := by exact_mod_cast not_lt.1 h
    simp [NumeralParts.value, h, abs_of_nonneg hpos]

namespace NumberSystem.Float

/-- A whole number of at most 53 bits has itself as its shortest numeral. -/
theorem value_shortestNumeral {x : Finite Format.binary64} {n : ℤ} (hx : x.value = n)
    (hn : n.natAbs ≤ 2 ^ 53) : (x.shortestNumeral 17).value = n := by
  have hmagnitude := Finite.magnitude_of_value hx
  rw [Numeral.value, x.shortestNumeral_negative, Finite.magnitude_shortestNumeral hmagnitude hn,
    ← hmagnitude, ← x.value_eq, hx]

theorem text_denotes (x : Finite Format.binary64) :
    Denotes (Binary64.text (.finite x)) (x.shortestNumeral 17).value := by
  obtain ⟨whole, fraction, hw, hf, htext, hvalue, -⟩ := exists_text_eq_signed x
  have hread := Numeral.read?_signed x.negative hw hf (.inl rfl)
  rw [List.append_nil] at hread
  refine ⟨_, by rw [htext, String.toList_ofList]; exact hread, ?_⟩
  rw [Numeral.value, Numeral.value, x.shortestNumeral_negative, ← hvalue]
  rfl

/-- A number is printed as what its shortest numeral denotes. -/
theorem format_denotes (x : Finite Format.binary64) :
    Denotes (Binary64.format (.finite x)) (x.shortestNumeral 17).value := by
  rcases format_cases x with ⟨n, hn, hvalue, hformat⟩ | hformat
  · rw [hformat, value_shortestNumeral hvalue hn]
    exact denotes_toString n
  · rw [hformat]
    exact text_denotes x

end NumberSystem.Float

/-! ## Reading it back -/

namespace Binary64

/-- A printed text is read as the number that a numeral of the same value is read as. -/
theorem read?_of_denotes {text : String} (htext : IsPrinted text) {n : Numeral}
    (h : Denotes text n.value) {x : Finite Format.binary64} (hx : ofNumeral n = .finite x) :
    ∃ y : Finite Format.binary64, read? text = some (.finite y) ∧
      (Floating.finite y).SameValue (.finite x) := by
  obtain ⟨m, hread, hvalue⟩ := h
  obtain ⟨y, hy, hsame⟩ := Numeral.exists_ofNumeral hvalue hx
  refine ⟨y, ?_, y, x, rfl, rfl, hsame⟩
  rw [htext.binary64_read? hread]
  exact congrArg some hy

/-- The text of a finite number is read as a number with the same value. -/
theorem read?_format {x : Binary64} (hx : x.isFinite = true) :
    ∃ y : Finite Format.binary64, read? x.format = some (.finite y) ∧
      (Floating.finite y).SameValue x := by
  have hprinted : IsPrinted x.format := .inl (NumberSystem.Float.format_readsBack hx).1
  cases x with
  | nan => cases hx
  | infinite negative => cases hx
  | finite x =>
    exact read?_of_denotes hprinted (NumberSystem.Float.format_denotes x)
      (x.ofNumeral_shortestNumeral 17)

end Binary64

end Abacus
