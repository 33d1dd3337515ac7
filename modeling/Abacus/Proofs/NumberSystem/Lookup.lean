/-
Abacus.Proofs.NumberSystem.Lookup — variables as the numbers of a mode.

Double precision takes the value of a variable as it is, integers take it if it
is a whole number, and decimals take the number that its shortest digits write.
None of them loses anything: what the number is printed as denotes a numeral
that is read as the value (`Mode.keepsVariables`).
-/
import Abacus.Proofs.NumberSystem.Storing
import Abacus.Proofs.Numeral.Length

namespace Abacus

namespace NumberSystem

/-- What a variable is printed as denotes a numeral that is read as its value. -/
def KeepsVariables {V : Type} (system : NumberSystem V) : Prop :=
  ∀ name (x : Finite Format.binary64) y, system.ofVariable name (.finite x) = .ok y →
    ∃ n : Numeral, Denotes (system.render y) n.value ∧ Binary64.ofNumeral n = .finite x

/-! ## Double precision -/

theorem keepsVariables_float : float.KeepsVariables := by
  intro name x y h
  obtain rfl : Floating.finite x = y := Except.ok.inj h
  exact ⟨_, Float.format_denotes x, x.ofNumeral_shortestNumeral 17⟩

/-! ## Integers -/

namespace Integer

variable {name : String}

/-- A variable that is a whole number, of any size, stands for it. -/
theorem ofVariable_isInt {value : Binary64} {n : ℤ} (h : value.IsInt n) :
    ofVariable name value = .ok n := by
  obtain ⟨x, rfl, hx⟩ := h
  have hint : x.isIntegral = true := Finite.isIntegral_iff.2 ⟨n, hx⟩
  rw [ofVariable, if_pos hint, Finite.floor_of_value hx]

theorem ofVariable_of_forall_not {x : Finite Format.binary64}
    (h : ∀ n, ¬Floating.IsInt n (.finite x)) :
    ofVariable name (.finite x) =
      .error (.overflow (.variableNotIntegral name (Binary64.text (.finite x)))) := by
  have hint : ¬x.isIntegral = true := by
    intro hint
    obtain ⟨n, hn⟩ := Finite.isIntegral_iff.1 hint
    exact h n ⟨x, rfl, hn⟩
  rw [ofVariable, if_neg hint]

end Integer

theorem keepsVariables_integer : integer.KeepsVariables := by
  intro name x n h
  have hread : Integer.ofVariable name (.finite x) = .ok n := h
  obtain ⟨x', hx', hvalue⟩ := Integer.exists_of_ofVariable hread
  cases hx'
  refine ⟨x.exactNumeral, ?_, Finite.ofNumeral_of_magnitude_eq x.exactNumeral_negative
    x.exactNumeral_magnitude⟩
  rw [Numeral.value, x.exactNumeral_negative, x.exactNumeral_magnitude, ← x.value_eq, hvalue]
  exact denotes_toString n

/-! ## Decimals -/

namespace Decimal

open Abacus.Decimal

theorem denotes_layout {digits : List Char} (h : Leading digits) (point : ℤ) {n : Numeral}
    (hvalue : positional digits point = n.magnitude) :
    Denotes (String.ofList (layout digits point n.negative Decimal.digits)) n.value := by
  obtain ⟨m, hread, hnegative, hmagnitude⟩ := read?_layout h point n.negative Decimal.digits
  refine ⟨m, by rw [String.toList_ofList, hread], ?_⟩
  rw [Numeral.value, Numeral.value, hnegative, hmagnitude, hvalue]

section Lookup

variable {x : Finite Format.binary64}

theorem exists_ofVariable_of_isZero (hx : x.isZero = true) (name : String) :
    ∃ y, ofVariable name (.finite x) = .ok y ∧ Denotes (render y) (x.shortestNumeral 17).value := by
  have hvalue : x.value = (0 : ℤ) := by
    rw [Int.cast_zero]
    exact Finite.value_eq_zero_iff.2 hx
  have hint : Floating.IsInt 0 (.finite x) := ⟨x, rfl, hvalue⟩
  obtain ⟨y, hy, hzero⟩ : ∃ y, ofVariable name (.finite x) = .ok y ∧ y.IsInt 0 :=
    ofVariable_isInt hint (by decide)
  refine ⟨y, hy, ?_⟩
  rw [render_isInt hzero (by decide), Float.value_shortestNumeral hvalue (by decide)]
  exact denotes_toString 0

theorem exists_ofVariable_of_isZero_eq_false (hx : x.isZero = false) (name : String) :
    ∃ y, ofVariable name (.finite x) = .ok y ∧ Denotes (render y) (x.shortestNumeral 17).value := by
  obtain ⟨hfew, digits, point, htrimmed, hlength, hpoint, hvalue⟩ :=
    Finite.exists_digits_shortestNumeral hx
  obtain ⟨whole, fraction, hw, hf, htext, hmagnitude, hmore⟩ := Float.exists_text_eq_signed x
  have hread := Decimal.read_signed x.negative hw hf (stops_nil _)
  rw [List.append_nil, ← htext, scanExponent_nil] at hread
  -- a fraction has the shortest digits and no more; a whole number may be longer than any
  -- mantissa, but then there is no power of ten to be read with it
  have hcoefficient : digitsValue (whole ++ fraction) < 10 ^ Decimal.digits ∨
      (0 : ℤ) = fraction.length := by
    rcases hmore with rfl | hle
    · exact .inr rfl
    · exact .inl ((hle.trans hfew).trans_lt (by decide))
  have hdigits : (digitsValue (whole ++ fraction) : ℚ) * 10 ^ (0 - (fraction.length : ℤ)) =
      positional digits point := hmagnitude.trans hvalue.symm
  have hshort : digits.length ≤ Decimal.digits := hlength.trans (by decide)
  obtain ⟨y, hy, hrender⟩ : ∃ y, ofParts ⟨x.negative, whole, fraction, 0⟩ = .finite y ∧
      render (.finite y) = String.ofList (layout digits point x.negative Decimal.digits) :=
    render_ofParts htrimmed hshort hdigits hcoefficient (by decide) (hpoint.trans (by decide))
  refine ⟨.finite y, ?_, ?_⟩
  · have hfinite : Floating.isFinite (.finite x) = true := rfl
    rw [ofVariable, if_pos hfinite, hread, hy]
    rfl
  · rw [hrender, ← x.shortestNumeral_negative 17]
    exact denotes_layout htrimmed.toLeading point hvalue

/-- A variable is printed as what its shortest numeral denotes. -/
theorem exists_ofVariable (name : String) (x : Finite Format.binary64) :
    ∃ y, ofVariable name (.finite x) = .ok y ∧ Denotes (render y) (x.shortestNumeral 17).value := by
  cases hx : x.isZero with
  | true => exact exists_ofVariable_of_isZero hx name
  | false => exact exists_ofVariable_of_isZero_eq_false hx name

end Lookup

end Decimal

theorem keepsVariables_decimal : decimal.KeepsVariables := by
  intro name x y h
  obtain ⟨y', hy', hdenotes⟩ := Decimal.exists_ofVariable name x
  unfold decimal at h
  dsimp only at h
  obtain rfl := Except.ok.inj (hy'.symm.trans h)
  exact ⟨_, hdenotes, x.ofNumeral_shortestNumeral 17⟩

end NumberSystem

theorem Mode.keepsVariables (mode : Mode) : mode.system.KeepsVariables := by
  cases mode with
  | float => exact NumberSystem.keepsVariables_float
  | integer => exact NumberSystem.keepsVariables_integer
  | decimal => exact NumberSystem.keepsVariables_decimal

end Abacus
