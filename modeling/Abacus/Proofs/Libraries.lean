/-
Abacus.Proofs.Libraries — what is assumed of the libraries.

Arithmetic of many bits and the editing of a typed line are left to libraries.
The functions that stand for them compute what the libraries do, but the
results on the calculator need much less: how close to a numeral it is read,
that natural powers are rounded once, that other powers of positive numbers
are defined and not negative, and that a line without backspaces stays as it
is.  This is stated here of any functions (`ReadsNumerals`, `RaisesToPowers`,
`EditsLines`) and proved of those that stand for the libraries; elsewhere they
are used through these laws.  Nothing is assumed of the other elementary
functions, because the calculator checks what they return.
-/
import Abacus.Proofs.Floating.Elementary
import Abacus.Proofs.Floating.Rounding
import Abacus.Proofs.Floating.Scaling
import Abacus.Text.Backspace

namespace Abacus

/-! ## Reading numerals -/

/-- A function that reads numerals as numbers of the format. -/
structure ReadsNumerals {f : Format} (read : Numeral → Floating f) : Prop where
  /-- Every numeral is read as a number or is out of range. -/
  ne_nan : ∀ n, read n ≠ .nan
  /-- Whole numerals, and those that fit into a mantissa, are read as the nearest number. -/
  nearest : ∀ {n : Numeral}, n.coefficient < 2 ^ f.precision ∨ n.exponent = 0 →
    (read n).StandsFor n.negative (f.nearest n.magnitude)
  /-- All others are rounded from a magnitude that is closer to them than the precision, and that
  their sign does not change. -/
  close : ∀ {n : Numeral}, n.exponent.natAbs ≤ Bracket.largestExponent →
    ∃ v, 0 ≤ v ∧ |v - n.magnitude| ≤ n.magnitude / 2 ^ (f.precision + 3) ∧
      ∀ negative, (read { n with negative }).StandsFor negative (f.nearest v)

theorem Format.readsNumerals (f : Format) : ReadsNumerals f.readNumeral where
  ne_nan := f.readNumeral_ne_nan
  nearest h := h.elim f.readNumeral_standsFor f.readNumeral_whole_standsFor
  close := f.readNumeral_close

namespace ReadsNumerals

variable {f : Format} {read : Numeral → Floating f} (h : ReadsNumerals read) {n : Numeral}
include h

theorem of_coefficient_eq_zero (hn : n.coefficient = 0) :
    read n = .finite (.zero n.negative) := by
  have hstands := h.nearest (n := n) (.inl (hn ▸ Nat.two_pow_pos _))
  rw [Numeral.magnitude_of_coefficient_eq_zero hn, f.nearest_zero] at hstands
  exact hstands.unique ⟨rfl, Finite.magnitude_zero _⟩

/-- Short numerals are rounded from their own magnitude, which is as close as the others come. -/
theorem exists_close
    (hn : n.coefficient < 2 ^ f.precision ∨ n.exponent.natAbs ≤ Bracket.largestExponent) :
    ∃ v, 0 ≤ v ∧ |v - n.magnitude| ≤ n.magnitude / 2 ^ (f.precision + 3) ∧
      ∀ negative, (read { n with negative }).StandsFor negative (f.nearest v) := by
  rcases hn with hfew | hexponent
  · refine ⟨n.magnitude, n.magnitude_nonneg, ?_, fun negative =>
      h.nearest (n := { n with negative }) (.inl hfew)⟩
    rw [sub_self, abs_zero]
    exact div_nonneg n.magnitude_nonneg (by positivity)
  · exact h.close hexponent

/-- Well within the range a numeral is read as a number hardly further away than the precision,
with its sign, and as itself where it is a number of the format. -/
theorem of_inRange
    (hn : n.coefficient < 2 ^ f.precision ∨ n.exponent.natAbs ≤ Bracket.largestExponent)
    (hlow : 2 ^ (f.minExponent + f.precision) ≤ n.magnitude)
    (hhigh : 2 * n.magnitude < 2 ^ f.maxExponent) :
    ∃ u, |u - n.magnitude| ≤ n.magnitude * (2 / 2 ^ f.precision) ∧
      (∀ y : Finite f, y.magnitude = n.magnitude → u = n.magnitude) ∧
      ∀ negative, ∃ x : Finite f, read { n with negative } = .finite x ∧
        x.negative = negative ∧ x.magnitude = u := by
  obtain ⟨v, hv0, hv, hstands⟩ := h.exists_close hn
  have hclose := f.abs_nearest_sub_le_of_close hlow
    (hv.trans (div_le_div_of_nonneg_left n.magnitude_nonneg (by positivity)
      (pow_le_pow_right₀ one_le_two (by omega))))
  refine ⟨f.nearest v, hclose, fun y hy => ?_, fun negative => (hstands negative).exists_finite ?_⟩
  · have hbound : 2 ^ f.precision + 1 < 2 ^ (f.precision + 2) := by
      have := Nat.one_le_two_pow (n := f.precision)
      rw [pow_add]
      omega
    rw [← hy] at hv ⊢
    refine f.nearest_eq_of_close y hbound hv0 (hv.trans_eq ?_)
    push_cast
    rw [div_div, ← pow_succ]
  · have hone : (2 : ℚ) / 2 ^ f.precision ≤ 1 := by
      rw [div_le_one (by positivity)]
      exact le_self_pow₀ one_le_two f.precision_pos.ne'
    have hsmall := mul_le_of_le_one_right n.magnitude_nonneg hone
    linarith [(abs_le.1 (hclose.trans hsmall)).2]

end ReadsNumerals

/-! ## Powers -/

/-- Functions that raise numbers to natural powers, and positive numbers to any power. -/
structure RaisesToPowers {f : Format} (natPow : Finite f → ℕ → Floating f)
    (pow : Finite f → Finite f → Floating f) : Prop where
  /-- Natural powers are exact up to one rounding. -/
  nearest : ∀ x n, (natPow x n).StandsFor (x.negative && n % 2 == 1)
    (f.nearest (x.magnitude ^ n))
  /-- Powers of a positive number are not negative, and always defined. -/
  hasSign : ∀ x y, (pow x y).HasSign false

theorem Decimal.raisesToPowers :
    RaisesToPowers (f := Format.decimal) Finite.natPow Finite.pow where
  nearest := Finite.natPow_standsFor
  hasSign := Finite.pow_hasSign

/-! ## Editing lines -/

/-- A function that does what was typed into a line. -/
structure EditsLines (edit : List Char → List Char) : Prop where
  /-- Without backspaces there is nothing to do. -/
  eq_self : ∀ {line}, backspace ∉ line → edit line = line

theorem editsLines_applyBackspaces : EditsLines applyBackspaces where
  eq_self := applyBackspaces_of_notMem

end Abacus
