/-
Abacus.Proofs.NumberSystem.Agreement — the modes agree on whole numbers.

A line with a value among the integers has the same value in decimals and in
double precision, as long as no value on the way is too large to be exact
there.  Nothing is assumed of the line itself: it may divide, take factorials
and use variables.
-/
import Abacus.Proofs.NumberSystem.WholeNumbers

namespace Abacus

open NumberSystem

/-- A line with a whole number as its value has the same text in decimals, if
no value on the way needs more than 256 bits and the result has at most fifty
digits. -/
theorem decimal_agrees_with_integer {environment : Environment} {line text : String}
    (hvariables : ∀ name value, environment name = some value →
      ∃ n : ℤ, value.IsInt n ∧ n.natAbs ≤ 2 ^ 53)
    (h : (Calculator.evaluate .integer environment line).value = .ok text)
    (hvalues : ∀ n ∈ Calculator.values .integer environment line, n.natAbs < 2 ^ 256)
    (hresult : ∀ n, (Calculator.evaluateIn .integer environment line).value = .ok n →
      n.natAbs < 10 ^ 50) :
    (Calculator.evaluate .decimal environment line).value = .ok text := by
  obtain ⟨n, hn, rfl⟩ := Calculator.evaluate_eq_ok_iff.1 h
  have hwithin : ∀ n ∈ Calculator.values .integer environment line, n.natAbs ≤ 2 ^ 256 - 1 :=
    fun n hn => Nat.le_sub_one_of_lt (hvalues n hn)
  obtain ⟨x, hx, -, hint⟩ := (Decimal.follows_integer hvariables).evaluateIn rfl hn hwithin
  exact Calculator.evaluate_eq_ok_iff.2 ⟨x, hx, Decimal.render_isInt hint (hresult n hn)⟩

/-- A division and a factorial of a variable. -/
theorem decimal_agrees_with_integer_factorial :
    (Calculator.evaluate .integer (fun _ => some (Format.binary64.ofInt 3))
      "(2 + n)! / 4 - n").value = .ok "27" ∧
    (Calculator.evaluate .decimal (fun _ => some (Format.binary64.ofInt 3))
      "(2 + n)! / 4 - n").value = .ok "27" := by
  have htext : (Calculator.evaluate .integer (fun _ => some (Format.binary64.ofInt 3))
      "(2 + n)! / 4 - n").value = .ok "27" := by decide +kernel
  have hvalue : (Calculator.evaluateIn .integer (fun _ => some (Format.binary64.ofInt 3))
      "(2 + n)! / 4 - n").value = .ok 27 := by decide +kernel
  refine ⟨htext, decimal_agrees_with_integer ?_ htext ?_ ?_⟩
  · rintro name value ⟨⟩
    exact ⟨3, Floating.isInt_ofInt hasWholeNumbers_binary64 (by decide), by decide⟩
  · decide +kernel
  · intro n hn
    obtain rfl : 27 = n := Except.ok.inj (hvalue.symm.trans hn)
    decide

/-- A line with a whole number as its value has the same text in double
precision, if no value on the way is beyond 2^53.  The values of the variables
in the line are among them. -/
theorem float_agrees_with_integer {environment : Environment} {line text : String}
    (h : (Calculator.evaluate .integer environment line).value = .ok text)
    (hvalues : ∀ n ∈ Calculator.values .integer environment line, n.natAbs ≤ 2 ^ 53) :
    (Calculator.evaluate .float environment line).value = .ok text := by
  obtain ⟨n, hn, rfl⟩ := Calculator.evaluate_eq_ok_iff.1 h
  obtain ⟨x, hx, hwithin, hint⟩ := (Float.follows_integer environment).evaluateIn rfl hn hvalues
  exact Calculator.evaluate_eq_ok_iff.2 ⟨x, hx, Float.format_isInt hint hwithin⟩

/-- A division and a factorial of a negative variable. -/
theorem float_agrees_with_integer_factorial :
    (Calculator.evaluate .integer (fun _ => some (Format.binary64.ofInt (-3)))
      "(2 - n)! / -4 + n").value = .ok "-33" ∧
    (Calculator.evaluate .float (fun _ => some (Format.binary64.ofInt (-3)))
      "(2 - n)! / -4 + n").value = .ok "-33" := by
  have htext : (Calculator.evaluate .integer (fun _ => some (Format.binary64.ofInt (-3)))
      "(2 - n)! / -4 + n").value = .ok "-33" := by decide +kernel
  exact ⟨htext, float_agrees_with_integer htext (by decide +kernel)⟩

end Abacus
