/-
Abacus.Numeral.Plain — numerals in plain positional notation.

The text has no exponent and no needless zero: `150`, `0.015`, `-2.5`.
-/
import Abacus.Numeral.Basic

namespace Abacus

/-- The decimal digits of a natural number. -/
def digitChars (n : Nat) : List Char :=
  Nat.toDigits 10 n

/-- A run of zeros. -/
def zeros (n : Nat) : List Char :=
  List.replicate n '0'

namespace Numeral

/-- Move the zeros at the end of a positive coefficient into the exponent. -/
def strip (coefficient : Nat) (exponent : Int) : Nat × Int :=
  if h : coefficient ≠ 0 ∧ coefficient % 10 = 0 then strip (coefficient / 10) (exponent + 1)
  else (coefficient, exponent)
termination_by coefficient
decreasing_by omega

/-- Digits with the point `places` before their end. -/
def pointBefore (places : Nat) (digits : List Char) : List Char :=
  if places < digits.length then
    digits.take (digits.length - places) ++ '.' :: digits.drop (digits.length - places)
  else
    '0' :: '.' :: (zeros (places - digits.length) ++ digits)

/-- The positional text of a magnitude. -/
def plainMagnitude (coefficient : Nat) (exponent : Int) : List Char :=
  let (coefficient, exponent) := strip coefficient exponent
  if coefficient = 0 then ['0']
  else if 0 ≤ exponent then digitChars coefficient ++ zeros exponent.toNat
  else pointBefore (-exponent).toNat (digitChars coefficient)

/-- The positional text of a numeral. -/
def plain (n : Numeral) : List Char :=
  let body := plainMagnitude n.coefficient n.exponent
  if n.negative then '-' :: body else body

end Numeral

end Abacus
