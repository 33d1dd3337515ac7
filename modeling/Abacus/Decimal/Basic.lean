/-
Abacus.Decimal.Basic — the numbers of the decimal mode.

They are binary numbers of 256 significant bits, enough for fifty decimal
digits and some more; a short decimal such as `0.1` is not exact in them, but
printing it in fifty digits gives the short decimal back.
-/
import Abacus.Floating.Elementary
import Abacus.Floating.Integers
import Abacus.Floating.Scaling
import Abacus.Text.Blank

namespace Abacus

/-- The format with a precision and exponents of 32 bits. -/
def Format.wide (precision : Nat) (positive : 0 < precision) : Format where
  precision := precision
  minExponent := -0x80000000 - precision
  maxExponent := 0x7fffffff
  underflow := .twice
  precision_pos := positive
  room := by omega

/-- The format of the decimal mode. -/
def Format.decimal : Format :=
  .wide 256 (by decide)

/-- A number of the decimal mode. -/
abbrev Decimal := Floating Format.decimal

namespace Decimal

/-- The number for a numeral as it is written.  Zeros in front of the point are
no number of their own, so where they stand alone their exponent does not
matter; any other exponent beyond the range makes the number infinite. -/
def ofParts (parts : NumeralParts) : Decimal :=
  if parts.isBare then .finite (.zero parts.negative)
  else if Format.decimal.maxExponent < parts.exponent then .infinite parts.negative
  else Format.decimal.readNumeral parts.value

/-- The number a text begins with: a numeral, `inf` or `nan` in any case, with
or without a sign; NaN for any other text. -/
def read (text : String) : Decimal :=
  let (negative, rest) := Numeral.scanSign text.toList
  let word := String.ofList (lowercase (rest.take 3))
  if word = "inf" then .infinite negative
  else
    match Numeral.scanParts? text.toList with
    | some (parts, _) => ofParts parts
    | none => .nan

end Decimal

end Abacus
