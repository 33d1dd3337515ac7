/-
Abacus.Numeral.Basic — decimal numerals.

A numeral is a sign, a coefficient and a power of ten.  It is read from text
such as `-12.5E+3`: digits with at most one point, then possibly `e` or `E`
and a whole exponent.
-/

namespace Abacus

/-- The number `± coefficient * 10 ^ exponent`. -/
structure Numeral where
  negative : Bool
  coefficient : Nat
  exponent : Int
deriving DecidableEq, Repr

/-- The number that a run of digits denotes. -/
def digitsValue (digits : List Char) : Nat :=
  Nat.ofDigitChars 10 digits 0

/-- A numeral as it is written: the digits before and behind the point, and the
exponent behind the mark. -/
structure NumeralParts where
  negative : Bool
  whole : List Char
  fraction : List Char
  exponent : Int
deriving DecidableEq, Repr

namespace NumeralParts

/-- The number that is written. -/
def value (parts : NumeralParts) : Numeral :=
  ⟨parts.negative, digitsValue (parts.whole ++ parts.fraction),
    parts.exponent - parts.fraction.length⟩

/-- There is no digit but zeros in front of the point. -/
def isBare (parts : NumeralParts) : Bool :=
  parts.whole.all (· = '0') && parts.fraction.isEmpty

end NumeralParts

namespace Numeral

/-- A sign in front of a text, and the rest. -/
def scanSign : List Char → Bool × List Char
  | '-' :: cs => (true, cs)
  | '+' :: cs => (false, cs)
  | cs => (false, cs)

/-- The exponent mark with a whole number behind it, and the rest; where no
digit follows the mark there is no exponent. -/
def scanExponent (cs : List Char) : Int × List Char :=
  match cs with
  | c :: rest =>
    if c = 'e' || c = 'E' then
      let (negative, rest) := scanSign rest
      let digits := rest.takeWhile Char.isDigit
      if digits.isEmpty then (0, cs)
      else
        let value : Int := digitsValue digits
        (if negative then -value else value, rest.dropWhile Char.isDigit)
    else (0, cs)
  | [] => (0, cs)

/-- The digits after a point, and the rest. -/
def scanFraction : List Char → List Char × List Char
  | '.' :: cs => (cs.takeWhile Char.isDigit, cs.dropWhile Char.isDigit)
  | cs => ([], cs)

/-- The longest numeral a text starts with, in its parts, and the rest; `none`
if there is no digit in it. -/
def scanParts? (cs : List Char) : Option (NumeralParts × List Char) :=
  let (negative, cs) := scanSign cs
  let whole := cs.takeWhile Char.isDigit
  let (fraction, rest) := scanFraction (cs.dropWhile Char.isDigit)
  if whole.isEmpty && fraction.isEmpty then none
  else
    let (exponent, rest) := scanExponent rest
    some (⟨negative, whole, fraction, exponent⟩, rest)

/-- The numeral that a whole text is. -/
def read? (cs : List Char) : Option Numeral :=
  match scanParts? cs with
  | some (parts, []) => some parts.value
  | _ => none

end Numeral

end Abacus
