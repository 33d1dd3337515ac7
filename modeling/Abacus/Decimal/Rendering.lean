/-
Abacus.Decimal.Rendering — decimal digits of a binary number.

The digits are taken from the exact value with five guard digits more than are
wanted, and then rounded.  A number of a large decimal exponent is first
brought near one by a power of ten, in a wider format.  The number itself may
have a mantissa of any length.
-/
import Abacus.Decimal.Basic
import Abacus.Decimal.Digits
import Abacus.Floating.Binary64

namespace Abacus.Decimal

attribute [local instance (2000)] instPowNat

/-- Digits taken beyond those that are wanted. -/
def guardDigits : Nat := 5

/-- Numbers of a larger decimal exponent are scaled before their digits are
taken. -/
def directExponent : Nat := 1000

/-- `log₁₀ 2` in double precision. -/
def logTenOfTwo : Binary64 := .ofBits 0x3fd34413509f79ff

/-- `log₂ 10` in double precision. -/
def logTwoOfTen : Binary64 := .ofBits 0x400a934f0979a371

/-- An integer times a double-precision constant. -/
def estimate (n : Int) (constant : Binary64) : Binary64 :=
  (Format.binary64.ofInt n).mul constant

/-- Bits for a number of decimal digits: whole words of 64 bits and one more, if
that many can be counted. -/
def nominalBits? (digits : Nat) : Option Nat := do
  let bits := min (estimate digits logTwoOfTen).ceil.toNat Word.largest
  let padded ← Word.natural? (bits + 63)
  Word.natural? (padded / 64 * 64 + 64)

/-- Zeros behind the point in front of the first digit, as far as the binary
exponent shows. -/
def leadingZeros (binaryExponent : Int) : Nat :=
  (estimate (-binaryExponent) logTenOfTwo).ceil.toNat

/-- Powers of ten are raised to exponents below this; larger ones are reduced
to them. -/
def powerModulus : Nat := 0x100000000

/-- The digits of `mantissa * 2 ^ exponent` and the place of the point among
them: all digits of an integer of full length, otherwise `count` digits and
the guard digits after the zeros in front.  There are no digits if all of
these are zero, and `none` if they cannot be counted. -/
def digitText? (mantissa : Nat) (exponent : Int) (count : Nat) : Option (List Char × Int) :=
  if 0 ≤ exponent then
    let digits := digitChars (mantissa <<< exponent.toNat)
    some (digits, digits.length)
  else do
    let leading := leadingZeros (mantissa.log2 + 1 + exponent)
    let places ← Word.natural? (count + guardDigits + leading)
    let scaled :=
      roundDiv .up (mantissa * 10 ^ (places % powerModulus)) (2 ^ (-exponent).toNat)
    let digits := if scaled = 0 then [] else digitChars scaled
    let point ← Word.integer? (digits.length - Word.signed places)
    return (digits, point)

/-- Numbers of more bits are not computed with. -/
def longestPrecision : Nat := 0x40000000

variable {f : Format}

/-- A number brought down to about `wanted` digits before the point by
arithmetic of `precision` bits, and the power of ten that was divided out;
`none` if that leaves the range. -/
def scaleDown? (x : Finite f) (decimalExponent : Int) (wanted precision : Nat) :
    Option ((Nat × Int) × Int) :=
  if h : 0 < precision ∧ precision ≤ longestPrecision then
    let wide := Format.wide precision h.1
    let power := decimalExponent - wanted
    match wide.roundTimesPower false 1 5 power.natAbs power.natAbs with
    | .finite ten =>
      let scaled :=
        if 0 ≤ power then
          wide.round x.negative x.mantissa ten.mantissa (x.exponent - ten.exponent)
        else
          wide.round x.negative (x.mantissa * ten.mantissa) 1 (x.exponent + ten.exponent)
      match scaled with
      | .finite y => if y.isZero then none else some ((y.mantissa, y.exponent), power)
      | _ => none
    | _ => none
  else none

/-- Mantissa and exponent of a number from which `count` digits are taken, and
the power of ten that was divided out of it before; `none` if the precision
for that cannot be counted. -/
def prepare? (x : Finite f) (count : Nat) : Option ((Nat × Int) × Int) :=
  let itself := ((x.mantissa, x.exponent), 0)
  let decimalExponent := (estimate x.binaryExponent logTenOfTwo).floor
  if directExponent < decimalExponent.natAbs then do
    let wanted ← Word.natural? (count + guardDigits)
    let precision ← Word.natural? ((← nominalBits? wanted) + 64)
    return (scaleDown? x decimalExponent wanted precision).getD itself
  else some itself

/-- The text of a nonzero number in `count` significant digits. -/
def renderFinite? (x : Finite f) (count : Nat) : Option String := do
  let ((mantissa, exponent), power) ← prepare? x count
  let (digits, point) ← digitText? mantissa exponent count
  if digits.isEmpty then return "0"
  let (digits, point) ← roundDigits? digits (point + power) count
  return String.ofList (← layout? digits point x.negative count)

end Abacus.Decimal

namespace Abacus.Floating

variable {f : Format}

/-- The text of a number in `count` significant digits; only without any
digits, or with more than can be counted, can there be none. -/
def render? (x : Floating f) (count : Nat) : Option String :=
  match x with
  | nan => some "NaN"
  | infinite negative => some (if negative then "-Infinity" else "Infinity")
  | finite x => if x.isZero then some "0" else Decimal.renderFinite? x count

/-- The text of a number in a positive number of significant digits. -/
def render (x : Floating f) (count : Nat) : String :=
  (x.render? count).getD ""

end Abacus.Floating
