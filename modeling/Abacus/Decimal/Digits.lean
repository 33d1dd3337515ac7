/-
Abacus.Decimal.Digits — rounding and laying out digit strings.

A digit string stands for `0.d₁d₂… * 10 ^ point`.  It is rounded to a number
of digits and written either in plain notation or as `d.ddE±n`.
-/
import Abacus.Numeral.Plain
import Abacus.Word

namespace Abacus.Decimal

/-- Up to this many zeros after the point, small numbers are written in plain
notation. -/
def plainZeros : Nat := 10

/-- Drop the zeros at the end. -/
def dropTrailingZeros (digits : List Char) : List Char :=
  (digits.reverse.dropWhile (· = '0')).reverse

/-- The digit after a digit below nine. -/
def nextDigit (c : Char) : Char :=
  Char.ofNat (c.toNat + 1)

/-- The digits of the next number of the same length, and whether it
overflowed to all zeros. -/
def increment : List Char → List Char × Bool
  | [] => ([], true)
  | c :: cs =>
    match increment cs with
    | (cs, false) => (c :: cs, false)
    | (cs, true) => if c = '9' then ('0' :: cs, true) else (nextDigit c :: cs, false)

/-- Round a digit string to `count` digits, a half going up, and drop the
zeros at its end.  A carry out of the first digit moves the point. -/
def roundDigits (digits : List Char) (point : Int) (count : Nat) : List Char × Int :=
  match digits.drop count with
  | [] => (dropTrailingZeros digits, point)
  | next :: _ =>
    let kept := digits.take count
    if next < '5' then (dropTrailingZeros kept, point)
    else
      match increment kept with
      | (kept, false) => (dropTrailingZeros kept, point)
      | (kept, true) => (dropTrailingZeros (('1' :: kept).dropLast), point + 1)

/-- The rounded digits, unless a carry moves the point out of its word. -/
def roundDigits? (digits : List Char) (point : Int) (count : Nat) : Option (List Char × Int) :=
  let (digits, point) := roundDigits digits point count
  (Word.integer? point).map fun point => (digits, point)

/-- The digits with a point after the first `places` of them, or with zeros
up to there. -/
def pointAfter (places : Nat) (digits : List Char) : List Char :=
  if digits.length ≤ places then digits ++ zeros (places - digits.length)
  else digits.take places ++ '.' :: digits.drop places

/-- The notation `d.ddE±n`. -/
def scientific (digits : List Char) (exponent : Int) : List Char :=
  let mantissa := if digits.length = 1 then digits else digits.take 1 ++ '.' :: digits.drop 1
  mantissa ++ 'E' :: (if exponent < 0 then '-' else '+') :: digitChars exponent.natAbs

/-- Numbers of magnitude below `10 ^ count` that do not start with too many
zeros are written in plain notation. -/
def isPlain (point : Int) (count : Nat) : Bool :=
  -(plainZeros : Int) < point && point ≤ count

/-- The text of `± 0.d₁d₂… * 10 ^ point`. -/
def layout (digits : List Char) (point : Int) (negative : Bool) (count : Nat) : List Char :=
  let body :=
    if !isPlain point count then scientific digits (point - 1)
    else if 0 < point then pointAfter point.toNat digits
    else '0' :: '.' :: (zeros (-point).toNat ++ digits)
  if negative then '-' :: body else body

/-- A count as it is compared with places: one too large for a place reads as
negative, which is as good as none. -/
def comparable (count : Nat) : Nat :=
  (Word.signed count).toNat

/-- The text, unless it lacks the digit that `d.ddE±n` begins with or its
exponent is out of range. -/
def layout? (digits : List Char) (point : Int) (negative : Bool) (count : Nat) :
    Option (List Char) :=
  let text := layout digits point negative (comparable count)
  if isPlain point (comparable count) then some text
  else if digits.isEmpty then none
  else (Word.integer? (point - 1).natAbs).map fun _ => text

end Abacus.Decimal
