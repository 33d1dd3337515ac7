/-
Abacus.Floating.Scaling — rounding long numerals in working precision.

The coefficient of a numeral is multiplied or divided by a power of ten in a
working precision somewhat beyond that of the format, cutting off what does
not fit.  If the bits beyond the format then look like a tie, up to the last
of them, the result is not taken, and the precision is raised.  Cutting the
power down makes a quotient a little too large, so a numeral extremely close
below a tie can be taken for one above it.  Numerals that are not that close
to a tie are rounded correctly.
-/
import Abacus.Enclosure.Power

namespace Abacus

attribute [local instance (2000)] instPowNat

/-- The number `mantissa * 2 ^ exponent`, and whether it is what was meant and
not only what was left of it. -/
structure Truncated where
  mantissa : Nat
  exponent : Int
  exact : Bool
deriving DecidableEq, Repr

namespace Truncated

/-- The leading `bits` bits of `mantissa * 2 ^ exponent`. -/
def cut (bits mantissa : Nat) (exponent : Int) (exact : Bool) : Truncated :=
  let extra := mantissa.log2 + 1 - bits
  let kept := mantissa >>> extra
  ⟨kept, exponent + extra, exact && kept <<< extra == mantissa⟩

/-- Bits by which a power is computed more precisely than it is kept. -/
def powerGuard : Nat := 128

/-- The leading bits of `10 ^ n`. -/
def tenPower (bits n : Nat) : Truncated :=
  let b := Bracket.power (bits + powerGuard) 5 n
  cut bits b.lower (b.shift + n) (b.lower == b.upper)

/-- The leading bits of a product. -/
def product (bits coefficient : Nat) (t : Truncated) : Truncated :=
  cut bits (coefficient * t.mantissa) t.exponent t.exact

/-- The leading bits of a quotient. -/
def quotient (bits coefficient : Nat) (t : Truncated) : Truncated :=
  let shift := bits + t.mantissa.log2 + 1 - coefficient.log2
  let num := coefficient <<< shift
  cut bits (num / t.mantissa) (-t.exponent - shift) (t.exact && num % t.mantissa == 0)

/-- The magnitude of a numeral in working precision. -/
def ofNumeral (bits : Nat) (n : Numeral) : Truncated :=
  let power := tenPower bits n.exponent.natAbs
  if 0 ≤ n.exponent then product bits n.coefficient power
  else quotient bits n.coefficient power

/-- The bits beyond those that a format keeps are `1000…` or `0111…`, so what
was cut off may decide between two numbers. -/
def isUndecided (f : Format) (t : Truncated) : Bool :=
  let length : Int := t.mantissa.log2 + 1
  let dropped := max (length - f.precision) (f.minExponent - t.exponent)
  let half := 2 ^ (dropped - 1).toNat
  !t.exact && f.minExponent ≤ length + t.exponent &&
    (t.mantissa % (2 * half) == half || t.mantissa % (2 * half) + 1 == half)

end Truncated

namespace Format

/-- Precision is given out in words of this many bits. -/
def wordBits : Nat := 64

/-- The least number of bits in whole words. -/
def wholeWords (bits : Nat) : Nat :=
  (bits + (wordBits - 1)) / wordBits * wordBits

/-- The number to which a numeral rounds in working precision, which is raised
by `step` and then by a fifth of itself each time. -/
def settleNumeral (f : Format) (n : Numeral) : Nat → Nat → Nat → Floating f
  | 0, _, _ => f.roundNumeral n
  | fuel + 1, precision, step =>
    let t := Truncated.ofNumeral (precision + wordBits) n
    if t.isUndecided f then
      settleNumeral f n fuel (precision + step) (wholeWords ((precision + step) / 5))
    else f.round n.negative t.mantissa 1 t.exponent

/-- The number to which a numeral rounds in working precision.  With more bits
than the coefficient and the power of ten have together, every numeral is
decided. -/
def scaleNumeral (f : Format) (n : Numeral) : Floating f :=
  let size := n.coefficient.log2 + 4 * n.exponent.natAbs
  f.settleNumeral n (size + 1) (f.precision + wordBits) wordBits

/-- The number for a numeral.  Numerals whose coefficient is a mantissa of the
format are rounded correctly, and longer ones in working precision. -/
def readNumeral (f : Format) (n : Numeral) : Floating f :=
  if n.coefficient < 2 ^ f.precision then f.ofNumeral n
  else f.roundInRange f.scaleNumeral n

end Format

end Abacus
