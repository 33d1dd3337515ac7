/-
Abacus.Floating.Arithmetic — correctly rounded arithmetic.

Each operation takes the exact result and rounds it to nearest with ties to
even.  It does so once, unless the format rounds products and quotients that
underflow twice.  Infinities, NaN and signed zeros follow the usual rules of binary
floating-point arithmetic.
-/
import Abacus.Floating.Basic

namespace Abacus

attribute [local instance (2000)] instPowNat

namespace Finite

variable {f g : Format}

/-- A pair `(m, e)` such that `m * 2 ^ e` rounds like `x + y` and has its
sign, where `y` has the smaller exponent.  It is the exact sum unless `y` is
so far below `x` that only its sign matters. -/
def sumOntoSmaller (x y : Finite f) : Int × Int :=
  let gap := (x.exponent - y.exponent).toNat
  if gap ≤ f.precision + 3 then
    (x.signedMantissa * 2 ^ gap + y.signedMantissa, y.exponent)
  else
    (8 * x.signedMantissa + y.signedMantissa.sign, x.exponent - 3)

/-- A pair `(m, e)` such that `m * 2 ^ e` rounds like `x + y` and has its
sign. -/
def sumParts (x y : Finite f) : Int × Int :=
  if y.exponent ≤ x.exponent then sumOntoSmaller x y else sumOntoSmaller y x

/-- The rounded sum; a sum that is exactly zero is positive unless both terms
are negative. -/
def add (x y : Finite f) : Floating f :=
  let (sum, scale) := x.sumParts y
  if sum = 0 then .finite (.zero (x.negative && y.negative))
  else f.round (sum < 0) sum.natAbs 1 scale

/-- The rounded product. -/
def mul (x y : Finite f) : Floating f :=
  f.roundProduct (x.negative != y.negative) (x.mantissa * y.mantissa) 1 (x.exponent + y.exponent)

/-- The rounded quotient by a nonzero `y`. -/
def div (x y : Finite f) : Floating f :=
  f.roundProduct (x.negative != y.negative) x.mantissa y.mantissa (x.exponent - y.exponent)

/-- `x < y`. -/
def lt (x y : Finite f) : Bool :=
  (x.sumParts y.neg).1 < 0

/-- The rounded square root of a nonnegative `x`.  The integer root of the
widened mantissa has more bits than the format keeps; one more bit says
whether the root is exact. -/
def sqrt (x : Finite f) : Floating f :=
  let shift := 2 * f.precision + 4 + (x.exponent % 2).toNat
  let radicand := x.mantissa <<< shift
  let root := radicand.sqrt
  let sticky := if root * root = radicand then 0 else 1
  if x.isZero then .finite x
  else f.round false (2 * root + sticky) 1 ((x.exponent - shift) / 2 - 1)

end Finite

namespace Floating

variable {f : Format}

/-- The rounded sum. -/
def add : Floating f → Floating f → Floating f
  | nan, _ | _, nan => nan
  | infinite s, infinite t => if s = t then infinite s else nan
  | infinite s, finite _ | finite _, infinite s => infinite s
  | finite x, finite y => x.add y

/-- The rounded difference. -/
def sub (x y : Floating f) : Floating f :=
  x.add y.neg

/-- The rounded product. -/
def mul : Floating f → Floating f → Floating f
  | nan, _ | _, nan => nan
  | infinite s, infinite t => infinite (s != t)
  | infinite s, finite x | finite x, infinite s =>
    if x.isZero then nan else infinite (s != x.negative)
  | finite x, finite y => x.mul y

/-- The rounded quotient. -/
def div : Floating f → Floating f → Floating f
  | nan, _ | _, nan => nan
  | infinite _, infinite _ => nan
  | infinite s, finite y => infinite (s != y.negative)
  | finite x, infinite t => finite (.zero (x.negative != t))
  | finite x, finite y =>
    if y.isZero then
      if x.isZero then nan else infinite (x.negative != y.negative)
    else x.div y

end Floating

end Abacus
