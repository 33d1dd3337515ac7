/-
Abacus.Floating.Integers — floating-point numbers and the integers near them.

Numbers far below one are decided by their exponent alone, so that a tiny
number never has its exponent written out as a power of two.
-/
import Abacus.Floating.Basic

namespace Abacus

attribute [local instance (2000)] instPowNat

namespace Finite

variable {f : Format}

/-- The value is an integer. -/
def isIntegral (x : Finite f) : Bool :=
  if x.isZero || 0 ≤ x.exponent then true
  else if x.binaryExponent ≤ 0 then false
  else x.mantissa % 2 ^ (-x.exponent).toNat == 0

/-- The value is an odd integer. -/
def isOddIntegral (x : Finite f) : Bool :=
  x.isIntegral && x.exponent ≤ 0 && x.mantissa / 2 ^ (-x.exponent).toNat % 2 == 1

/-- The natural number nearest to `|x|`, a half going up. -/
def nearestMagnitude (x : Finite f) : Nat :=
  if 0 ≤ x.exponent then x.mantissa <<< x.exponent.toNat
  else if x.binaryExponent < 0 then 0
  else roundDiv .up x.mantissa (2 ^ (-x.exponent).toNat)

/-- The integer nearest to `x`, a half going away from zero. -/
def nearestInteger (x : Finite f) : Int :=
  x.withSign x.nearestMagnitude

/-- The nearest integer is less than `10 ^ -digits` away. -/
def isNearInteger (digits : Nat) (x : Finite f) : Bool :=
  if 0 ≤ x.exponent then true
  else if x.binaryExponent < -(4 * digits : Int) then true
  else
    let unit := 2 ^ (-x.exponent).toNat
    let distance := ((x.nearestMagnitude * unit : Int) - x.mantissa).natAbs
    distance * 10 ^ digits < unit

/-- The largest integer that is at most `x`. -/
def floor (x : Finite f) : Int :=
  if 0 ≤ x.exponent then x.signedMantissa * 2 ^ x.exponent.toNat
  else x.signedMantissa.fdiv (2 ^ (-x.exponent).toNat)

/-- The least integer that is at least `x`. -/
def ceil (x : Finite f) : Int :=
  -x.neg.floor

end Finite

namespace Floating

variable {f : Format}

/-- The largest integer that is at most `x`; zero for what is not finite. -/
def floor : Floating f → Int
  | finite x => x.floor
  | _ => 0

/-- The least integer that is at least `x`; zero for what is not finite. -/
def ceil : Floating f → Int
  | finite x => x.ceil
  | _ => 0

end Floating

end Abacus
