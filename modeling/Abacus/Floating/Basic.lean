/-
Abacus.Floating.Basic — binary floating-point numbers of any precision.

A format fixes how many bits a mantissa has and how far exponents reach.  A
finite number of a format is kept in the one form the format allows, so two
finite numbers are equal exactly when sign and value are.  `Format.round`
gives the number of a format nearest to any exact quotient; every operation
of the calculator that rounds goes through it.
-/
import Abacus.Rounding

namespace Abacus

attribute [local instance (2000)] instPowNat

/-- How often a product or quotient below the full precision is rounded. -/
inductive Underflow where
  /-- Once, to the bits that are left. -/
  | once
  /-- First to full precision, and then to the bits that are left. -/
  | twice
deriving DecidableEq, Repr

/-- A binary floating-point format. -/
structure Format where
  /-- The number of significant bits. -/
  precision : Nat
  /-- Every number is a multiple of `2 ^ minExponent`. -/
  minExponent : Int
  /-- Every finite number is below `2 ^ maxExponent`. -/
  maxExponent : Int
  underflow : Underflow := .once
  precision_pos : 0 < precision := by decide
  room : minExponent + precision ≤ maxExponent := by decide

/-- Mantissa and exponent are in the form the format allows: the mantissa
fills its bits, or the exponent is the least one. -/
def Format.Canonical (f : Format) (mantissa : Nat) (exponent : Int) : Prop :=
  mantissa < 2 ^ f.precision ∧ f.minExponent ≤ exponent ∧
  exponent + f.precision ≤ f.maxExponent ∧
  (2 ^ (f.precision - 1) ≤ mantissa ∨ exponent = f.minExponent)

instance (f : Format) (mantissa : Nat) (exponent : Int) :
    Decidable (f.Canonical mantissa exponent) :=
  inferInstanceAs (Decidable (_ ∧ _ ∧ _ ∧ _))

/-- The finite number `± mantissa * 2 ^ exponent`. -/
structure Finite (f : Format) where
  negative : Bool
  mantissa : Nat
  exponent : Int
  canonical : f.Canonical mantissa exponent
deriving DecidableEq, Repr

/-- A number of a format, or what an operation without a finite result
gives. -/
inductive Floating (f : Format) where
  | nan
  | infinite (negative : Bool)
  | finite (x : Finite f)
deriving DecidableEq, Repr

theorem Format.canonical_zero (f : Format) : f.Canonical 0 f.minExponent :=
  ⟨Nat.two_pow_pos _, Int.le_refl _, f.room, .inr rfl⟩

namespace Finite

variable {f : Format}

/-- Zero with a sign. -/
def zero (negative : Bool) : Finite f :=
  ⟨negative, 0, f.minExponent, f.canonical_zero⟩

/-- Zero of either sign. -/
def isZero (x : Finite f) : Bool :=
  x.mantissa == 0

/-- The same magnitude with the other sign. -/
def neg (x : Finite f) : Finite f :=
  { x with negative := !x.negative }

/-- The magnitude. -/
def abs (x : Finite f) : Finite f :=
  { x with negative := false }

/-- A magnitude with the sign of `x`. -/
def withSign (x : Finite f) (magnitude : Nat) : Int :=
  if x.negative then -(magnitude : Int) else magnitude

/-- The mantissa with the sign of the number. -/
def signedMantissa (x : Finite f) : Int :=
  x.withSign x.mantissa

/-- The `e` with `2 ^ (e - 1) ≤ |x| < 2 ^ e`, for a nonzero `x`. -/
def binaryExponent (x : Finite f) : Int :=
  x.mantissa.log2 + 1 + x.exponent

end Finite

namespace Format

/-- The number with this mantissa and exponent, when a rounding may just have
carried into one bit too many; infinite beyond the range. -/
def pack (f : Format) (negative : Bool) (mantissa : Nat) (exponent : Int) : Floating f :=
  let carried := mantissa = 2 ^ f.precision
  let m := if carried then 2 ^ (f.precision - 1) else mantissa
  let e := if carried then exponent + 1 else exponent
  if h : f.Canonical m e then .finite ⟨negative, m, e, h⟩ else .infinite negative

/-- The number nearest to `± num / den * 2 ^ scale`, a tie going to the even
mantissa; infinite when that is beyond the range. -/
def round (f : Format) (negative : Bool) (num den : Nat) (scale : Int) : Floating f :=
  let top := exponentAbove num den + scale
  if num = 0 ∨ top < f.minExponent then .finite (.zero negative)
  else
    let e := max (top - f.precision) f.minExponent
    let m := roundDiv .even (num <<< (scale - e).toNat) (den <<< (e - scale).toNat)
    f.pack negative m e

/-- The exact quotient `± num / den * 2 ^ scale`, rounded to full precision
whatever its exponent, and then to a number of the format; zero when it is
below every positive number after the first rounding. -/
def roundTwice (f : Format) (negative : Bool) (num den : Nat) (scale : Int) : Floating f :=
  let e := exponentAbove num den + scale - f.precision
  let m := roundDiv .even (num <<< (scale - e).toNat) (den <<< (e - scale).toNat)
  if num = 0 ∨ m.log2 + 1 + e ≤ f.minExponent then .finite (.zero negative)
  else f.round negative m 1 e

/-- Round the exact value `± num / den * 2 ^ scale` of a product or
quotient. -/
def roundProduct (f : Format) (negative : Bool) (num den : Nat) (scale : Int) : Floating f :=
  match f.underflow with
  | .once => f.round negative num den scale
  | .twice => f.roundTwice negative num den scale

/-- The number nearest to an integer. -/
def ofInt (f : Format) (n : Int) : Floating f :=
  f.round (n < 0) n.natAbs 1 0

end Format

namespace Floating

variable {f : Format}

/-- The one of a format. -/
def one : Floating f :=
  f.ofInt 1

/-- Change the sign. -/
def neg : Floating f → Floating f
  | nan => nan
  | infinite negative => infinite (!negative)
  | finite x => finite x.neg

/-- Neither infinite nor NaN. -/
def isFinite : Floating f → Bool
  | finite _ => true
  | _ => false

/-- Zero of either sign. -/
def isZero : Floating f → Bool
  | finite x => x.isZero
  | _ => false

/-- The number that the roundings of both ends of an enclosure agree on. -/
def common? (lower upper : Floating f) : Option (Floating f) :=
  if lower = upper then some lower else none

end Floating

end Abacus
