/-
Abacus.Floating.Elementary — correctly rounded elementary functions.

Each function is enclosed more and more narrowly until both ends of the
enclosure round to the same number.  Arguments whose result is known without
an enclosure (zero, far beyond the range, or so close to zero that the
function is the identity up to rounding) are taken first.
-/
import Abacus.Enclosure.Functions
import Abacus.Enclosure.Power
import Abacus.Floating.Arithmetic

namespace Abacus

attribute [local instance (2000)] instPowNat

namespace Format

/-- How often an enclosure is refined before its lower end is taken. -/
def refinements : Nat := 6

/-- A number of more bits before the point is beyond all exponents. -/
def exponentBits (f : Format) : Int :=
  (max f.minExponent.natAbs f.maxExponent.natAbs).log2 + 1

/-- The number to which an enclosure of enough bits rounds. -/
def settle (f : Format) (extra : Nat) (enclose : Nat → Option Enclosure) : Floating f :=
  let start := f.precision + 64 + extra
  f.refine (fun w => (enclose w).bind (Enclosure.round? f))
    (fun _ =>
      match enclose (start * 2 ^ refinements) with
      | some e => f.round (e.lower < 0) e.lower.natAbs 1 e.scale
      | none => .nan)
    refinements start

end Format

/-- Zero in place of a positive number whose reciprocal is out of range. -/
def Floating.zeroUnlessInvertible {f : Format} : Floating f → Floating f
  | finite x => if x.binaryExponent ≤ -f.maxExponent then finite (.zero false) else finite x
  | x => x

namespace Finite

variable {f : Format}

/-- Bits by which a magnitude lies below one. -/
def depth (x : Finite f) : Nat :=
  (-x.binaryExponent).toNat

/-- A function that is `x + O(x ^ 3)` returns such an `x` itself. -/
def isTiny (x : Finite f) : Bool :=
  x.isZero || x.binaryExponent ≤ -(f.precision : Int)

/-- The exponential of such an `x` is out of range. -/
def isVast (x : Finite f) : Bool :=
  f.exponentBits < x.binaryExponent

/-- Give an enclosure of a magnitude the sign of `x`. -/
def signed (x : Finite f) (e : Enclosure) : Enclosure :=
  if x.negative then ⟨-e.upper, -e.lower, e.scale⟩ else e

/-- The sine. -/
def sin (x : Finite f) : Floating f :=
  if x.isTiny then .finite x
  else f.settle x.depth (fun w => some (.ofInterval w (x.sineAfter w 0) 0))

/-- The cosine. -/
def cos (x : Finite f) : Floating f :=
  if x.isTiny then .one
  else f.settle 0 (fun w => some (.ofInterval w (x.sineAfter w 1) 0))

/-- The tangent. -/
def tan (x : Finite f) : Floating f :=
  if x.isTiny then .finite x
  else f.settle x.depth (fun w =>
    ((x.sineAfter w 0).div? w (x.sineAfter w 1)).map (fun t => .ofInterval w t 0))

/-- The exponential; zero where the exponential of `-x` is out of range. -/
def exp (x : Finite f) : Floating f :=
  if x.isVast then if x.negative then .finite (.zero false) else .infinite false
  else (f.settle 0 (fun w =>
    some (Interval.exp w (.ofDyadic w x.signedMantissa x.exponent)))).zeroUnlessInvertible

/-- The natural logarithm of a positive number. -/
def log (x : Finite f) : Floating f :=
  f.settle 0 (fun w => some (.ofInterval w (Interval.log w x.mantissa x.exponent) 0))

/-- The arc tangent. -/
def atan (x : Finite f) : Floating f :=
  if x.isTiny then .finite x
  else f.settle x.depth (fun w => some (x.signed (.ofInterval w (x.encloseAtan w) 0)))

/-- The arc sine, for a magnitude of at most one. -/
def asin (x : Finite f) : Floating f :=
  if x.isTiny then .finite x
  else f.settle x.depth (fun w =>
    (x.encloseAsin w).map (fun a => x.signed (.ofInterval w a 0)))

/-- The arc cosine, for a magnitude of at most one. -/
def acos (x : Finite f) : Floating f :=
  if Floating.finite x = .one then .finite (.zero false)
  else f.settle 0 (fun w => (x.encloseAcos w).map (fun a => .ofInterval w a 0))

/-- The hyperbolic sine; infinite where the exponential of the magnitude is out
of range, although half of that may be within it. -/
def sinh (x : Finite f) : Floating f :=
  if x.isTiny then .finite x
  else if !x.abs.exp.isFinite then .infinite x.negative
  else f.settle x.depth (fun w => some (x.signed (x.encloseSinh w)))

/-- A positive number to the power of any number; zero where the power with
the exponent `-y` is out of range. -/
def pow (x y : Finite f) : Floating f :=
  match x.log with
  | .finite l =>
    let size := l.binaryExponent + y.binaryExponent
    if l.isZero || y.isZero then .one
    else if f.exponentBits + 1 < size then
      if l.negative = y.negative then .infinite false else .finite (.zero false)
    else (f.settle 0 (fun w => some (x.enclosePow w y))).zeroUnlessInvertible
  | _ => .nan

end Finite

end Abacus
