/-
Abacus.Enclosure.Functions — enclosures of the elementary functions.

Arguments are reduced to where the power series converge fast: exponentials
by multiples of `log 2`, circular functions by multiples of a quarter turn,
arc tangents by halving the angle, logarithms by powers of two.
-/
import Abacus.Enclosure.Series

namespace Abacus

attribute [local instance (2000)] instPowNat

namespace Interval

/-- The exponential. -/
def exp (w : Nat) (x : Interval) : Enclosure :=
  let l := logTwo w
  let k := x.lower.fdiv l.lower
  let root := expSmall w ((x.sub (l.scale k)).shift (-1))
  .ofInterval w (root.square w) k

/-- The natural logarithm of `m * 2 ^ exponent`, for a positive `m`.  With a
power of two taken out, a number between `√½` and `√2` remains. -/
def log (w : Nat) (m : Nat) (exponent : Int) : Interval :=
  let bits := m.log2 + 1
  let bits := if 2 * m * m < 2 ^ (2 * bits) then bits - 1 else bits
  let unit := 2 ^ bits
  let z := ofRatio w ((m : Int) - unit) (m + unit)
  ((atanhSmall w z).scale 2).add ((logTwo w).scale (exponent + bits))

/-- `1 / (m * 2 ^ exponent)`, for a positive `m`. -/
def reciprocal (w : Nat) (m : Nat) (exponent : Int) : Interval :=
  if (w : Int) < exponent then ⟨0, 1⟩
  else
    let num : Int := 2 ^ (w - exponent).toNat
    ⟨num.fdiv m, fceil num m⟩

/-- The tangent of half an angle from the tangent of the angle. -/
def halveTangent (w : Nat) (t : Interval) : Interval :=
  let one := ofInt w 1
  (t.divPos? w (one.add ((one.add (t.mul w t)).sqrt w))).getD t

/-- The arc tangent of numbers between zero and about one. -/
def atanUnit (w : Nat) (t : Interval) : Interval :=
  let quarter := halveTangent w (halveTangent w t)
  (atanSmall w (halveTangent w (halveTangent w quarter))).scale 16

/-- The angle with tangent `num / den`, for numbers that are not negative. -/
def angle? (w : Nat) (num den : Interval) : Option Interval :=
  if num.lower ≤ den.lower then (num.divPos? w den).map (atanUnit w)
  else (den.divPos? w num).map (fun t => (halfPi w).sub (atanUnit w t))

end Interval

namespace Finite

variable {f : Format}

/-- The number of quarter turns nearest to `x`, and what remains. -/
def quarterTurns (w : Nat) (x : Finite f) : Int × Interval :=
  let extra := x.binaryExponent.toNat + 8
  let h := Interval.halfPi (w + extra)
  let wide := Interval.ofDyadic (w + extra) x.signedMantissa x.exponent
  let k := (2 * wide.lower + h.lower).fdiv (2 * h.lower)
  (k, (wide.sub (h.scale k)).coarsen extra)

/-- The sine after `k` quarter turns more. -/
def sineAfter (w : Nat) (x : Finite f) (turns : Int) : Interval :=
  let (k, r) := x.quarterTurns w
  match ((k + turns) % 4).toNat with
  | 0 => r.sinSmall w
  | 1 => r.cosSmall w
  | 2 => (r.sinSmall w).neg
  | _ => (r.cosSmall w).neg

/-- The arc tangent of the magnitude. -/
def encloseAtan (w : Nat) (x : Finite f) : Interval :=
  if x.binaryExponent ≤ 0 then
    Interval.atanUnit w (.ofDyadic w x.mantissa x.exponent)
  else (Interval.halfPi w).sub (Interval.atanUnit w (.reciprocal w x.mantissa x.exponent))

/-- The arc sine of the magnitude, at most one. -/
def encloseAsin (w : Nat) (x : Finite f) : Option Interval :=
  let k := (-x.exponent).toNat
  let rest : Int := 2 ^ (2 * k) - x.mantissa * x.mantissa
  let cosine := (Interval.ofDyadic w rest (-(2 * k : Int))).sqrt w
  Interval.angle? w (.ofDyadic w x.mantissa x.exponent) cosine

/-- The arc cosine, for a magnitude of at most one. -/
def encloseAcos (w : Nat) (x : Finite f) : Option Interval :=
  let one := Interval.ofInt w 1
  let point := Interval.ofDyadic w x.signedMantissa x.exponent
  (Interval.angle? w ((one.sub point).sqrt w) ((one.add point).sqrt w)).map (.scale 2)

/-- The hyperbolic sine of the magnitude.  Beyond `w` bits the decreasing
exponential is below the last place of the increasing one. -/
def encloseSinh (w : Nat) (x : Finite f) : Enclosure :=
  let point := Interval.ofDyadic w x.mantissa x.exponent
  let up := point.exp w
  if up.scale ≤ 0 then
    let down := (point.neg.exp w).toInterval w
    .ofInterval w ((up.toInterval w).sub down) (-1)
  else ⟨up.lower - 1, up.upper, up.scale - 1⟩

/-- `x ^ y` for a positive `x`, as the exponential of `y` times the
logarithm. -/
def enclosePow (w : Nat) (x y : Finite f) : Enclosure :=
  let wide := w + y.binaryExponent.toNat
  let l := Interval.log wide x.mantissa x.exponent
  let product := (l.scale y.signedMantissa).shift (y.exponent - y.binaryExponent.toNat)
  product.exp w

end Finite

end Abacus
