/-
Abacus.Enclosure.Series — power series and the constants they give.

A series whose terms at least halve is cut off where a term no longer counts;
what is left out is at most twice that term.
-/
import Abacus.Enclosure.Interval

namespace Abacus.Interval

/-- The sum of a series from its current `term` on, added to `sum`, where
`next k` turns the `k`-th term into the following one and the terms at least
halve. -/
def sumFrom (next : Nat → Interval → Interval) :
    Nat → Nat → Interval → Interval → Interval
  | 0, _, term, sum => sum.widen (2 * term.magnitude)
  | fuel + 1, k, term, sum =>
    if term.magnitude ≤ 1 then sum.widen (2 * term.magnitude)
    else sumFrom next fuel (k + 1) (next k term) (sum.add term)

/-- The sum of `power_k / (2 * k + 1)` from the current power on, where `next`
turns each power into the following one, which is at most half as large. -/
def sumOddParts (next : Interval → Interval) :
    Nat → Nat → Interval → Interval → Interval
  | 0, _, power, sum => sum.widen (2 * power.magnitude)
  | fuel + 1, k, power, sum =>
    if power.magnitude ≤ 1 then sum.widen (2 * power.magnitude)
    else sumOddParts next fuel (k + 1) (next power) (sum.add (power.divNat (2 * k + 1)))

/-- The exponential of numbers between `-1/2` and `1/2`. -/
def expSmall (w : Nat) (x : Interval) : Interval :=
  sumFrom (fun k term => (term.mul w x).divNat (k + 1)) w 0 (ofInt w 1) (ofInt w 0)

/-- The sine of numbers between `-1` and `1`. -/
def sinSmall (w : Nat) (x : Interval) : Interval :=
  let square := (x.mul w x).neg
  sumFrom (fun k term => (term.mul w square).divNat ((2 * k + 2) * (2 * k + 3)))
    w 0 x (ofInt w 0)

/-- The cosine of numbers between `-1` and `1`. -/
def cosSmall (w : Nat) (x : Interval) : Interval :=
  let square := (x.mul w x).neg
  sumFrom (fun k term => (term.mul w square).divNat ((2 * k + 1) * (2 * k + 2)))
    w 0 (ofInt w 1) (ofInt w 0)

/-- The arc tangent of numbers between `-1/2` and `1/2`. -/
def atanSmall (w : Nat) (x : Interval) : Interval :=
  let square := (x.mul w x).neg
  sumOddParts (fun power => power.mul w square) w 0 x (ofInt w 0)

/-- The inverse hyperbolic tangent of numbers between `-1/2` and `1/2`. -/
def atanhSmall (w : Nat) (x : Interval) : Interval :=
  let square := x.mul w x
  sumOddParts (fun power => power.mul w square) w 0 x (ofInt w 0)

/-- The arc tangent of `1 / n`. -/
def atanInverse (w n : Nat) : Interval :=
  sumOddParts (fun power => (power.divNat (n * n)).neg) w 0 (ofRatio w 1 n) (ofInt w 0)

/-- The inverse hyperbolic tangent of `1 / n`. -/
def atanhInverse (w n : Nat) : Interval :=
  sumOddParts (fun power => power.divNat (n * n)) w 0 (ofRatio w 1 n) (ofInt w 0)

/-- The natural logarithm of two is `2 atanh (1/3)`. -/
def logTwo (w : Nat) : Interval :=
  (atanhInverse w 3).scale 2

/-- Half of pi is `8 atan (1/5) - 2 atan (1/239)`. -/
def halfPi (w : Nat) : Interval :=
  ((atanInverse w 5).scale 8).sub ((atanInverse w 239).scale 2)

end Abacus.Interval
