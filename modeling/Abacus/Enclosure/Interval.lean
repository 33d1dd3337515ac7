/-
Abacus.Enclosure.Interval — intervals with fixed-point ends.

An interval is a pair of integers, read as multiples of `2 ^ -w` for a number
of fraction bits `w` that its user keeps.  Every operation rounds its lower
end down and its upper end up, so the interval it returns holds the results
for all points of the intervals it was given.
-/
import Abacus.Floating.Basic

namespace Abacus

attribute [local instance (2000)] instPowNat

/-- The numbers from `lower * 2 ^ -w` to `upper * 2 ^ -w`. -/
structure Interval where
  lower : Int
  upper : Int
deriving DecidableEq, Repr

/-- `num / den` rounded up, for a positive `den`. -/
def fceil (num den : Int) : Int :=
  -((-num).fdiv den)

/-- `m * 2 ^ shift` rounded down. -/
def shiftDown (m : Int) (shift : Int) : Int :=
  if 0 ≤ shift then m * 2 ^ shift.toNat else m >>> (-shift).toNat

/-- `m * 2 ^ shift` rounded up. -/
def shiftUp (m : Int) (shift : Int) : Int :=
  -shiftDown (-m) shift

namespace Interval

/-- One point, an integer. -/
def ofInt (w : Nat) (n : Int) : Interval :=
  ⟨n * 2 ^ w, n * 2 ^ w⟩

/-- `m * 2 ^ exponent`, exactly where `w` bits suffice. -/
def ofDyadic (w : Nat) (m : Int) (exponent : Int) : Interval :=
  ⟨shiftDown m (exponent + w), shiftUp m (exponent + w)⟩

/-- `num / den` for a positive `den`. -/
def ofRatio (w : Nat) (num den : Int) : Interval :=
  ⟨(num * 2 ^ w).fdiv den, fceil (num * 2 ^ w) den⟩

/-- Sums. -/
def add (x y : Interval) : Interval :=
  ⟨x.lower + y.lower, x.upper + y.upper⟩

/-- Negatives. -/
def neg (x : Interval) : Interval :=
  ⟨-x.upper, -x.lower⟩

/-- Differences. -/
def sub (x y : Interval) : Interval :=
  x.add y.neg

/-- Products with an integer. -/
def scale (n : Int) (x : Interval) : Interval :=
  if 0 ≤ n then ⟨n * x.lower, n * x.upper⟩ else ⟨n * x.upper, n * x.lower⟩

/-- Products with a power of two. -/
def shift (x : Interval) (k : Int) : Interval :=
  ⟨shiftDown x.lower k, shiftUp x.upper k⟩

/-- Quotients by a positive number. -/
def divNat (x : Interval) (n : Nat) : Interval :=
  ⟨x.lower.fdiv n, fceil x.upper n⟩

/-- Products. -/
def mul (w : Nat) (x y : Interval) : Interval :=
  let a := x.lower * y.lower
  let b := x.lower * y.upper
  let c := x.upper * y.lower
  let d := x.upper * y.upper
  ⟨shiftDown (min (min a b) (min c d)) (-w), shiftUp (max (max a b) (max c d)) (-w)⟩

/-- Squares, none of which is below zero. -/
def square (w : Nat) (x : Interval) : Interval :=
  let product := x.mul w x
  ⟨max 0 product.lower, product.upper⟩

/-- Quotients; `none` if the divisor may be zero or less. -/
def divPos? (w : Nat) (x y : Interval) : Option Interval :=
  if 0 < y.lower then
    some ⟨min ((x.lower * 2 ^ w).fdiv y.lower) ((x.lower * 2 ^ w).fdiv y.upper),
      max (fceil (x.upper * 2 ^ w) y.lower) (fceil (x.upper * 2 ^ w) y.upper)⟩
  else none

/-- Quotients; `none` if the divisor may be zero. -/
def div? (w : Nat) (x y : Interval) : Option Interval :=
  if y.upper < 0 then x.neg.divPos? w y.neg else x.divPos? w y

/-- Square roots of the numbers that are not negative. -/
def sqrt (w : Nat) (x : Interval) : Interval :=
  ⟨(x.lower.toNat * 2 ^ w).sqrt, (x.upper.toNat * 2 ^ w).sqrt + 1⟩

/-- The largest magnitude, as a multiple of `2 ^ -w`. -/
def magnitude (x : Interval) : Nat :=
  max x.lower.natAbs x.upper.natAbs

/-- Widen at both ends. -/
def widen (x : Interval) (amount : Nat) : Interval :=
  ⟨x.lower - amount, x.upper + amount⟩

/-- Go from `w + k` fraction bits to `w`. -/
def coarsen (x : Interval) (k : Nat) : Interval :=
  x.shift (-k)

end Interval

/-- The numbers from `lower * 2 ^ scale` to `upper * 2 ^ scale`. -/
structure Enclosure where
  lower : Int
  upper : Int
  scale : Int
deriving DecidableEq, Repr

namespace Enclosure

/-- An interval with `w` fraction bits, times `2 ^ k`. -/
def ofInterval (w : Nat) (x : Interval) (k : Int) : Enclosure :=
  ⟨x.lower, x.upper, k - w⟩

/-- Back to an interval with `w` fraction bits. -/
def toInterval (w : Nat) (e : Enclosure) : Interval :=
  ⟨shiftDown e.lower (e.scale + w), shiftUp e.upper (e.scale + w)⟩

/-- The one floating-point number to which all numbers of an enclosure round,
if there is one. -/
def round? (f : Format) (e : Enclosure) : Option (Floating f) :=
  Floating.common? (f.round (e.lower < 0) e.lower.natAbs 1 e.scale)
    (f.round (e.upper < 0) e.upper.natAbs 1 e.scale)

end Enclosure

end Abacus
