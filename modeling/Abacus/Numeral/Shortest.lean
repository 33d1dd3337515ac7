/-
Abacus.Numeral.Shortest — the shortest numeral that reads back.

Of the numerals that read back as a given floating-point number, the one with
the fewest digits is chosen, and among those of that length the one nearest to
the number; if two are equally near, the larger magnitude.  A numeral on a
decimal grid can only read back if one of the two grid points around the
number does, so the search tries those two for one digit, two digits, and so
on.
-/
import Abacus.Enclosure.Power
import Abacus.Numeral.Plain

namespace Abacus

attribute [local instance (2000)] instPowNat

/-- The least `k` with `num / den < 10 ^ k`, for positive `num` and `den`. -/
def decimalExponentAbove (num den : Nat) : Int :=
  let k : Int := ((digitChars num).length : Int) - (digitChars den).length
  if num * 10 ^ (-k).toNat < den * 10 ^ k.toNat then k else k + 1

namespace Finite

variable {f : Format}

/-- A quotient of natural numbers equal to the magnitude. -/
def magnitudeRatio (x : Finite f) : Nat × Nat :=
  (x.mantissa * 2 ^ x.exponent.toNat, 2 ^ (-x.exponent).toNat)

/-- The numeral with exactly the value of a number. -/
def exactNumeral (x : Finite f) : Numeral :=
  if 0 ≤ x.exponent then ⟨x.negative, x.mantissa * 2 ^ x.exponent.toNat, 0⟩
  else ⟨x.negative, x.mantissa * 5 ^ (-x.exponent).toNat, x.exponent⟩

/-- The numeral reads back as this number. -/
def readsBack (x : Finite f) (n : Numeral) : Bool :=
  f.ofNumeral n = .finite x

/-- The numeral of `count` digits nearest to a number that reads back as it,
if one of the two around it does; `point` is the least power of ten above the
magnitude. -/
def numeralOfLength? (x : Finite f) (point : Int) (count : Nat) : Option Numeral :=
  let (num, den) := x.magnitudeRatio
  let places : Int := count - point
  let num := num * 10 ^ places.toNat
  let den := den * 10 ^ (-places).toNat
  let below : Numeral := ⟨x.negative, num / den, -places⟩
  let above : Numeral := ⟨x.negative, num / den + 1, -places⟩
  if x.readsBack below && (2 * (num % den) < den || !x.readsBack above) then some below
  else if x.readsBack above then some above
  else none

/-- The shortest numeral that reads back; as many as `limit` digits are
tried. -/
def shortestNumeral (x : Finite f) (limit : Nat) : Numeral :=
  let (num, den) := x.magnitudeRatio
  let point := decimalExponentAbove num den
  if x.isZero then ⟨x.negative, 0, 0⟩
  else
    match (List.range limit).findSome? (fun n => x.numeralOfLength? point (n + 1)) with
    | some n => n
    | none => x.exactNumeral

end Finite

end Abacus
