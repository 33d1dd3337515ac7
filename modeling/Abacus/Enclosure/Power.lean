/-
Abacus.Enclosure.Power — rounding powers without writing them out.

A power of a natural number is enclosed between two numbers of few bits each.
When both ends of the enclosure round to the same floating-point number, the
power between them does so as well; otherwise the enclosure is computed again
with twice as many bits.  With as many bits as the power has, both ends are
the power itself, so the search ends.
-/
import Abacus.Floating.Basic
import Abacus.Numeral.Basic

namespace Abacus

attribute [local instance (2000)] instPowNat

/-- Two numbers `lower * 2 ^ shift ≤ upper * 2 ^ shift`. -/
structure Bracket where
  lower : Nat
  upper : Nat
  shift : Nat
deriving DecidableEq, Repr

namespace Bracket

/-- Cut a bracket down to about `bits` bits, outwards. -/
def trim (bits : Nat) (b : Bracket) : Bracket :=
  let extra := b.upper.log2 + 1 - bits
  ⟨b.lower >>> extra, ceilDiv b.upper (2 ^ extra), b.shift + extra⟩

/-- The squares of what is in a bracket. -/
def square (b : Bracket) : Bracket :=
  ⟨b.lower * b.lower, b.upper * b.upper, 2 * b.shift⟩

/-- What is in a bracket, `n` times. -/
def scale (n : Nat) (b : Bracket) : Bracket :=
  ⟨n * b.lower, n * b.upper, b.shift⟩

/-- A bracket around `base ^ n`, by repeated squaring on about `bits` bits. -/
def power (bits base : Nat) (n : Nat) : Bracket :=
  if n = 0 then ⟨1, 1, 0⟩
  else
    let half := (power bits base (n / 2)).square
    trim bits (if n % 2 = 1 then half.scale base else half)
termination_by n
decreasing_by omega

end Bracket

namespace Format

variable (f : Format)

/-- Try enclosures of twice as many bits each time until one is decided. -/
def refine (attempt : Nat → Option (Floating f)) (final : Unit → Floating f) :
    Nat → Nat → Floating f
  | 0, _ => final ()
  | fuel + 1, bits =>
    match attempt bits with
    | some x => x
    | none => refine attempt final fuel (2 * bits)

/-- The number nearest to `± num * base ^ n * 2 ^ scale`. -/
def roundTimesPower (negative : Bool) (num base n : Nat) (scale : Int) : Floating f :=
  let size := n * (base.log2 + 1)
  if size ≤ 4096 then f.round negative (num * base ^ n) 1 scale
  else
    f.refine
      (fun bits =>
        let b := Bracket.power bits base n
        Floating.common? (f.round negative (num * b.lower) 1 (scale + b.shift))
          (f.round negative (num * b.upper) 1 (scale + b.shift)))
      (fun _ => f.round negative (num * base ^ n) 1 scale)
      (size.log2 + 1) (f.precision + n.log2 + 64)

/-- The number nearest to `± num / base ^ n * 2 ^ scale`; a bracket that may hold
zero decides nothing. -/
def roundOverPower (negative : Bool) (num base n : Nat) (scale : Int) : Floating f :=
  let size := n * (base.log2 + 1)
  if size ≤ 4096 then f.round negative num (base ^ n) scale
  else
    f.refine
      (fun bits =>
        let b := Bracket.power bits base n
        if b.lower = 0 then none
        else
          Floating.common? (f.round negative num b.upper (scale - b.shift))
            (f.round negative num b.lower (scale - b.shift)))
      (fun _ => f.round negative num (base ^ n) scale)
      (size.log2 + 1) (f.precision + n.log2 + 64)

/-- The number nearest to a numeral with a positive coefficient. -/
def roundNumeral (n : Numeral) : Floating f :=
  if 0 ≤ n.exponent then
    f.roundTimesPower n.negative n.coefficient 5 n.exponent.toNat n.exponent
  else f.roundOverPower n.negative n.coefficient 5 (-n.exponent).toNat n.exponent

/-- Round a numeral, unless it is zero or its power of ten puts it beyond the
range of the format.  The latter is decided by `8 < 10` alone. -/
def roundInRange (round : Numeral → Floating f) (n : Numeral) : Floating f :=
  let bound : Int := n.coefficient.log2 + 1 + 3 * n.exponent
  if n.coefficient = 0 then .finite (.zero n.negative)
  else if 0 ≤ n.exponent ∧ f.maxExponent < bound then .infinite n.negative
  else if n.exponent < 0 ∧ bound < f.minExponent then .finite (.zero n.negative)
  else round n

/-- The number nearest to a numeral. -/
def ofNumeral (n : Numeral) : Floating f :=
  f.roundInRange f.roundNumeral n

end Format

namespace Finite

variable {f : Format}

/-- The rounded power with a natural exponent.  The mantissa is first freed
of its factors of two, which only move the exponent. -/
def natPow (x : Finite f) (n : Nat) : Floating f :=
  let twos := x.mantissa.gcd (2 ^ f.precision)
  let odd := x.mantissa / twos
  f.roundTimesPower (x.negative && n % 2 == 1) 1 odd n ((x.exponent + twos.log2) * n)

end Finite

end Abacus
