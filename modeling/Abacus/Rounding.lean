/-
Abacus.Rounding — rounding a quotient to a natural number.

Both number formats and the printing of decimal digits round quotients to the
nearest natural number; they differ in what becomes of a tie.
-/

namespace Abacus

/-- What becomes of a quotient halfway between two natural numbers. -/
inductive Tie where
  /-- It goes to the even one. -/
  | even
  /-- It goes to the larger one. -/
  | up
deriving DecidableEq, Repr

/-- The natural number chosen for `q + 1/2`. -/
def Tie.resolve : Tie → Nat → Nat
  | even, q => q + q % 2
  | up, q => q + 1

/-- The natural number nearest to `num / den`. -/
def roundDiv (tie : Tie) (num den : Nat) : Nat :=
  let q := num / den
  let r := 2 * (num % den)
  if r < den then q else if den < r then q + 1 else tie.resolve q

/-- `num / den`, rounded up. -/
def ceilDiv (num den : Nat) : Nat :=
  (num + (den - 1)) / den

/-- The `e` with `2 ^ (e - 1) ≤ num / den < 2 ^ e`, for positive `num` and
`den`. -/
def exponentAbove (num den : Nat) : Int :=
  let gap : Int := (num.log2 : Int) - den.log2
  if den <<< gap.toNat ≤ num <<< (-gap).toNat then gap + 1 else gap

end Abacus
