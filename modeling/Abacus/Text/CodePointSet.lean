/-
Abacus.Text.CodePointSet — sets of characters as tables.

A set is written as the increasing list of the code points at which membership
changes: the first is the least member, the second the least greater code
point that is not a member, and so on.
-/

namespace Abacus

/-- A set of code points. -/
structure CodePointSet where
  changes : List Nat
deriving DecidableEq, Repr

namespace CodePointSet

/-- Membership of `n`, given membership before the changes. -/
def isInside (n : Nat) (inside : Bool) : List Nat → Bool
  | [] => inside
  | change :: changes => if n < change then inside else isInside n (!inside) changes

/-- The character is in the set. -/
def contains (s : CodePointSet) (c : Char) : Bool :=
  isInside c.toNat false s.changes

end CodePointSet

end Abacus
