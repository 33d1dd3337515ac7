/-
Abacus.Word — counts and places that fit in a machine word.

Digits and their places are counted in words of 64 bits.  A count that does
not fit has no answer.
-/

namespace Abacus.Word

/-- The number of words. -/
def modulus : Nat := 0x10000000000000000

/-- The largest count. -/
def largest : Nat := modulus - 1

/-- A count, if it fits in a word. -/
def natural? (n : Nat) : Option Nat :=
  if n < modulus then some n else none

theorem natural?_eq_some_iff {n m : Nat} : natural? n = some m ↔ n < modulus ∧ n = m := by
  by_cases h : n < modulus <;> simp [natural?, h]

/-- A place, if it fits in a word with a sign. -/
def integer? (n : Int) : Option Int :=
  if -(modulus / 2 : Int) ≤ n ∧ n < modulus / 2 then some n else none

theorem integer?_eq_some_iff {n m : Int} :
    integer? n = some m ↔ (-(modulus / 2 : Int) ≤ n ∧ n < modulus / 2) ∧ n = m := by
  by_cases h : -(modulus / 2 : Int) ≤ n ∧ n < modulus / 2
  · simp [integer?, h]
  · rw [integer?, if_neg h]
    simp [h]

/-- The place whose word is that of a count. -/
def signed (n : Nat) : Int :=
  Int.bmod n modulus

/-- A count below half the words is its own place. -/
theorem signed_of_lt {n : Nat} (h : n < modulus / 2) : signed n = n := by
  have hn : n < 0x8000000000000000 := h
  rw [signed, modulus, Int.bmod_eq_of_le] <;> omega

end Abacus.Word
