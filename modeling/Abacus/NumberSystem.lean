/-
Abacus.NumberSystem — what an expression is computed in.

A number system reads literals and variables as its numbers, computes with
them, and prints them.  It also says which part of the grammar it takes.
Variables are kept in double precision whatever the number system.
-/
import Abacus.Evaluation.Error
import Abacus.Floating.Binary64

namespace Abacus

/-- Variables by name. -/
abbrev Environment := String → Option Binary64

/-- Numbers of type `V`, with the operations expressions use. -/
structure NumberSystem (V : Type) where
  capabilities : Capabilities
  readLiteral : String → Except EvaluationError V
  ofVariable : String → Binary64 → Except EvaluationError V
  add : V → V → Except EvaluationError V
  sub : V → V → Except EvaluationError V
  mul : V → V → Except EvaluationError V
  div : V → V → Except EvaluationError V
  pow : V → V → Except EvaluationError V
  neg : V → V
  factorial : V → Except EvaluationError V
  apply : Elementary → V → Except EvaluationError V
  render : V → String

/-- A floating-point result passes if it is finite. -/
def Floating.checked {f : Format} (origin : Origin) :
    Floating f → Except EvaluationError (Floating f)
  | .nan => .error (.domain (.undefined origin))
  | .infinite _ => .error (.overflow (.result origin))
  | .finite x => .ok (.finite x)

/-- The product of the numbers from one to `n`, times `acc`. -/
def productUpTo (acc : Nat) : Nat → Nat
  | 0 => acc
  | n + 1 => productUpTo (acc * (n + 1)) n

end Abacus
