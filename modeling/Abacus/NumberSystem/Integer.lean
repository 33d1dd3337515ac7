/-
Abacus.NumberSystem.Integer — whole numbers of any size.

Every result is exact.  A quotient that is no integer is an error, and so is
a variable that is none; there are no fractions, powers or functions.
-/
import Abacus.NumberSystem

namespace Abacus.NumberSystem

namespace Integer

/-- A natural number: digits, among which `_` may separate groups. -/
def readNatural? (cs : List Char) : Option Nat :=
  if cs.isEmpty || cs.head? = some '_' || !cs.all (fun c => c.isDigit || c = '_') then none
  else some (digitsValue (cs.filter Char.isDigit))

/-- A natural number with or without one sign. -/
def read? : List Char → Option Int
  | '-' :: cs => (readNatural? cs).map (fun n => -(n : Int))
  | '+' :: cs => (readNatural? cs).map (fun n => (n : Int))
  | cs => (readNatural? cs).map (fun n => (n : Int))

/-- The integer a literal writes. -/
def readLiteral (text : String) : Except EvaluationError Int :=
  match read? text.toList with
  | some n => .ok n
  | none => .error (.invalidLiteral text)

/-- A variable must be a finite integer. -/
def ofVariable (name : String) (value : Binary64) : Except EvaluationError Int :=
  match value with
  | .finite x =>
    if x.isIntegral then .ok x.floor
    else .error (.overflow (.variableNotIntegral name value.text))
  | _ => .error (.overflow (.variableNotFinite name))

/-- The quotient, if it is an integer. -/
def div (x y : Int) : Except EvaluationError Int :=
  if y = 0 then .error .divisionByZero
  else if x % y ≠ 0 then .error (.inexactDivision x y)
  else .ok (x / y)

/-- The factorial of a number that is not negative. -/
def factorial (x : Int) : Except EvaluationError Int :=
  if x < 0 then .error (.domain (.negativeFactorial (toString x)))
  else .ok (productUpTo 1 x.toNat)

end Integer

/-- Exact whole numbers. -/
def integer : NumberSystem Int where
  capabilities := .integer
  readLiteral := Integer.readLiteral
  ofVariable := Integer.ofVariable
  add x y := .ok (x + y)
  sub x y := .ok (x - y)
  mul x y := .ok (x * y)
  div := Integer.div
  pow _ _ := .error .unsupportedPower
  neg x := -x
  factorial := Integer.factorial
  apply f _ := .error (.unsupportedFunction f)
  render x := toString x

end Abacus.NumberSystem
