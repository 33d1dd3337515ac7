/-
Abacus.NumberSystem.Float — double precision.

Results that are infinite or undefined are errors, so every value is finite.
-/
import Abacus.NumberSystem

namespace Abacus.NumberSystem

namespace Float

/-- Distance below which a number counts as an integer or as zero. -/
def tolerance : Binary64 :=
  .ofNumeral ⟨false, 1, -10⟩

/-- The largest number whose factorial is in range. -/
def factorialLimit : Nat := 170

/-- A whole number in double precision. -/
def ofInt (n : Int) : Binary64 :=
  Format.binary64.ofInt n

/-- `x < y`; false if either is not finite. -/
def lt : Binary64 → Binary64 → Bool
  | .finite x, .finite y => x.lt y
  | _, _ => false

/-- The magnitude. -/
def abs : Binary64 → Binary64
  | .finite x => .finite x.abs
  | .infinite _ => .infinite false
  | .nan => .nan

/-- The double nearest to a literal. -/
def readLiteral (text : String) : Except EvaluationError Binary64 :=
  match Binary64.read? text with
  | none => .error (.invalidLiteral text)
  | some x => if x.isFinite then .ok x else .error (.overflow (.literal text))

/-- A variable must be finite. -/
def ofVariable (name : String) (value : Binary64) : Except EvaluationError Binary64 :=
  if value.isFinite then .ok value else .error (.overflow (.variableNotFinite name))

/-- The quotient by a number other than zero. -/
def div (x y : Binary64) : Except EvaluationError Binary64 :=
  if y.isZero then .error .divisionByZero else (x.div y).checked .division

/-- A power; zero has no negative ones. -/
def pow (x y : Binary64) : Except EvaluationError Binary64 :=
  if x.isZero && lt y (ofInt 0) then .error .divisionByZero
  else (Binary64.pow x y).checked .power

/-- The factorial of a number that is an integer up to the tolerance. -/
def factorial (value : Binary64) : Except EvaluationError Binary64 :=
  match value with
  | .finite x =>
    let n := x.nearestInteger
    if lt tolerance (abs (value.sub (ofInt n))) then
      .error (.domain (.fractionalFactorial value.format))
    else if n < 0 then
      .error (.domain (.negativeFactorial (Binary64.format (ofInt n))))
    else if factorialLimit < n then
      .error (.overflow (.factorialLimit (Binary64.format (ofInt n)) factorialLimit))
    else
      .ok ((List.range' 2 (n.toNat - 1)).foldl (fun acc (k : Nat) => acc.mul (ofInt k)) (ofInt 1))
  | _ => .error (.domain (.undefined .factorial))

/-- The square root of a number that is not negative. -/
def sqrt : Binary64 → Binary64
  | .finite x => x.sqrt
  | x => x

/-- A function, where it is defined. -/
def apply (f : Elementary) (x : Binary64) : Except EvaluationError Binary64 :=
  match f with
  | .sin => (x.viaMachine .sin).checked (.function f)
  | .cos => (x.viaMachine .cos).checked (.function f)
  | .tan => (x.viaMachine .tan).checked (.function f)
  | .exp => (x.viaMachine .exp).checked (.function f)
  | .atan => (x.viaMachine .atan).checked (.function f)
  | .sinh => (x.viaMachine .sinh).checked (.function f)
  | .log =>
    if !lt (ofInt 0) x then .error (.domain (.logOfNonPositive x.format))
    else (x.viaMachine .log).checked (.function f)
  | .sqrt =>
    if lt x (ofInt 0) then .error (.domain (.rootOfNegative x.format))
    else (sqrt x).checked (.function f)
  | .asin =>
    if lt (ofInt 1) (abs x) then .error (.domain (.outsideUnitInterval f x.format))
    else (x.viaMachine .asin).checked (.function f)
  | .acos =>
    if lt (ofInt 1) (abs x) then .error (.domain (.outsideUnitInterval f x.format))
    else (x.viaMachine .acos).checked (.function f)
  | .cot =>
    let t := x.viaMachine .tan
    if lt (abs t) tolerance then .error (.domain (.cotangentPole x.format))
    else ((ofInt 1).div t).checked (.function f)

end Float

/-- Double-precision numbers. -/
def float : NumberSystem Binary64 where
  capabilities := .all
  readLiteral := Float.readLiteral
  ofVariable := Float.ofVariable
  add x y := (x.add y).checked .addition
  sub x y := (x.sub y).checked .subtraction
  mul x y := (x.mul y).checked .multiplication
  div := Float.div
  pow := Float.pow
  neg x := x.neg
  factorial := Float.factorial
  apply := Float.apply
  render x := x.format

end Abacus.NumberSystem
