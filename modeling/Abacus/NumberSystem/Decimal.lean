/-
Abacus.NumberSystem.Decimal — fifty significant digits.

Values carry more bits than the fifty printed digits need.  Results that are
infinite or undefined are errors, so every value is finite.
-/
import Abacus.NumberSystem
import Abacus.Decimal.Rendering

namespace Abacus.NumberSystem

namespace Decimal

/-- Digits of a printed result. -/
def digits : Nat := 50

/-- A number within `10 ^ -40` of an integer counts as that integer. -/
def toleranceDigits : Nat := 40

/-- A number whose binary exponent is less than this, so one below `2 ^ -134`, counts as
zero. -/
def negligibleExponent : Int := -133

/-- A power whose logarithm has more bits than this before the point is out of
range. -/
def powerBits : Int := 40

/-- The largest number whose factorial is computed. -/
def factorialLimit : Nat := 10000

/-- The text of a result. -/
def render (x : Decimal) : String :=
  x.render digits

/-- The decimal nearest to a literal. -/
def readLiteral (text : String) : Except EvaluationError Decimal :=
  match Decimal.read text with
  | .nan => .error (.invalidLiteral text)
  | x => x.checked .literal

/-- A variable stands for the decimal that its shortest digits write, so that
`0.1` is not the binary fraction nearest to it. -/
def ofVariable (name : String) (value : Binary64) : Except EvaluationError Decimal :=
  if value.isFinite then (Decimal.read value.text).checked .lookup
  else .error (.overflow (.variableNotFinite name))

/-- The quotient by a number other than zero. -/
def div (x y : Decimal) : Except EvaluationError Decimal :=
  if y.isZero then .error .divisionByZero else (x.div y).checked .division

/-- The magnitude is less than `2 ^ -134`. -/
def isNegligible : Decimal → Bool
  | .finite x => x.isZero || x.binaryExponent < negligibleExponent
  | _ => false

/-- The factorial of a number that is an integer up to the tolerance.  Numbers
of more than 64 bits before the point are beyond the limit, whatever their
fraction. -/
def factorial (value : Decimal) : Except EvaluationError Decimal :=
  match value with
  | .finite x =>
    let n := x.nearestInteger
    if 64 < x.binaryExponent then
      if x.negative then .error (.domain (.negativeFactorial (render value)))
      else .error (.overflow (.factorialLimit (render value) factorialLimit))
    else if !x.isNearInteger toleranceDigits then
      .error (.domain (.fractionalFactorial (render value)))
    else if n < 0 then .error (.domain (.negativeFactorial (toString n)))
    else if factorialLimit < n then
      .error (.overflow (.factorialLimit (toString n) factorialLimit))
    else (Decimal.read (toString (productUpTo 1 n.toNat))).checked .factorial
  | _ => .error (.domain (.undefined .factorial))

/-- A power with an integral exponent below `2 ^ 64`: the rounded power of the
magnitude of the exponent, or one divided by it. -/
def powByMultiplication (base : Finite Format.decimal) (negative : Bool) (n : Nat) :
    Except EvaluationError Decimal :=
  let power := base.natPow n
  if !negative then power.checked .power
  else if power.isZero then .error (.overflow (.result .power))
  else (Floating.one.div power).checked .power

/-- The number has too many bits before the point to be the logarithm of a
number in range. -/
def isFar : Decimal → Bool
  | .nan => false
  | .infinite _ => true
  | .finite x => powerBits < x.binaryExponent

/-- The sign bit. -/
def hasMinus : Decimal → Bool
  | .nan => false
  | .infinite negative => negative
  | .finite x => x.negative

/-- A power with a larger integral exponent: the power of the magnitude, with
the sign that the parity of the exponent gives it.  The magnitude one is taken
first, and a power far out of range is not computed. -/
def powByLogarithm (base exponent : Finite Format.decimal) :
    Except EvaluationError Decimal :=
  if base.isZero then .ok (.finite base)
  else
    let negate := base.negative && exponent.isOddIntegral
    let distance := (Floating.finite base.abs).sub .one
    let scale := base.abs.log.mul (.finite exponent)
    if distance.isZero then .ok (if negate then Floating.one.neg else .one)
    else if isFar scale then
      if hasMinus scale then .ok (.finite (.zero false))
      else .error (.overflow (.result .power))
    else do
      let power ← (base.abs.pow exponent).checked .power
      return if negate then power.neg else power

/-- A power.  Zero has no negative powers, and a negative number only integral
ones. -/
def pow : Decimal → Decimal → Except EvaluationError Decimal
  | .finite base, .finite exponent =>
    if base.isZero && exponent.negative && !exponent.isZero then .error .divisionByZero
    else if exponent.isIntegral then
      if exponent.binaryExponent ≤ 64 then
        powByMultiplication base exponent.negative exponent.nearestMagnitude
      else powByLogarithm base exponent
    else if base.isZero then .ok (.finite base)
    else if base.negative then .error (.domain .fractionalPowerOfNegative)
    else (base.pow exponent).checked .power
  | _, _ => .error (.domain (.undefined .power))

/-- A function of finite numbers, undefined for all others. -/
def onFinite (function : Finite Format.decimal → Decimal) : Decimal → Decimal
  | .finite x => function x
  | _ => .nan

/-- The number is above zero. -/
def isPositive : Decimal → Bool
  | .finite x => !x.isZero && !x.negative
  | _ => false

/-- The number is below zero. -/
def isNegative : Decimal → Bool
  | .finite x => !x.isZero && x.negative
  | _ => false

/-- The magnitude is above one, as far as the rounded difference shows. -/
def exceedsOne : Decimal → Bool
  | .finite x => isPositive ((Floating.finite x.abs).sub .one)
  | _ => false

/-- A function, where it is defined. -/
def apply (f : Elementary) (x : Decimal) : Except EvaluationError Decimal :=
  match f with
  | .sin => (onFinite Finite.sin x).checked (.function f)
  | .cos => (onFinite Finite.cos x).checked (.function f)
  | .tan => (onFinite Finite.tan x).checked (.function f)
  | .exp => (onFinite Finite.exp x).checked (.function f)
  | .atan => (onFinite Finite.atan x).checked (.function f)
  | .sinh => (onFinite Finite.sinh x).checked (.function f)
  | .log =>
    if !isPositive x then .error (.domain (.logOfNonPositive (render x)))
    else (onFinite Finite.log x).checked (.function f)
  | .sqrt =>
    if isNegative x then .error (.domain (.rootOfNegative (render x)))
    else (onFinite Finite.sqrt x).checked (.function f)
  | .asin =>
    if exceedsOne x then .error (.domain (.outsideUnitInterval f (render x)))
    else (onFinite Finite.asin x).checked (.function f)
  | .acos =>
    if exceedsOne x then .error (.domain (.outsideUnitInterval f (render x)))
    else (onFinite Finite.acos x).checked (.function f)
  | .cot =>
    let t := onFinite Finite.tan x
    if isNegligible t then .error (.domain (.cotangentPole (render x)))
    else (Floating.one.div t).checked (.function f)

end Decimal

/-- Decimals of fifty digits. -/
def decimal : NumberSystem Decimal where
  capabilities := .all
  readLiteral := Decimal.readLiteral
  ofVariable := Decimal.ofVariable
  add x y := (x.add y).checked .addition
  sub x y := (x.sub y).checked .subtraction
  mul x y := (x.mul y).checked .multiplication
  div := Decimal.div
  pow := Decimal.pow
  neg x := x.neg
  factorial := Decimal.factorial
  apply := Decimal.apply
  render := Decimal.render

end Abacus.NumberSystem
