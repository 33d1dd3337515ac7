/-
Abacus.Evaluation.Error — why a postfix list has no value.
-/
import Abacus.Token

namespace Abacus

/-- What a number comes from. -/
inductive Origin where
  | literal | lookup | addition | subtraction | multiplication | division | power | factorial
  | function (f : Elementary)
deriving DecidableEq, Repr

/-- How messages call it. -/
def Origin.name : Origin → String
  | literal => "literal"
  | lookup => "variable"
  | addition => "addition"
  | subtraction => "subtraction"
  | multiplication => "multiplication"
  | division => "division"
  | power => "power"
  | factorial => "factorial"
  | function f => f.name

/-- Why an argument is outside the domain of an operation. -/
inductive DomainFault where
  | undefined (origin : Origin)
  | logOfNonPositive (argument : String)
  | rootOfNegative (argument : String)
  | outsideUnitInterval (f : Elementary) (argument : String)
  | cotangentPole (argument : String)
  | fractionalFactorial (argument : String)
  | negativeFactorial (argument : String)
  | fractionalPowerOfNegative
deriving DecidableEq, Repr

/-- The wording of a `DomainFault`. -/
def DomainFault.message : DomainFault → String
  | undefined origin => s!"{origin.name} is undefined for these arguments"
  | logOfNonPositive argument => s!"log is only defined for positive numbers, got {argument}"
  | rootOfNegative argument => s!"sqrt is not defined for negative numbers, got {argument}"
  | outsideUnitInterval f argument => s!"{f.name} is only defined on [-1, 1], got {argument}"
  | cotangentPole argument => s!"cot is undefined at {argument}"
  | fractionalFactorial argument => s!"factorial is only defined for integers, got {argument}"
  | negativeFactorial argument =>
    s!"factorial is not defined for negative numbers, got {argument}"
  | fractionalPowerOfNegative => "non-integer power of a negative number"

/-- Why a number is out of range. -/
inductive RangeFault where
  | result (origin : Origin)
  | literal (text : String)
  | variableNotFinite (name : String)
  | variableNotIntegral (name value : String)
  | factorialLimit (argument : String) (limit : Nat)
deriving DecidableEq, Repr

/-- The wording of a `RangeFault`. -/
def RangeFault.message : RangeFault → String
  | result origin => s!"{origin.name} result is out of range"
  | literal text => s!"literal {text} is out of range"
  | variableNotFinite name => s!"variable '{name}' is not a finite number"
  | variableNotIntegral name value => s!"variable '{name}' = {value} is not an integer"
  | factorialLimit argument limit => s!"factorial argument {argument} exceeds {limit}"

/-- Why a postfix list has no value. -/
inductive EvaluationError where
  /-- An operator or a function finds too few operands. -/
  | missingOperand (symbol : String)
  /-- The list ends with a number of values other than one. -/
  | leftoverOperands (count : Nat)
  /-- A parenthesis stands in the list. -/
  | strayToken (text : String)
  | unknownVariable (name : String)
  | invalidLiteral (text : String)
  | unsupportedPower
  | unsupportedFunction (f : Elementary)
  | domain (fault : DomainFault)
  | divisionByZero
  | inexactDivision (dividend divisor : Int)
  | overflow (fault : RangeFault)
deriving DecidableEq, Repr

/-- The wording of an `EvaluationError`. -/
def EvaluationError.message : EvaluationError → String
  | missingOperand symbol => s!"Invalid expression: '{symbol}' is missing an operand"
  | leftoverOperands count => s!"Invalid expression: {count} values left on the stack"
  | strayToken text => s!"Invalid expression: unexpected '{text}' in postfix input"
  | unknownVariable name => s!"Unknown variable: {name}"
  | invalidLiteral text => s!"Syntax error: invalid number '{text}'"
  | unsupportedPower => "Syntax error: operator '^' is not supported in this mode"
  | unsupportedFunction f => s!"Syntax error: function '{f.name}' is not supported in this mode"
  | domain fault => s!"Domain error: {fault.message}"
  | divisionByZero => "Arithmetic error: division by zero"
  | inexactDivision dividend divisor =>
    s!"Arithmetic error: non-integer division result ({dividend} / {divisor})"
  | overflow fault => s!"Overflow: {fault.message}"

end Abacus
