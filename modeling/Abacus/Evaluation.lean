/-
Abacus.Evaluation — running a postfix list on a stack.

Literals and variables are pushed; operators and functions take their
operands from the stack and push their result.  One value must remain.
-/
import Abacus.NumberSystem

namespace Abacus.Evaluation

variable {V : Type} (system : NumberSystem V) (environment : Environment)

/-- Take the operands of an operator from the stack, the right one on top,
and push the result. -/
def applyOperator : Operator → List V → Except EvaluationError (List V)
  | .factorial, x :: stack => do return (← system.factorial x) :: stack
  | .neg, x :: stack => .ok (system.neg x :: stack)
  | .add, y :: x :: stack => do return (← system.add x y) :: stack
  | .sub, y :: x :: stack => do return (← system.sub x y) :: stack
  | .mul, y :: x :: stack => do return (← system.mul x y) :: stack
  | .div, y :: x :: stack => do return (← system.div x y) :: stack
  | .pow, y :: x :: stack => do return (← system.pow x y) :: stack
  | op, _ => .error (.missingOperand op.symbol)

/-- Run one token. -/
def step (stack : List V) : Token → Except EvaluationError (List V)
  | .number text => do return (← system.readLiteral text) :: stack
  | .identifier name =>
    match environment name with
    | none => .error (.unknownVariable name)
    | some value => do return (← system.ofVariable name value) :: stack
  | .operator op => applyOperator system op stack
  | .function f =>
    match stack with
    | [] => .error (.missingOperand f.name)
    | x :: stack => do return (← system.apply f x) :: stack
  | .leftParen => .error (.strayToken (Token.text .leftParen))
  | .rightParen => .error (.strayToken (Token.text .rightParen))

/-- A token that was run, and how many values lay on the stack after it. -/
structure Trace where
  token : Token
  depth : Nat
deriving DecidableEq, Repr

/-- Run a list of tokens; the traces are those of the tokens that
succeeded. -/
def run (stack : List V) : List Token → List Trace × Except EvaluationError (List V)
  | [] => ([], .ok stack)
  | token :: tokens =>
    match step system environment stack token with
    | .error e => ([], .error e)
    | .ok stack =>
      let (traces, result) := run stack tokens
      (⟨token, stack.length⟩ :: traces, result)

/-- The one value that remains. -/
def finish : List V → Except EvaluationError V
  | [x] => .ok x
  | stack => .error (.leftoverOperands stack.length)

/-- The value of a postfix list, with its traces. -/
def evaluateTraced (tokens : List Token) : List Trace × Except EvaluationError V :=
  let (traces, result) := run system environment [] tokens
  (traces, result.bind finish)

/-- The value of a postfix list. -/
def evaluate (tokens : List Token) : Except EvaluationError V :=
  (evaluateTraced system environment tokens).2

end Abacus.Evaluation
