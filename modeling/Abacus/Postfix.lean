/-
Abacus.Postfix — from infix to postfix order.

Operands go straight to the output.  Operators wait until something that
binds less strongly, or a closing parenthesis, sends them on.  A function
waits below its opening parenthesis and follows its argument.  The converter
accepts any list whose parentheses balance, well formed or not.
-/
import Abacus.Token

namespace Abacus

/-- Why a token list has no postfix order. -/
inductive ParenthesisError where
  | unmatchedRight
  | unmatchedLeft
deriving DecidableEq, Repr

/-- The wording of a `ParenthesisError`. -/
def ParenthesisError.message : ParenthesisError → String
  | unmatchedRight => "Syntax error: mismatched parentheses, unmatched ')'"
  | unmatchedLeft => "Syntax error: mismatched parentheses, unmatched '('"

namespace Postfix

/-- What can wait for its place in the output. -/
inductive Pending where
  | operator (op : Operator)
  | function (f : Elementary)
  | leftParen
deriving DecidableEq, Repr

/-- The token that waits. -/
def Pending.token : Pending → Token
  | operator op => .operator op
  | function f => .function f
  | leftParen => .leftParen

/-- A conversion under way; both lists have the newest element in front. -/
structure State where
  output : List Token
  pending : List Pending
deriving DecidableEq, Repr

namespace State

/-- Nothing read yet. -/
def initial : State := ⟨[], []⟩

/-- Send on the waiting operators that `op` yields to. -/
def release (op : Operator) : List Token → List Pending → State
  | output, .operator top :: pending =>
    if op.yieldsTo top then release op (.operator top :: output) pending
    else ⟨output, .operator top :: pending⟩
  | output, pending => ⟨output, pending⟩

/-- Let `op` wait; all but a prefix operator first send on what binds more
strongly. -/
def pushOperator (s : State) (op : Operator) : State :=
  let s := if op.isPrefix then s else release op s.output s.pending
  { s with pending := .operator op :: s.pending }

/-- Close a group: everything down to its opening parenthesis goes out, then
the function that waits below it, if any. -/
def closeGroup : List Token → List Pending → Except ParenthesisError State
  | _, [] => .error .unmatchedRight
  | output, .leftParen :: .function f :: pending => .ok ⟨.function f :: output, pending⟩
  | output, .leftParen :: pending => .ok ⟨output, pending⟩
  | output, top :: pending => closeGroup (top.token :: output) pending

/-- Read one token. -/
def step (s : State) : Token → Except ParenthesisError State
  | .number text => .ok { s with output := .number text :: s.output }
  | .identifier name => .ok { s with output := .identifier name :: s.output }
  | .function f => .ok { s with pending := .function f :: s.pending }
  | .leftParen => .ok { s with pending := .leftParen :: s.pending }
  | .operator op => .ok (s.pushOperator op)
  | .rightParen => closeGroup s.output s.pending

/-- Send on all that still waits and return the output in order. -/
def finish : List Token → List Pending → Except ParenthesisError (List Token)
  | output, [] => .ok output.reverse
  | _, .leftParen :: _ => .error .unmatchedLeft
  | output, top :: pending => finish (top.token :: output) pending

end State

end Postfix

/-- The postfix order of an infix list. -/
def toPostfix (tokens : List Token) : Except ParenthesisError (List Token) := do
  let s ← tokens.foldlM Postfix.State.step Postfix.State.initial
  Postfix.State.finish s.output s.pending

end Abacus
