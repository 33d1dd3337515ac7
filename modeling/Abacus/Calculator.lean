/-
Abacus.Calculator — from an expression to its value.

An expression is cut into tokens, brought into postfix order and run in a
number system.  Each stage leaves a record.
-/
import Abacus.Evaluation
import Abacus.Log
import Abacus.Mode
import Abacus.NumberSystem.Decimal
import Abacus.NumberSystem.Float
import Abacus.NumberSystem.Integer
import Abacus.Postfix
import Abacus.Token.Lexer

namespace Abacus

/-- Why an expression has no value. -/
inductive CalculationError where
  | lex (e : LexError)
  | parenthesis (e : ParenthesisError)
  | evaluation (e : EvaluationError)
deriving DecidableEq, Repr

/-- The wording of a `CalculationError`. -/
def CalculationError.message : CalculationError → String
  | lex e => e.message
  | parenthesis e => e.message
  | evaluation e => e.message

/-- A result with the records made on the way to it. -/
structure Logged (α : Type) where
  log : List LogRecord
  value : α

/-- Change the result. -/
def Logged.map {α β : Type} (g : α → β) (l : Logged α) : Logged β :=
  ⟨l.log, g l.value⟩

namespace Calculator

/-- The record of a token list. -/
def tokenRecord (title : String) (tokens : List Token) : LogRecord :=
  ⟨.debug, "rcalc", s!"{title}: {Token.render tokens}"⟩

/-- The record of a token that was run. -/
def traceRecord (t : Evaluation.Trace) : LogRecord :=
  ⟨.trace, "rcalc::eval", s!"{t.token.text} -> stack depth {t.depth}"⟩

variable {V : Type}

/-- Run a postfix list. -/
def evaluatePostfix (system : NumberSystem V) (environment : Environment)
    (tokens : List Token) : Logged (Except CalculationError V) :=
  let (traces, result) := Evaluation.evaluateTraced system environment tokens
  ⟨traces.map traceRecord, result.mapError .evaluation⟩

/-- The value of an expression in a number system. -/
def evaluateIn (system : NumberSystem V) (environment : Environment) (expression : String) :
    Logged (Except CalculationError V) :=
  match tokenize system.capabilities expression with
  | .error e => ⟨[], .error (.lex e)⟩
  | .ok tokens =>
    let first := tokenRecord "tokens" tokens
    match toPostfix tokens with
    | .error e => ⟨[first], .error (.parenthesis e)⟩
    | .ok rpn =>
      let rest := evaluatePostfix system environment rpn
      ⟨first :: tokenRecord "rpn" rpn :: rest.log, rest.value⟩

/-- The printed value of an expression in a mode. -/
def evaluate (mode : Mode) (environment : Environment) (expression : String) :
    Logged (Except CalculationError String) :=
  match mode with
  | .float => (evaluateIn .float environment expression).map (·.map NumberSystem.float.render)
  | .integer =>
    (evaluateIn .integer environment expression).map (·.map NumberSystem.integer.render)
  | .decimal =>
    (evaluateIn .decimal environment expression).map (·.map NumberSystem.decimal.render)

end Calculator

end Abacus
