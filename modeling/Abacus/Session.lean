/-
Abacus.Session — a mode and variables that last from line to line.

A line is an expression or an assignment.  Its value is printed and kept as
`ans`, and under the assigned name.  Variables are kept in double precision:
the printed text is read back, and a value beyond that range is not kept.
-/
import Abacus.Calculator
import Abacus.Session.Assignment
import Abacus.Session.Variables

namespace Abacus

/-- A session between two lines. -/
structure Session where
  mode : Mode
  vars : Variables
deriving DecidableEq, Repr

/-- Why a line has no result. -/
inductive LineError where
  | name (e : NameError)
  | calculation (e : CalculationError)
deriving DecidableEq, Repr

/-- The wording of a `LineError`. -/
def LineError.message : LineError → String
  | name e => e.message
  | calculation e => e.message

namespace Session

/-- A session without variables. -/
def start (mode : Mode) : Session := ⟨mode, ∅⟩

/-- The variable that keeps the last result. -/
def lastResult : String := "ans"

/-- What running a line does. -/
structure Step where
  session : Session
  log : List LogRecord
  result : Except LineError String

/-- Keep a printed value under a name, if it is in range. -/
def store (s : Session) (name text : String) : Session × LogRecord :=
  match Binary64.read? text with
  | some (.finite value) =>
    ({ s with vars := s.vars.insert name (.finite value) },
      ⟨.debug, "rcalc::terminal", s!"{name} <- {text}"⟩)
  | _ => (s, ⟨.warn, "rcalc::terminal", s!"'{name}' not stored: {text} is outside the f64 range"⟩)

/-- Evaluate an expression and keep its value as `ans`. -/
def evaluate (s : Session) (expression : String) : Step :=
  let ⟨log, result⟩ := Calculator.evaluate s.mode s.vars.get? expression
  match result with
  | .error e => ⟨s, log, .error (.calculation e)⟩
  | .ok text =>
    let (s, record) := s.store lastResult text
    ⟨s, log ++ [record], .ok text⟩

/-- Keep the value of a line under a name, and print it with the name. -/
def Step.assign (step : Step) (name : String) : Step :=
  match step.result with
  | .error _ => step
  | .ok text =>
    let (s, record) := step.session.store name text
    ⟨s, step.log ++ [record], .ok s!"{name} = {text}"⟩

/-- Run a line. -/
def execute (s : Session) (line : String) : Step :=
  match Assignment.split? line.toList with
  | none => s.evaluate line
  | some (target, expression) =>
    match Assignment.name target with
    | .error e => ⟨s, [], .error (.name e)⟩
    | .ok name => (s.evaluate (String.ofList expression)).assign name

/-- The variables, one on a line, as the assignments that would make them. -/
def listing (s : Session) : List String :=
  s.vars.entries.map fun (name, value) => s!"{name} = {value.format}"

end Session

end Abacus
