/-
Abacus.Output — what the program says.

Results go to the standard output; failures and log records go to the
standard error output.
-/
import Abacus.Log
import Abacus.Text.Escape

namespace Abacus

/-- One thing the program says; it ends a line. -/
inductive Output where
  | result (text : String)
  | failure (message : String)
  | record (r : LogRecord)
deriving DecidableEq, Repr

namespace Output

/-- The level of a record, right-aligned, and its text with its controls made
visible. -/
def recordLine (r : LogRecord) : String :=
  String.ofList (List.replicate (5 - r.level.name.length) ' ') ++
    String.ofList (escapeControls r.render.toList)

/-- The line on the standard output, if it goes there. -/
def stdoutLine? : Output → Option String
  | result text => some text
  | _ => none

/-- The line on the standard error output, if it goes there. -/
def stderrLine? : Output → Option String
  | result _ => none
  | failure message => some s!"Error: {message}"
  | record r => some (recordLine r)

/-- Lines of text, each with its end. -/
def unlines (lines : List String) : String :=
  String.join (lines.map (· ++ "\n"))

/-- All that goes to the standard output. -/
def stdout (outputs : List Output) : String :=
  unlines (outputs.filterMap stdoutLine?)

/-- All that goes to the standard error output. -/
def stderr (outputs : List Output) : String :=
  unlines (outputs.filterMap stderrLine?)

/-- The records that a filter lets through. -/
def records (filter : LogFilter) (log : List LogRecord) : List Output :=
  (log.filter filter.shows).map record

end Output

end Abacus
