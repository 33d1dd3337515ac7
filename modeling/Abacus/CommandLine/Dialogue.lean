/-
Abacus.CommandLine.Dialogue — a session that takes lines one by one.

The backspaces in a line are applied first, and then it is trimmed.  An empty
one is passed over, `exit` ends the dialogue, a line with a colon in front is
a command, and any other is run in the session.  A failure is reported, and
the dialogue goes on.
-/
import Abacus.Session.Command
import Abacus.Text.Backspace

namespace Abacus

/-- A dialogue that waits for a line. -/
structure Dialogue where
  filter : LogFilter
  session : Session

namespace Dialogue

/-- The lines a dialogue opens with. -/
def banner (mode : Mode) : List Output :=
  [.result s!"{Help.version} - {mode.name} mode",
   .result "  Type ':help' for usage, 'exit' or Ctrl-D to quit"]

/-- What is recorded each time a line is asked for. -/
def beforeLine (d : Dialogue) : List Output :=
  Output.records d.filter [⟨.debug, "rustyline", "stdin is not a tty"⟩]

/-- The records and the result of a line of a session. -/
def sessionOutputs (d : Dialogue) (step : Session.Step) : List Output :=
  Output.records d.filter step.log ++
    match step.result with
    | .ok text => [.result text]
    | .error e => [.failure e.message]

/-- What taking a line does. -/
structure Step where
  outputs : List Output
  /-- The dialogue that goes on, if it does. -/
  next : Option Dialogue

/-- Take a line. -/
def takeLine (d : Dialogue) (line : String) : Step :=
  let text := trim (applyBackspaces line.toList)
  if text.isEmpty then ⟨[], some d⟩
  else if String.ofList text = "exit" then ⟨[], none⟩
  else if text.head? = some ':' then
    let effect := (Command.read (String.ofList text)).run d.session
    let next := { d with session := effect.session }
    ⟨effect.outputs, if effect.continues then some next else none⟩
  else
    let step := d.session.execute (String.ofList text)
    ⟨d.sessionOutputs step, some { d with session := step.session }⟩

/-- All that is said while the lines last. -/
def run (d : Dialogue) : List String → List Output
  | [] => d.beforeLine
  | line :: lines =>
    let step := d.takeLine line
    d.beforeLine ++ step.outputs ++
      match step.next with
      | none => []
      | some d => d.run lines

end Dialogue

end Abacus
