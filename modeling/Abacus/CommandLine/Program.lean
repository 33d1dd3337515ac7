/-
Abacus.CommandLine.Program — the program without its input and output.

The settings decide which records are shown, and with the command line what
happens first: usage, a refusal, one expression, or a dialogue, which then takes
the lines of the standard input.  Arguments, settings and input are Unicode text.
-/
import Abacus.CommandLine.Arguments
import Abacus.CommandLine.Dialogue
import Abacus.CommandLine.Settings

namespace Abacus

/-- How a run ends, and what it said. -/
structure Outcome where
  code : Nat
  outputs : List Output
deriving DecidableEq, Repr

namespace Program

/-- What happens before a line is read. -/
inductive Start where
  | done (outcome : Outcome)
  | dialogue (outputs : List Output) (d : Dialogue)

/-- Run assignments in turn, until one fails.  Only their records are said. -/
def assign (filter : LogFilter) (s : Session) :
    List String → List Output × Except LineError Session
  | [] => ([], .ok s)
  | line :: lines =>
    let step := s.execute line
    let outputs := Output.records filter step.log
    match step.result with
    | .error e => (outputs, .error e)
    | .ok _ =>
      let (rest, result) := assign filter step.session lines
      (outputs ++ rest, result)

/-- Run one expression or assignment and stop. -/
def oneShot (d : Dialogue) (line : String) : Outcome :=
  let step := d.session.execute line
  ⟨if step.result.isOk then 0 else 1, d.sessionOutputs step⟩

/-- The lines of a text; the last one may lack its end. -/
def lines (text : String) : List String :=
  match ((text.toList.splitOn '\n').map String.ofList).reverse with
  | "" :: rest => rest.reverse
  | all => all.reverse

section

variable (readFilter : FilterReader)

/-- Begin as the command line and the settings say, with filters as a library
reads them. -/
def startWith (arguments : List String) (settings : Settings) : Start :=
  let (filter, faults) := settings.startLog readFilter
  let opening := Output.records filter faults
  match Arguments.parse arguments with
  | .error e => .done ⟨1, opening ++ [.failure e.message]⟩
  | .ok arguments =>
    if arguments.help then .done ⟨0, opening ++ Help.lines.map .result⟩
    else if arguments.version then .done ⟨0, opening ++ [.result Help.version]⟩
    else
      let (mode, log) := settings.startMode
      let warnings := opening ++ Output.records filter log
      match assign filter (.start (arguments.mode.getD mode)) arguments.assignments with
      | (outputs, .error e) => .done ⟨1, warnings ++ outputs ++ [.failure e.message]⟩
      | (outputs, .ok s) =>
        match arguments.command with
        | some line =>
          let outcome := oneShot ⟨filter, s⟩ line
          .done { outcome with outputs := warnings ++ outputs ++ outcome.outputs }
        | none =>
          let banner := if settings.wantsBanner then Dialogue.banner s.mode else []
          .dialogue (warnings ++ outputs ++ banner) ⟨filter, s⟩

/-- A whole run on a given standard input. -/
def runWith (arguments : List String) (settings : Settings) (stdin : String) : Outcome :=
  match startWith readFilter arguments settings with
  | .done outcome => outcome
  | .dialogue outputs d => ⟨0, outputs ++ d.run (lines stdin)⟩

end

/-- The program begins. -/
def start (arguments : List String) (settings : Settings) : Start :=
  startWith LogFilter.read arguments settings

/-- A whole run of the program. -/
def run (arguments : List String) (settings : Settings) (stdin : String) : Outcome :=
  runWith LogFilter.read arguments settings stdin

end Program

end Abacus
