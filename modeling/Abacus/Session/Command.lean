/-
Abacus.Session.Command — lines that start with a colon.

Commands show or change the session; they never change a variable.
-/
import Abacus.Help
import Abacus.Output
import Abacus.Session

namespace Abacus

/-- What a command line asks for. -/
inductive Command where
  /-- A line without a word. -/
  | none
  | quit
  | help
  | listVariables
  | showMode
  | setMode (name : String)
  | unknown (word : String)
deriving DecidableEq, Repr

namespace Command

/-- The commands that are offered for completion, in this order. -/
def names : List String :=
  [":mode", ":vars", ":help", ":quit"]

/-- Read a command line; words beyond those that are needed are ignored. -/
def read (line : String) : Command :=
  match (words line.toList).map String.ofList with
  | [] => none
  | word :: arguments =>
    if word = ":quit" || word = ":q" then quit
    else if word = ":help" || word = ":h" then help
    else if word = ":vars" then listVariables
    else if word = ":mode" then
      match arguments with
      | [] => showMode
      | name :: _ => setMode name
    else unknown word

/-- What running a command does. -/
structure Effect where
  session : Session
  outputs : List Output
  /-- More lines are to be read. -/
  continues : Bool

/-- The listing of the variables, or a remark that there are none. -/
def variableLines (s : Session) : List Output :=
  if s.listing.isEmpty then [.result "No variables"] else s.listing.map .result

/-- Run a command. -/
def run (s : Session) : Command → Effect
  | none => ⟨s, [], true⟩
  | quit => ⟨s, [], false⟩
  | help => ⟨s, Help.lines.map .result, true⟩
  | listVariables => ⟨s, variableLines s, true⟩
  | showMode => ⟨s, [.result s.mode.name], true⟩
  | setMode name =>
    match Mode.ofName name with
    | .ok mode => ⟨{ s with mode := mode }, [.result s!"mode: {mode.name}"], true⟩
    | .error word => ⟨s, [.failure (Mode.unknownMessage word)], true⟩
  | unknown word => ⟨s, [.failure s!"unknown command '{word}' (try :help)"], true⟩

end Command

end Abacus
