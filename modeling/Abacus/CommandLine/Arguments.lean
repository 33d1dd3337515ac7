/-
Abacus.CommandLine.Arguments — reading the command line.

Flags are read from left to right.  A later mode replaces an earlier one, and
all that follows `-c` is the expression.
-/
import Abacus.Mode

namespace Abacus

/-- What the command line asks for. -/
structure Arguments where
  command : Option String
  mode : Option Mode
  assignments : List String
  help : Bool
  version : Bool
deriving DecidableEq, Repr

/-- Why a command line is refused. -/
inductive ArgumentError where
  | missingExpression
  | missingMode
  | unknownMode (word : String)
  | missingAssignment
  | notAnAssignment (text : String)
  | unknownArgument (text : String)
deriving DecidableEq, Repr

/-- The wording of an `ArgumentError`. -/
def ArgumentError.message : ArgumentError → String
  | missingExpression => "-c requires an expression"
  | missingMode => "--mode requires a value"
  | unknownMode word => Mode.unknownMessage word
  | missingAssignment => "--var requires name=value"
  | notAnAssignment text => s!"--var expects name=value, got '{text}'"
  | unknownArgument text => s!"unknown argument '{text}' (try --help)"

namespace Arguments

/-- An empty command line. -/
def none : Arguments := ⟨.none, .none, [], false, false⟩

/-- A flag of the command line. -/
inductive Flag where
  | command | mode | assignment | help | version
deriving DecidableEq, Repr

/-- The flag a text spells. -/
def Flag.ofText? (text : String) : Option Flag :=
  if text = "-c" then some command
  else if text = "-m" || text = "--mode" then some mode
  else if text = "-v" || text = "--var" then some assignment
  else if text = "-h" || text = "--help" then some help
  else if text = "-V" || text = "--version" then some version
  else .none

/-- Read the rest of a command line after `read` was read from its front. -/
def parseFrom (read : Arguments) : List String → Except ArgumentError Arguments
  | [] => .ok read
  | text :: rest =>
    match Flag.ofText? text, rest with
    | some .command, [] => .error .missingExpression
    | some .command, words => .ok { read with command := some (" ".intercalate words) }
    | some .mode, [] => .error .missingMode
    | some .mode, name :: rest =>
      match Mode.ofName name with
      | .ok mode => parseFrom { read with mode := some mode } rest
      | .error word => .error (.unknownMode word)
    | some .assignment, [] => .error .missingAssignment
    | some .assignment, value :: rest =>
      if value.toList.contains '=' then
        parseFrom { read with assignments := read.assignments ++ [value] } rest
      else .error (.notAnAssignment value)
    | some .help, rest => parseFrom { read with help := true } rest
    | some .version, rest => parseFrom { read with version := true } rest
    | .none, _ => .error (.unknownArgument text)

/-- Read a command line. -/
def parse (arguments : List String) : Except ArgumentError Arguments :=
  parseFrom none arguments

end Arguments

end Abacus
