/-
Abacus.Main — the program.

It fetches the settings, prints what the program says, and reads lines for as
long as there is a dialogue.
-/
import Abacus.CommandLine.Program

namespace Abacus.Main

/-- Print what the program says, in order. -/
def say (outputs : List Output) : IO Unit := do
  let stdout ← IO.getStdout
  let stderr ← IO.getStderr
  for output in outputs do
    if let some line := output.stdoutLine? then stdout.putStrLn line
    if let some line := output.stderrLine? then stderr.putStrLn line
  stdout.flush

/-- Read lines until the dialogue or the input ends. -/
partial def converse (d : Dialogue) : IO Unit := do
  say d.beforeLine
  let line ← (← IO.getStdin).getLine
  if line.isEmpty then return
  let step := d.takeLine line
  say step.outputs
  if let some d := step.next then converse d

end Abacus.Main

open Abacus in
/-- Run the program on the command line. -/
def main (arguments : List String) : IO UInt32 := do
  let settings : Settings :=
    ⟨← IO.getEnv Settings.modeVariable, ← IO.getEnv Settings.logVariable,
     ← IO.getEnv Settings.bannerVariable⟩
  match Program.start arguments settings with
  | .done outcome =>
    Main.say outcome.outputs
    return UInt32.ofNat outcome.code
  | .dialogue outputs d =>
    Main.say outputs
    Main.converse d
    return 0
