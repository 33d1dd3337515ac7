/-
Abacus.CommandLine.Settings — what the environment sets.

The environment can name the mode to start in and the records to show, and it
can ask for a banner.
-/
import Abacus.Log
import Abacus.Mode

namespace Abacus

/-- The environment variables that the program reads. -/
structure Settings where
  mode : Option String
  log : Option String
  banner : Option String
deriving DecidableEq, Repr

namespace Settings

/-- The name of the setting of the mode. -/
def modeVariable : String := "RCALC_MODE"

/-- The name of the setting of the log. -/
def logVariable : String := "RCALC_LOG"

/-- The name of the setting of the banner. -/
def bannerVariable : String := "RCALC_BANNER"

/-- What is said of a mode setting that names no mode. -/
def unknownMode (word : String) : LogRecord :=
  ⟨.warn, "rcalc::cli", s!"{modeVariable}: {Mode.unknownMessage word}, using {Mode.default.name}"⟩

/-- What is said of a log setting that is not understood. -/
def invalidLog (fault : String) : LogRecord :=
  ⟨.warn, "rcalc::logger", s!"invalid {logVariable} value ({fault}), using warn"⟩

/-- The filter that is set, and a warning if it is not understood.  No setting
is read like an empty one. -/
def startLog (settings : Settings) (readFilter : FilterReader) : LogFilter × List LogRecord :=
  match readFilter (settings.log.getD "") with
  | .ok filter => (filter, [])
  | .error fault => (.default, [invalidLog fault])

/-- The mode that is set, and a warning if it is none. -/
def startMode (settings : Settings) : Mode × List LogRecord :=
  match settings.mode with
  | none => (.default, [])
  | some text =>
    match Mode.ofName text with
    | .ok mode => (mode, [])
    | .error word => (.default, [unknownMode word])

/-- A banner is wanted. -/
def wantsBanner (settings : Settings) : Bool :=
  settings.banner == some "1"

end Settings

end Abacus
