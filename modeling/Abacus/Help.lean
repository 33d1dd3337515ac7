/-
Abacus.Help — the name, version and usage text of the program.
-/

namespace Abacus.Help

/-- The name and version. -/
def version : String := "rcalc 0.1.0"

/-- The usage text, line by line. -/
def lines : List String :=
  [version ++ " - infix expression calculator",
   "",
   "USAGE:",
   "    rcalc                       Start interactive REPL",
   "    rcalc -c <expr...>          Evaluate one expression and exit",
   "    rcalc -m, --mode <mode>     Numeric mode: float, int or decimal",
   "    rcalc -v, --var name=expr   Define a variable (repeatable)",
   "    rcalc --help                Show this help message",
   "    rcalc --version             Show version",
   "",
   "MODES:",
   "    float                   64-bit floating point (default)",
   "    int                     Arbitrary-precision integers; no '.', '^' or functions",
   "    decimal                 50 significant digits",
   "",
   "SYNTAX:",
   "    + - * /                 Arithmetic (x and : also multiply and divide)",
   "    ^                       Power, right-associative: 2^3^2 = 512",
   "    n!                      Factorial",
   "    ( )                     Grouping",
   "    sin cos tan cot         Trigonometry (radians)",
   "    asin acos atan sinh     Inverse and hyperbolic",
   "    log exp sqrt            Natural log, e^x, square root",
   "",
   "REPL:",
   "    name = expr             Store a session variable",
   "    ans                     Result of the previous line",
   "    :mode [mode]            Show or switch the numeric mode",
   "    :vars                   List session variables",
   "    :help                   Show this help",
   "    :quit, exit             Leave the REPL",
   "",
   "ENVIRONMENT:",
   "    RCALC_MODE              Default mode when --mode is absent",
   "    RCALC_LOG               Log level: error, warn, info, debug, trace",
   "    RCALC_BANNER=1          Show startup banner"]

end Abacus.Help
