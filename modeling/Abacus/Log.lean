/-
Abacus.Log — records of what the calculator does.
-/

namespace Abacus

/-- How much a record matters. -/
inductive Level where
  | error | warn | info | debug | trace
deriving DecidableEq, Repr

namespace Level

/-- The name in a printed record. -/
def name : Level → String
  | error => "ERROR"
  | warn => "WARN"
  | info => "INFO"
  | debug => "DEBUG"
  | trace => "TRACE"

/-- From the records that matter most to those that matter least. -/
def rank : Level → Nat
  | error => 1
  | warn => 2
  | info => 3
  | debug => 4
  | trace => 5

/-- Every level, from the records that matter most. -/
def all : List Level :=
  [error, warn, info, debug, trace]

end Level

/-- One record. -/
structure LogRecord where
  level : Level
  /-- The module that made it. -/
  target : String
  text : String
deriving DecidableEq, Repr

/-- The level and the text. -/
def LogRecord.render (r : LogRecord) : String :=
  s!"{r.level.name} {r.text}"

/-- Which records are shown. -/
structure LogFilter where
  shows : LogRecord → Bool

/-- How the filter is read that a setting asks for, or why it is not. -/
abbrev FilterReader := String → Except String LogFilter

/-- What a part of a setting asks of the records from some modules. -/
structure Directive where
  /-- What the names of the modules begin with. -/
  target : List Char
  /-- The least important level that is shown; without one nothing is. -/
  threshold : Option Level
deriving DecidableEq, Repr

namespace Directive

/-- The threshold that a word names: a level in any case, the rank of one, or
that nothing is shown. -/
def threshold? (word : List Char) : Option (Option Level) :=
  let word := word.map Char.toUpper
  if word = "OFF".toList || word = ['0'] then some none
  else
    (Level.all.find? fun level =>
      level.name.toList == word || (toString level.rank).toList == word).map some

/-- A character of the name of a module. -/
def isTargetChar (c : Char) : Bool :=
  c.isAlphanum || c = '_' || c = ':' || c = '-'

/-- A directive is a threshold, a module, or both with an equals sign between them.
Of a module that stands alone everything is shown. -/
def read? (word : List Char) : Option Directive :=
  match threshold? word with
  | some threshold => some ⟨[], threshold⟩
  | none =>
    let target := word.takeWhile (· != '=')
    let behind := (word.dropWhile (· != '=')).drop 1
    if target.isEmpty || !target.all isTargetChar then none
    else if behind.isEmpty then some ⟨target, some .trace⟩
    else (threshold? behind).map fun threshold => ⟨target, threshold⟩

/-- The directive that decides about a module: that of the longest name, and
the last of these. -/
def decisive? (target : List Char) (directives : List Directive) : Option Directive :=
  directives.foldl
    (fun best d =>
      if d.target.isPrefixOf target && best.all (·.target.length ≤ d.target.length) then some d
      else best)
    none

end Directive

namespace LogFilter

/-- Records that matter at least as much as the threshold. -/
def upTo (threshold : Option Level) : LogFilter where
  shows r := threshold.any fun level => r.level.rank ≤ level.rank

/-- Warnings and errors. -/
def default : LogFilter := upTo (some .warn)

/-- Each record is shown as the directive for its module says, or else not at
all. -/
def ofDirectives (directives : List Directive) : LogFilter where
  shows r := (Directive.decisive? r.target.toList directives).any fun d =>
    (upTo d.threshold).shows r

/-- The filter that directives with commas between them ask for; without any
it is the default.  Directives about spans are not read, as no record is made
within one. -/
def read : FilterReader := fun setting =>
  match ((setting.toList.splitOn ',').filter (· ≠ [])).mapM Directive.read? with
  | none => .error "invalid filter directive"
  | some [] => .ok default
  | some directives => .ok (ofDirectives directives)

end LogFilter

end Abacus
