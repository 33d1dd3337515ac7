/-
Abacus.Proofs.CommandLine.Outcome — how a run of the program ends.

A run that fails says nothing on the standard output, and one error at the end
of the standard error output.  A run with an expression is a run of lines in
turn: the assignments of the command line, and then the expression.  The first
of them that fails ends it (`assign_spec`).
-/
import Abacus.CommandLine.Program
import Abacus.Proofs.CommandLine.Arguments
import Abacus.Proofs.Session.Invariant

namespace Abacus

/-! ## Lines in turn -/

namespace Session

/-- Each line has a result when the lines are run in turn. -/
def Succeeds (s : Session) : List String → Prop
  | [] => True
  | line :: lines =>
    (∃ output, (s.execute line).result = .ok output) ∧ (s.execute line).session.Succeeds lines

/-- The session behind some lines. -/
def afterLines (s : Session) (lines : List String) : Session :=
  s.after (lines.map .line)

/-- All that is recorded while lines are run in turn. -/
def logOf (s : Session) : List String → List LogRecord
  | [] => []
  | line :: lines => (s.execute line).log ++ (s.execute line).session.logOf lines

/-- The lines in front have results, and then this one fails. -/
structure FailsAt (s : Session) (front : List String) (line : String) (error : LineError) :
    Prop where
  succeeds : s.Succeeds front
  fails : ((s.afterLines front).execute line).result = .error error

theorem succeeds_append (s : Session) (before lines : List String) :
    s.Succeeds (before ++ lines) ↔ s.Succeeds before ∧ (s.afterLines before).Succeeds lines := by
  induction before generalizing s with
  | nil => exact (true_and _).to_iff.symm
  | cons line before ih =>
    rw [List.cons_append, Succeeds, Succeeds, ih, and_assoc]
    rfl

theorem logOf_append (s : Session) (before lines : List String) :
    s.logOf (before ++ lines) = s.logOf before ++ (s.afterLines before).logOf lines := by
  induction before generalizing s with
  | nil => rfl
  | cons line before ih =>
    rw [List.cons_append, logOf, logOf, ih, List.append_assoc]
    rfl

end Session

/-! ## What is said -/

namespace Output

theorem records_append (filter : LogFilter) (log log' : List LogRecord) :
    records filter (log ++ log') = records filter log ++ records filter log' := by
  simp [records]

theorem stdoutLines_records (records : List LogRecord) :
    (records.map record).filterMap stdoutLine? = [] := by
  rw [List.filterMap_map]
  exact List.filterMap_eq_nil_iff.2 fun _ _ => rfl

theorem stdout_records (records : List LogRecord) (outputs : List Output) :
    stdout (records.map record ++ outputs) = stdout outputs := by
  rw [stdout, List.filterMap_append, stdoutLines_records]
  rfl

end Output

/-! ## The run -/

namespace Program

/-- Assignments leave the session behind them, or the error of the first that fails. -/
theorem assign_of_succeeds (filter : LogFilter) {s : Session} {lines : List String}
    (h : s.Succeeds lines) :
    assign filter s lines = (Output.records filter (s.logOf lines), .ok (s.afterLines lines)) := by
  induction lines generalizing s with
  | nil => rfl
  | cons line lines ih =>
    obtain ⟨⟨output, houtput⟩, h⟩ := h
    rw [assign, houtput]
    dsimp only
    rw [ih h, Session.logOf, Output.records_append]
    rfl

theorem assign_of_failsAt (filter : LogFilter) {s : Session} {front : List String} {line : String}
    {error : LineError} (h : s.FailsAt front line error) (behind : List String) :
    assign filter s (front ++ line :: behind) =
      (Output.records filter (s.logOf (front ++ [line])), .error error) := by
  obtain ⟨hfront, hfails⟩ := h
  induction front generalizing s with
  | nil =>
    have herror : (s.execute line).result = .error error := hfails
    rw [List.nil_append, assign, herror, List.nil_append, Session.logOf, Session.logOf,
      List.append_nil]
  | cons first front ih =>
    obtain ⟨⟨output, houtput⟩, hfront⟩ := hfront
    rw [List.cons_append, assign, houtput]
    dsimp only
    rw [ih hfront hfails, List.cons_append, Session.logOf, Output.records_append]

/-- The session that a command line begins with, in the mode that it sets, or else in that of
the environment. -/
def initial (read : Arguments) (settings : Settings) : Session :=
  .start (read.mode.getD settings.startMode.1)

section

variable (readFilter : FilterReader)

/-- The records that the settings ask for. -/
def filter (settings : Settings) : LogFilter :=
  (settings.startLog readFilter).1

/-- What is said of the settings and of some records. -/
def said (settings : Settings) (log : List LogRecord) : List Output :=
  Output.records (filter readFilter settings)
    ((settings.startLog readFilter).2 ++ settings.startMode.2 ++ log)

/-- What a run does once the assignments are made, or one of them has failed. -/
def behindAssignments (settings : Settings) (stdin : String) (command : Option String)
    (log : List LogRecord) : Except LineError Session → Outcome
  | .error e => ⟨1, said readFilter settings log ++ [.failure e.message]⟩
  | .ok s =>
    let d : Dialogue := ⟨filter readFilter settings, s⟩
    match command with
    | some line => ⟨(oneShot d line).code, said readFilter settings log ++ (oneShot d line).outputs⟩
    | none =>
      ⟨0, said readFilter settings log ++
        (if settings.wantsBanner then Dialogue.banner s.mode else []) ++ d.run (lines stdin)⟩

section

variable {arguments : List String} {settings : Settings} (stdin : String) {read : Arguments}
  (hparse : Arguments.parse arguments = .ok read) (hhelp : read.help = false)
  (hversion : read.version = false)
include hparse hhelp hversion

/-- The run is what it is behind the assignments. -/
theorem runWith_of_assign {log : List LogRecord} {result : Except LineError Session}
    (h : assign (filter readFilter settings) (initial read settings) read.assignments =
      (Output.records (filter readFilter settings) log, result)) :
    runWith readFilter arguments settings stdin =
      behindAssignments readFilter settings stdin read.command log result := by
  unfold filter initial at h
  unfold runWith startWith
  rw [hparse]
  dsimp only
  rw [hhelp, hversion, if_neg Bool.false_ne_true, if_neg Bool.false_ne_true, h]
  cases result with
  | error e => simp only [behindAssignments, said, filter, Output.records_append]
  | ok s =>
    cases read.command <;>
      simp only [behindAssignments, said, filter, Output.records_append]

/-- An assignment that fails ends the run. -/
theorem run_of_assignment_failsAt {front : List String} {line : String} {behind : List String}
    {error : LineError} (hlines : read.assignments = front ++ line :: behind)
    (h : (initial read settings).FailsAt front line error) :
    runWith readFilter arguments settings stdin =
      ⟨1, said readFilter settings ((initial read settings).logOf (front ++ [line])) ++
        [.failure error.message]⟩ := by
  have hassign := assign_of_failsAt (filter readFilter settings) h behind
  rw [← hlines] at hassign
  exact runWith_of_assign readFilter stdin hparse hhelp hversion hassign

/-- Where the assignments succeed, the run is that of the expression behind them. -/
theorem run_of_assignments_succeed {line : String} (hcommand : read.command = some line)
    (h : (initial read settings).Succeeds read.assignments) :
    runWith readFilter arguments settings stdin =
      ⟨if (((initial read settings).afterLines read.assignments).execute line).result.isOk
          then 0 else 1,
        said readFilter settings ((initial read settings).logOf (read.assignments ++ [line])) ++
          match (((initial read settings).afterLines read.assignments).execute line).result with
          | .ok text => [.result text]
          | .error e => [.failure e.message]⟩ := by
  have hrun := runWith_of_assign readFilter stdin hparse hhelp hversion
    (assign_of_succeeds (filter readFilter settings) h)
  have hlog : (initial read settings).logOf (read.assignments ++ [line]) =
      (initial read settings).logOf read.assignments ++
        (((initial read settings).afterLines read.assignments).execute line).log := by
    rw [Session.logOf_append, Session.logOf, Session.logOf, List.append_nil]
  rw [hcommand] at hrun
  rw [hrun, hlog]
  dsimp only [behindAssignments, oneShot, Dialogue.sessionOutputs, said]
  cases (((initial read settings).afterLines read.assignments).execute line).result with
  | ok output => simp only [Output.records_append, List.append_assoc]
  | error e => simp only [Output.records_append, List.append_assoc]

/-- Without an expression the assignments are followed by a dialogue. -/
theorem run_of_dialogue (hcommand : read.command = none)
    (h : (initial read settings).Succeeds read.assignments) :
    runWith readFilter arguments settings stdin =
      ⟨0, said readFilter settings ((initial read settings).logOf read.assignments) ++
        (if settings.wantsBanner then
          Dialogue.banner ((initial read settings).afterLines read.assignments).mode else []) ++
        (Dialogue.mk (filter readFilter settings)
          ((initial read settings).afterLines read.assignments)).run (lines stdin)⟩ := by
  have hrun := runWith_of_assign readFilter stdin hparse hhelp hversion
    (assign_of_succeeds (filter readFilter settings) h)
  rwa [hcommand] at hrun

/-- With an expression the run is that of the assignments and the expression in turn. -/
theorem run_of_succeeds {line : String} (hcommand : read.command = some line)
    (h : (initial read settings).Succeeds (read.assignments ++ [line])) :
    ∃ output, (((initial read settings).afterLines read.assignments).execute line).result =
        .ok output ∧
      runWith readFilter arguments settings stdin =
        ⟨0, said readFilter settings ((initial read settings).logOf (read.assignments ++ [line])) ++
          [.result output]⟩ := by
  obtain ⟨hassignments, ⟨output, houtput⟩, -⟩ := (Session.succeeds_append ..).1 h
  have hrun :=
    run_of_assignments_succeed readFilter stdin hparse hhelp hversion hcommand hassignments
  rw [houtput] at hrun
  exact ⟨output, houtput, hrun⟩

theorem run_of_failsAt {line : String} (hcommand : read.command = some line)
    {front : List String} {failing : String} {behind : List String} {error : LineError}
    (hlines : read.assignments ++ [line] = front ++ failing :: behind)
    (h : (initial read settings).FailsAt front failing error) :
    runWith readFilter arguments settings stdin =
      ⟨1, said readFilter settings ((initial read settings).logOf (front ++ [failing])) ++
        [.failure error.message]⟩ := by
  rcases List.eq_nil_or_concat behind with rfl | ⟨behind, last, rfl⟩
  · -- The expression itself fails.
    obtain ⟨rfl, hline⟩ := List.append_inj' hlines rfl
    cases hline
    have hrun :=
      run_of_assignments_succeed readFilter stdin hparse hhelp hversion hcommand h.succeeds
    rw [h.fails] at hrun
    exact hrun
  · have hassignments : read.assignments = front ++ failing :: behind := by
      rw [List.concat_eq_append, ← List.cons_append, ← List.append_assoc] at hlines
      exact (List.append_inj' hlines rfl).1
    exact run_of_assignment_failsAt readFilter stdin hparse hhelp hversion hassignments h

end

end

end Program

end Abacus
