/-
Abacus.Proofs.CommandLine.Dialogue — a dialogue and a command line agree.

A dialogue changes a line before it is run: backspaces are applied, blanks
around it are dropped, and some lines are not for the session.  Entries are the
lines that are, so those without backspaces are run as they stand
(`IsEntry.takeLine`).  The same lines as assignments and an expression on a
command line are run in the same session; only, a line that fails ends that run
and not the dialogue.
-/
import Abacus.Proofs.CommandLine.Outcome

namespace Abacus

/-! ## Lines of the standard input -/

namespace Program

/-- A standard input with these lines; the last one may lack its end. -/
def Feeds (stdin : String) (texts : List String) : Prop :=
  stdin = Output.unlines texts ∨ stdin ++ "\n" = Output.unlines texts

theorem lines_cons {line : String} (h : '\n' ∉ line.toList) (rest : String) :
    lines (line ++ "\n" ++ rest) = line :: lines rest := by
  have hsplit : (line ++ "\n" ++ rest).toList.splitOn '\n' =
      line.toList :: rest.toList.splitOn '\n' := by
    simp [List.splitOn_append_cons_self_of_not_mem h]
  have hne : ((rest.toList.splitOn '\n').map String.ofList).reverse ≠ [] := by
    simp [List.splitOn_ne_nil]
  unfold lines
  rw [hsplit, List.map_cons, List.reverse_cons, String.ofList_toList]
  -- What is behind the last line end is a line unless it is empty, with or without `line`.
  obtain ⟨final, reversed, heq⟩ := List.exists_cons_of_ne_nil hne
  rw [heq, List.cons_append]
  by_cases hfinal : final = ""
  · subst hfinal
    simp
  · simp [hfinal]

theorem lines_of_ne_empty {line : String} (hbreak : '\n' ∉ line.toList) (hne : line ≠ "") :
    lines line = [line] := by
  unfold lines
  rw [List.splitOn_eq_singleton hbreak]
  simp [hne]

theorem lines_unlines_append {texts : List String} (h : ∀ text ∈ texts, '\n' ∉ text.toList)
    (rest : String) : lines (Output.unlines texts ++ rest) = texts ++ lines rest := by
  induction texts with
  | nil => simp [Output.unlines]
  | cons text texts ih =>
    obtain ⟨htext, htexts⟩ := List.forall_mem_cons.1 h
    have hcons : Output.unlines (text :: texts) ++ rest =
        text ++ "\n" ++ (Output.unlines texts ++ rest) := by
      simp [Output.unlines, String.append_assoc]
    rw [hcons, lines_cons htext, ih htexts, List.cons_append]

theorem lines_unlines {texts : List String} (h : ∀ text ∈ texts, '\n' ∉ text.toList) :
    lines (Output.unlines texts) = texts := by
  have hlines := lines_unlines_append h ""
  rwa [String.append_empty, show lines "" = [] from rfl, List.append_nil] at hlines

/-- A standard input gives its lines, with or without the end of the last. -/
theorem Feeds.lines_eq {stdin : String} {texts : List String} (h : Feeds stdin texts)
    (hbreak : ∀ text ∈ texts, '\n' ∉ text.toList) (hne : ∀ text ∈ texts, text ≠ "") :
    lines stdin = texts := by
  rcases h with rfl | h
  · exact lines_unlines hbreak
  · rcases List.eq_nil_or_concat texts with rfl | ⟨front, last, rfl⟩
    · have hchars := congrArg String.toList h
      simp [Output.unlines] at hchars
    · rw [List.concat_eq_append] at *
      have hchars : stdin.toList ++ ['\n'] = (Output.unlines front ++ last).toList ++ ['\n'] := by
        have hlist := congrArg String.toList h
        simpa [Output.unlines] using hlist
      obtain rfl := String.toList_inj.1 (List.append_cancel_right hchars)
      rw [lines_unlines_append fun text htext => hbreak text (List.mem_append_left _ htext),
        lines_of_ne_empty (hbreak last (by simp)) (hne last (by simp))]

end Program

/-! ## Lines of a session in a dialogue -/

/-- A trimmed line that a dialogue runs in the session: it is not empty, does not end the
dialogue and is no command. -/
structure IsEntry (line : String) : Prop where
  unbroken : '\n' ∉ line.toList
  trimmed : trim line.toList = line.toList
  ne_empty : line ≠ ""
  ne_exit : line ≠ "exit"
  head_ne_colon : line.toList.head? ≠ some ':'

instance (line : String) : Decidable (IsEntry line) :=
  decidable_of_iff
    ('\n' ∉ line.toList ∧ trim line.toList = line.toList ∧ line ≠ "" ∧ line ≠ "exit" ∧
      line.toList.head? ≠ some ':')
    ⟨fun ⟨h₁, h₂, h₃, h₄, h₅⟩ => ⟨h₁, h₂, h₃, h₄, h₅⟩,
      fun ⟨h₁, h₂, h₃, h₄, h₅⟩ => ⟨h₁, h₂, h₃, h₄, h₅⟩⟩

namespace Dialogue

/-- What is said while entries are taken in turn. -/
def answers (d : Dialogue) : List String → List Output
  | [] => []
  | line :: lines =>
    d.beforeLine ++ d.sessionOutputs (d.session.execute line) ++
      answers { d with session := (d.session.execute line).session } lines

/-- An entry without backspaces is run in the session as it stands. -/
theorem takeLine_entry (d : Dialogue) {line : String} (h : IsEntry line)
    (hplain : backspace ∉ line.toList) :
    d.takeLine line = ⟨d.sessionOutputs (d.session.execute line),
      some { d with session := (d.session.execute line).session }⟩ := by
  have hne : line.toList.isEmpty = false := by
    simpa using h.ne_empty
  have htext : trim (applyBackspaces line.toList) = line.toList := by
    rw [editsLines_applyBackspaces.eq_self hplain, h.trimmed]
  unfold takeLine
  rw [htext]
  dsimp only
  rw [String.ofList_toList, hne, if_neg Bool.false_ne_true, if_neg h.ne_exit,
    if_neg h.head_ne_colon]

theorem run_append (d : Dialogue) {front : List String}
    (h : ∀ line ∈ front, IsEntry line ∧ backspace ∉ line.toList) (behind : List String) :
    d.run (front ++ behind) =
      d.answers front ++ { d with session := d.session.afterLines front }.run behind := by
  induction front generalizing d with
  | nil => rfl
  | cons line front ih =>
    obtain ⟨⟨hentry, hplain⟩, hfront⟩ := List.forall_mem_cons.1 h
    rw [List.cons_append, run, takeLine_entry d hentry hplain]
    dsimp only
    rw [ih _ hfront, answers]
    simp only [List.append_assoc]
    rfl

theorem run_entries (d : Dialogue) {lines : List String}
    (h : ∀ line ∈ lines, IsEntry line ∧ backspace ∉ line.toList) :
    d.run lines = d.answers lines ++ d.beforeLine := by
  have hrun := d.run_append h []
  rwa [List.append_nil] at hrun

end Dialogue

/-! ## The two command lines -/

namespace Program

/-- A mode, assignments and an expression behind them. -/
def inTurn (word : String) (lines : List String) (last : String) : List String :=
  "-m" :: word :: (lines.flatMap (["-v", ·]) ++ ["-c", last])

/-- A mode alone, so that lines are read from the standard input. -/
def asking (word : String) : List String :=
  ["-m", word]

section

variable {word : String} {mode : Mode} (hmode : Mode.ofName word = .ok mode)
include hmode

theorem reads_asking : Arguments.Reads (asking word) ⟨none, some mode, [], false, false⟩ :=
  .of_takes (.mode rfl hmode)

theorem parse_asking : Arguments.parse (asking word) = .ok ⟨none, some mode, [], false, false⟩ :=
  Arguments.parse_of_reads (reads_asking hmode)

theorem parse_inTurn {lines : List String} (h : ∀ line ∈ lines, '=' ∈ line.toList)
    (last : String) :
    Arguments.parse (inTurn word lines last) = .ok ⟨some last, some mode, lines, false, false⟩ := by
  have hcommand : " ".intercalate [last] = last := by simp
  have hflags := (reads_asking hmode).append (Arguments.reads_assignments h)
  have hend : Arguments.Ends ["-c", last] _ := .command rfl (List.cons_ne_nil last [])
  rw [hcommand] at hend
  have hparse := Arguments.parse_of_ends hflags hend
  simpa [Except.map, Arguments.followedBy, Arguments.none, asking, inTurn] using hparse

end

end Program

/-! ## Results are lines -/

/-- The result of a line has no line break in it. -/
theorem Session.break_not_mem {s : Session} {line output : String}
    (h : (s.execute line).result = .ok output) : '\n' ∉ output.toList := by
  rcases s.execute_cases line with
    ⟨error, hresult, -⟩ | ⟨expression, target, text, hasks, hvalue, hresult, -⟩
  · cases hresult.symm.trans h
  · cases hresult.symm.trans h
    have hprinted := Calculator.isPrinted_of_evaluate hvalue
    have htext : '\n' ∉ text.toList := fun hmem =>
      absurd (hprinted.isDigit_or_mem hmem) (by decide)
    cases hasks with
    | value => exact htext
    | @assignment _ _ name _ _ hname =>
      have hfolded : '\n' ∉ name.toList := fun hmem =>
        absurd (hname.isFolded _ hmem) (by decide)
      simp [shown, toString, hfolded, htext]

/-- A line that fails leaves the session as it was. -/
theorem Session.session_of_error {s : Session} {line : String} {error : LineError}
    (h : (s.execute line).result = .error error) : (s.execute line).session = s := by
  rcases s.execute_cases line with ⟨_, -, hsession⟩ | ⟨_, _, _, -, -, hresult, -⟩
  · exact hsession
  · cases hresult.symm.trans h

/-! ## Agreement -/

namespace Program

/-- What a run of these lines in turn and a dialogue in which they are entered have in common,
whatever the settings are, however filters are read and whatever else there is to read.

Where all lines have results, both runs succeed; the last line that the dialogue prints is all
that the other run prints.  Where a line is the first to fail, its error ends the one run, which
prints nothing.  The dialogue reports the same error behind what it says when it is given the
lines in front alone, goes on with the lines behind in the session that it had, and succeeds. -/
structure Agrees (word : String) (mode : Mode) (lines : List String) (last : String) : Prop where
  succeeding : ∀ readFilter settings stdin stdin', Feeds stdin' (lines ++ [last]) →
    (Session.start mode).Succeeds (lines ++ [last]) →
    (runWith readFilter (inTurn word lines last) settings stdin).code = 0 ∧
    (runWith readFilter (asking word) settings stdin').code = 0 ∧
    ∃ earlier output, '\n' ∉ output.toList ∧
      Output.stdout (runWith readFilter (inTurn word lines last) settings stdin).outputs =
        Output.unlines [output] ∧
      Output.stdout (runWith readFilter (asking word) settings stdin').outputs =
        Output.unlines (earlier ++ [output])
  failing : ∀ readFilter settings stdin stdin', Feeds stdin' (lines ++ [last]) →
    ∀ front line behind error, lines ++ [last] = front ++ line :: behind →
    (Session.start mode).FailsAt front line error →
    (runWith readFilter (inTurn word lines last) settings stdin).code = 1 ∧
    Output.stdout (runWith readFilter (inTurn word lines last) settings stdin).outputs = "" ∧
    (runWith readFilter (asking word) settings stdin').code = 0 ∧
    ∃ records records' : List LogRecord,
      (runWith readFilter (inTurn word lines last) settings stdin).outputs =
        records.map .record ++ [.failure error.message] ∧
      (runWith readFilter (asking word) settings stdin').outputs =
        (runWith readFilter (asking word) settings (Output.unlines front)).outputs ++
          (records'.map .record ++ [.failure error.message]) ++
          (Dialogue.mk (filter readFilter settings)
            ((Session.start mode).afterLines front)).run behind

section

variable {word : String} {mode : Mode} (hmode : Mode.ofName word = .ok mode)
include hmode

section

variable (readFilter : FilterReader) (settings : Settings) {stdin : String}

/-- A dialogue that is given entries says what each of them is answered. -/
theorem run_asking {lines : List String} (hfeeds : Feeds stdin lines)
    (hentries : ∀ line ∈ lines, IsEntry line ∧ backspace ∉ line.toList) :
    runWith readFilter (asking word) settings stdin =
      ⟨0, said readFilter settings [] ++
        (if settings.wantsBanner then Dialogue.banner mode else []) ++
        (Dialogue.mk (filter readFilter settings) (.start mode)).run lines⟩ := by
  have hlines := hfeeds.lines_eq (fun line hline => (hentries line hline).1.unbroken)
    (fun line hline => (hentries line hline).1.ne_empty)
  have hrun := @run_of_dialogue readFilter (asking word) settings stdin _
    (parse_asking hmode) rfl rfl rfl trivial
  rwa [hlines] at hrun

/-- What a dialogue says up to one of its entries is what it says when it is given the lines in
front alone. -/
theorem outputs_run_asking {front : List String} {line : String} {behind : List String}
    (hfeeds : Feeds stdin (front ++ line :: behind))
    (hentries : ∀ text ∈ front ++ line :: behind, IsEntry text ∧ backspace ∉ text.toList)
    {d : Dialogue} (hd : d = ⟨filter readFilter settings, (Session.start mode).afterLines front⟩) :
    (runWith readFilter (asking word) settings stdin).outputs =
      (runWith readFilter (asking word) settings (Output.unlines front)).outputs ++
        d.sessionOutputs (d.session.execute line) ++
        { d with session := (d.session.execute line).session }.run behind := by
  subst hd
  have hfront : ∀ text ∈ front, IsEntry text ∧ backspace ∉ text.toList :=
    fun text htext => hentries text (List.mem_append_left _ htext)
  obtain ⟨hentry, hplain⟩ := hentries line (by simp)
  rw [run_asking hmode readFilter settings hfeeds hentries,
    run_asking hmode readFilter settings (.inl rfl) hfront, Dialogue.run_append _ hfront,
    Dialogue.run_entries _ hfront, Dialogue.run, Dialogue.takeLine_entry _ hentry hplain]
  simp only [List.append_assoc]
  rfl

end

/-- Run in turn on a command line or entered in a dialogue, lines have the same result or the
same first error, as long as no backspace changes them. -/
theorem dialogue_agrees {lines : List String} {last : String}
    (hassignments : ∀ line ∈ lines, '=' ∈ line.toList)
    (hentries : ∀ line ∈ lines ++ [last], IsEntry line ∧ backspace ∉ line.toList) :
    Agrees word mode lines last where
  succeeding readFilter settings stdin stdin' hfeeds hsucceeds := by
    obtain ⟨output, hresult, hrun⟩ :=
      @run_of_succeeds readFilter (inTurn word lines last) settings stdin _
        (parse_inTurn hmode hassignments last) rfl rfl last rfl hsucceeds
    have hcode := congrArg Outcome.code (run_asking hmode readFilter settings hfeeds hentries)
    have hlast : ((Session.start mode).afterLines lines |>.execute last).result = .ok output :=
      hresult
    refine ⟨congrArg Outcome.code hrun, hcode,
      (runWith readFilter (asking word) settings (Output.unlines lines)).outputs.filterMap
        Output.stdoutLine?,
      output, Session.break_not_mem hresult, ?_, ?_⟩
    · rw [hrun]
      exact Output.stdout_records _ _
    · rw [outputs_run_asking hmode readFilter settings hfeeds hentries rfl,
        Dialogue.sessionOutputs, hlast, Output.stdout]
      simp only [List.filterMap_append, Output.records, Dialogue.run, Dialogue.beforeLine,
        Output.stdoutLines_records, List.nil_append, List.append_nil]
      rfl
  failing readFilter settings stdin stdin' hfeeds front line behind error hlines hfails := by
    have hrun := @run_of_failsAt readFilter (inTurn word lines last) settings stdin _
      (parse_inTurn hmode hassignments last) rfl rfl last rfl front line behind error hlines hfails
    rw [hlines] at hfeeds hentries
    have hcode := congrArg Outcome.code (run_asking hmode readFilter settings hfeeds hentries)
    rw [outputs_run_asking hmode readFilter settings hfeeds hentries rfl, Dialogue.sessionOutputs,
      hfails.fails, Session.session_of_error hfails.fails]
    refine ⟨congrArg Outcome.code hrun, ?_, hcode, _, _, congrArg Outcome.outputs hrun, rfl⟩
    rw [hrun]
    exact Output.stdout_records _ _

end

/-- The second assignment is inexact: its error ends the one run, and the dialogue goes on. -/
theorem dialogue_agrees_integers :
    (run (inTurn "int" ["a = 6", "b = a / 4"] "a + 1") ⟨none, none, none⟩ "").code = 1 ∧
    (run (asking "int") ⟨none, none, none⟩ "a = 6\nb = a / 4\na + 1").outputs.getLast? =
      some (.result "7") ∧
    Agrees "int" .integer ["a = 6", "b = a / 4"] "a + 1" :=
  ⟨by decide +kernel, by decide +kernel,
    dialogue_agrees (by decide +kernel) (by decide +kernel) (by decide +kernel)⟩

/-- A backspace takes back the character in front of it in a dialogue; on a command line it is
an unexpected character. -/
theorem not_agrees_backspace :
    IsEntry "12\x08" ∧ Mode.ofName "float" = .ok .float ∧ ¬Agrees "float" .float [] "12\x08" := by
  refine ⟨by decide +kernel, by decide +kernel, fun h => ?_⟩
  have hnot : ((Session.start .float).execute "12\x08").result.isOk = false := by decide +kernel
  have hdialogue :
      (runWith LogFilter.read (asking "float") ⟨none, none, none⟩ "12\x08\n").outputs =
        [.result "1"] := by
    decide +kernel
  cases hresult : ((Session.start .float).execute "12\x08").result with
  | ok output =>
    rw [hresult] at hnot
    cases hnot
  | error error =>
    obtain ⟨-, -, -, records, records', -, houtputs⟩ :=
      h.failing LogFilter.read ⟨none, none, none⟩ "" "12\x08\n" (.inl (by decide +kernel)) []
        "12\x08" [] error rfl ⟨trivial, hresult⟩
    rw [hdialogue] at houtputs
    have hmem : Output.failure error.message ∈ [Output.result "1"] := by
      rw [houtputs]
      simp
    simp at hmem

end Program

end Abacus
