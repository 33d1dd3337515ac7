/-
Abacus.Proofs.Session.Invariant — what holds of every session that can be reached.

Values are stored only from texts that are read as finite numbers, and names
only after they have been checked.  So whatever is entered, in whatever modes,
every variable can be read again under its name: the name was checked as the
lexer scans it.
-/
import Abacus.Proofs.Session.Lines
import Abacus.Session.Command

namespace Abacus

/-! ## The variables -/

namespace Variables

variable {vars : Variables} {name : String} {value : Binary64}

theorem get?_of_mem (h : (name, value) ∈ vars.entries) : vars.get? name = some value := by
  have hsorted := vars.sorted
  unfold get?
  generalize vars.entries = entries at h hsorted
  induction entries with
  | nil => cases h
  | cons entry entries ih =>
    obtain ⟨hfirst, hrest⟩ := List.pairwise_cons.1 hsorted
    rw [List.lookup_cons]
    rcases List.mem_cons.1 h with rfl | hmem
    · simp
    · have hne : (name == entry.1) = false := by
        simpa using (ne_of_lt (hfirst _ hmem)).symm
      rw [hne]
      exact ih hmem hrest

theorem mem_of_get? (h : vars.get? name = some value) : (name, value) ∈ vars.entries := by
  obtain ⟨before, behind, hentries, -⟩ := List.lookup_eq_some_iff.1 h
  rw [hentries]
  simp

theorem ne_of_get?_eq_none (h : vars.get? name = none) :
    ∀ entry ∈ vars.entries, entry.1 ≠ name := by
  intro entry hentry heq
  have hne := List.lookup_eq_none_iff.1 h entry hentry
  simp [heq] at hne

end Variables

namespace Session

/-! ## Entries -/

/-- A line that is entered: an expression or assignment, or a command. -/
inductive Entry where
  | line (text : String)
  | command (text : String)

/-- The session behind an entry, whether it succeeds or fails. -/
def enter (s : Session) : Entry → Session
  | .line text => (s.execute text).session
  | .command text => ((Command.read text).run s).session

/-- The session behind some entries. -/
def after (s : Session) (entries : List Entry) : Session :=
  entries.foldl enter s

/-! ## The invariant -/

/-- All values are finite, and all names are names of variables. -/
structure Sound (s : Session) : Prop where
  finite : ∀ entry ∈ s.vars.entries, entry.2.isFinite = true
  named : ∀ entry ∈ s.vars.entries, IsVariableName entry.1

theorem sound_start (mode : Mode) : (start mode).Sound := by
  have hnone : (start mode).vars.entries = [] := rfl
  constructor <;> simp [hnone]

theorem isVariableName_lastResult : IsVariableName lastResult where
  folded := by simp [lastResult, IsFoldedName, IsFolded, Char.isLower]
  free f := by cases f <;> simp [Elementary.name, lastResult]

section Steps

variable {s : Session} (h : s.Sound)
include h

theorem Sound.store {name : String} (hname : IsVariableName name) (text : String) :
    (s.store name text).1.Sound := by
  unfold Session.store
  split
  · constructor
    · intro entry hentry
      rcases Variables.mem_insertEntry hentry with rfl | hold
      · rfl
      · exact h.finite entry hold
    · intro entry hentry
      rcases Variables.mem_insertEntry hentry with rfl | hold
      · exact hname
      · exact h.named entry hold
  · exact h

theorem Sound.storeAll {names : List String} (hnames : ∀ name ∈ names, IsVariableName name)
    (text : String) : (s.storeAll text names).Sound := by
  induction names generalizing s with
  | nil => exact h
  | cons name names ih =>
    obtain ⟨hname, hrest⟩ := List.forall_mem_cons.1 hnames
    rw [storeAll_cons]
    exact ih (h.store hname text) hrest

theorem Sound.execute (line : String) : (s.execute line).session.Sound := by
  rcases s.execute_cases line with ⟨-, -, hsession⟩ | ⟨_, target, text, hasks, -, -, hsession⟩
  · rw [hsession]
    exact h
  · rw [hsession]
    refine h.storeAll (List.forall_mem_cons.2 ⟨isVariableName_lastResult, ?_⟩) text
    cases hasks with
    | value => simp
    | assignment _ _ hname => simpa using hname

/-- A command changes the mode at most. -/
theorem Sound.run (command : Command) : (command.run s).session.Sound := by
  cases command with
  | setMode name =>
    unfold Command.run
    dsimp only
    split
    · exact ⟨h.finite, h.named⟩
    · exact h
  | _ => exact h

theorem Sound.enter (entry : Entry) : (s.enter entry).Sound := by
  cases entry with
  | line text => exact h.execute text
  | command text => exact h.run (Command.read text)

theorem Sound.after (entries : List Entry) : (s.after entries).Sound := by
  induction entries generalizing s with
  | nil => exact h
  | cons entry entries ih => exact ih (h.enter entry)

end Steps

end Session

/-! ## Reading a variable -/

section Reading

variable {name : String} {before word after : List Char} (hname : IsVariableName name)
  (hbefore : Blanks before) (hword : lowercase word = name.toList) (hafter : Blanks after)
include hname hbefore hword hafter

/-- A name in any case between blanks is one token. -/
theorem tokenize_name (caps : Capabilities) :
    tokenize caps (String.ofList (before ++ (word ++ after))) = .ok [.identifier name] := by
  have hfolded := hname.folded
  rw [← hword] at hfolded
  have hofList : String.ofList (lowercase word) = name := by
    rw [hword, String.ofList_toList]
  have hstops : Stops Lexer.isNameChar after := by
    intro c hc
    exact isNameChar_of_isBlank (hafter c (List.mem_of_mem_head? hc))
  have hend : Lexer.Scans caps .operator after [] := by
    have hscan := Lexer.Scans.append_blanks hafter (.nil : Lexer.Scans caps .operator [] [])
    rwa [List.append_nil] at hscan
  have hscan : Lexer.Scans caps .operand (word ++ after) [.identifier name] := by
    have hidentifier := Lexer.Scans.identifier (nofun : Lexer.Slot.operand ≠ .operator)
      (Lexer.isWord_of_lowercase hfolded) hstops
      (by rw [hofList, Lexer.ofName?_of_isVariableName hname]) hend
    rwa [hofList] at hidentifier
  rw [tokenize_eq_ok_iff, String.toList_ofList]
  exact .append_blanks hbefore hscan

/-- The line has the value that the number system gives the variable. -/
theorem Calculator.evaluateIn_name {V : Type} (system : NumberSystem V) {environment : Environment}
    {value : Binary64} (hvalue : environment name = some value) :
    (evaluateIn system environment (String.ofList (before ++ (word ++ after)))).value =
      (system.ofVariable name value).mapError .evaluation := by
  rw [evaluateIn_of_tokenize (tokenize_name hname hbefore hword hafter system.capabilities)]
  change (Evaluation.evaluate system environment [.identifier name]).mapError _ = _
  rw [Evaluation.evaluate_eq, List.foldlM_cons, Evaluation.step_identifier, Expression.evaluate,
    hvalue]
  dsimp only
  cases system.ofVariable name value <;> rfl

theorem Calculator.evaluate_name (mode : Mode) {environment : Environment} {value : Binary64}
    (hvalue : environment name = some value) :
    (evaluate mode environment (String.ofList (before ++ (word ++ after)))).value =
      ((mode.system.ofVariable name value).map mode.system.render).mapError .evaluation := by
  rw [evaluate_eq]
  change (evaluateIn mode.system environment _).value.map mode.system.render = _
  rw [evaluateIn_name hname hbefore hword hafter mode.system hvalue]
  cases mode.system.ofVariable name value <;> rfl

end Reading

namespace Session

/-- The session in another mode. -/
def withMode (s : Session) (mode : Mode) : Session :=
  { s with mode := mode }

/-- A variable is readable if a line with its name, in any case and between blanks, prints
in double precision what the listing shows for it. -/
def Readable (s : Session) (name : String) (value : Binary64) : Prop :=
  s!"{name} = {value.format}" ∈ s.listing ∧
    ∀ before word after, Blanks before → lowercase word = name.toList → Blanks after →
      ((s.withMode .float).execute (String.ofList (before ++ (word ++ after)))).result =
        .ok value.format

theorem Sound.readable {s : Session} (h : s.Sound) {name : String} {value : Binary64}
    (hmem : (name, value) ∈ s.vars.entries) : s.Readable name value := by
  constructor
  · exact List.mem_map_of_mem (f := fun entry => s!"{entry.1} = {entry.2.format}") hmem
  · intro before word after hbefore hword hafter
    have hname := h.named _ hmem
    have hread : Mode.float.system.ofVariable name value = .ok value := if_pos (h.finite _ hmem)
    have hvalue := Calculator.evaluate_name hname hbefore hword hafter .float
      (Variables.get?_of_mem hmem)
    rw [hread] at hvalue
    rw [execute_of_tokenize (tokenize_name hname hbefore hword hafter .all)]
    exact (evaluate_of_ok hvalue).1

/-- In every session that lines and commands lead to from the start in some mode, each
variable has a finite value, a folded name that no function has, and can be read. -/
theorem variables_stay_readable (mode : Mode) (entries : List Entry) :
    ∀ name value, (name, value) ∈ ((start mode).after entries).vars.entries →
      value.isFinite = true ∧ IsVariableName name ∧
        ((start mode).after entries).Readable name value := by
  intro name value hmem
  have hsound := (sound_start mode).after entries
  exact ⟨hsound.finite _ hmem, hsound.named _ hmem, hsound.readable hmem⟩

/-- A quarter that is stored in decimals outlives a change of the mode and a line that
fails, and is read in capitals. -/
theorem variables_stay_readable_quarter :
    ∃ s, s = (start .decimal).after
        [.line "X_1 = 1 / 4", .command ":mode int", .line "ans + 1", .line "n = 2 * 3"] ∧
      ("x_1", Binary64.ofNumeral ⟨false, 25, -2⟩) ∈ s.vars.entries ∧
      ((s.withMode .float).execute " X_1 ").result =
        .ok (Binary64.ofNumeral ⟨false, 25, -2⟩).format := by
  have hmem : ("x_1", Binary64.ofNumeral ⟨false, 25, -2⟩) ∈ ((start .decimal).after
      [.line "X_1 = 1 / 4", .command ":mode int", .line "ans + 1",
        .line "n = 2 * 3"]).vars.entries := by
    decide +kernel
  obtain ⟨-, -, -, hread⟩ := variables_stay_readable .decimal
    [.line "X_1 = 1 / 4", .command ":mode int", .line "ans + 1", .line "n = 2 * 3"] _ _ hmem
  refine ⟨_, rfl, hmem, hread [' '] ['X', '_', '1'] [' '] ?_ ?_ ?_⟩
  · simp [Blanks, isBlank]
  · decide +kernel
  · simp [Blanks, isBlank]

end Session

end Abacus
