/-
Abacus.Proofs.Session.Replay — the listing of the variables as lines.

Each line of a listing is an assignment that prints itself and stores a number
with the value that it lists (`execute_listed`).  No name is listed twice, so
running the listing in a new session in double precision brings all variables
back (`listing_replays`); only the last result is then that of the last line.
-/
import Abacus.Proofs.Evaluation.Substitution
import Abacus.Proofs.NumberSystem.Storing
import Abacus.Proofs.Session.Targets

namespace Abacus

/-! ## Blanks around names and literals -/

theorem tokenize_blanks {caps : Capabilities} {gap : List Char} {line : String}
    {tokens : List Token} (hgap : Blanks gap) (h : tokenize caps line = .ok tokens) :
    tokenize caps (String.ofList (gap ++ line.toList)) = .ok tokens := by
  rw [tokenize_eq_ok_iff, String.toList_ofList]
  exact .append_blanks hgap (tokenize_eq_ok_iff.1 h)

/-- The text of a finite number, behind blanks, has itself as its result. -/
theorem Calculator.evaluate_format {x : Binary64} (hx : x.isFinite = true) {gap : List Char}
    (hgap : Blanks gap) (environment : Environment) :
    (evaluate .float environment (String.ofList (gap ++ x.format.toList))).value =
      .ok x.format := by
  obtain ⟨hliteral, y, hread, hrender⟩ := NumberSystem.Float.format_readsBack hx
  have hvalue := evaluateIn_literal hliteral hread environment
  have htokens : tokenize NumberSystem.float.capabilities x.format = .ok [.number x.format] :=
    tokenize_literal hliteral
  rw [evaluateIn_of_tokenize htokens, ← evaluateIn_of_tokenize (tokenize_blanks hgap htokens)]
    at hvalue
  exact evaluate_eq_ok_iff.2 ⟨y, hvalue, hrender⟩

namespace Session

/-! ## The mode -/

theorem mode_storeAll (s : Session) (text : String) (names : List String) :
    (s.storeAll text names).mode = s.mode := by
  induction names generalizing s with
  | nil => rfl
  | cons name names ih =>
    rw [storeAll_cons, ih, store]
    split <;> rfl

theorem mode_execute (s : Session) (line : String) : (s.execute line).session.mode = s.mode := by
  rcases s.execute_cases line with ⟨_, -, hsession⟩ | ⟨_, _, text, -, -, -, hsession⟩
  · rw [hsession]
  · rw [hsession, mode_storeAll]

/-- Lines never change the mode. -/
theorem mode_lines (s : Session) (lines : List String) :
    (s.after (lines.map .line)).mode = s.mode := by
  induction lines generalizing s with
  | nil => rfl
  | cons line lines ih => exact (ih _).trans (mode_execute s line)

/-! ## One line of a listing -/

/-- The line that lists a variable. -/
def listed (entry : String × Binary64) : String :=
  s!"{entry.1} = {entry.2.format}"

theorem listing_eq (s : Session) : s.listing = s.vars.entries.map listed :=
  rfl

/-- A listed line is an assignment. -/
theorem asks_listed {name : String} (hname : IsVariableName name) (value : Binary64) :
    Asks (listed (name, value)) (String.ofList ([' '] ++ value.format.toList)) (some name) := by
  have hchar : ∀ c ∈ name.toList, Lexer.isNameChar c = true :=
    fun c hc => isNameChar_of_isFolded (hname.isFolded c hc)
  have hline : listed (name, value) =
      String.ofList (name.toList ++ [' '] ++ '=' :: ([' '] ++ value.format.toList)) := by
    rw [← String.toList_inj, String.toList_ofList]
    simp [listed, toString]
  rw [hline]
  refine .assignment ?_ ?_ hname
  · intro hmem
    rcases List.mem_append.1 hmem with hmem | hmem
    · exact absurd (hchar '=' hmem) (by decide)
    · exact absurd hmem (by decide)
  · have hblank : ∀ c ∈ name.toList, isBlank c = false := by
      intro c hc
      rw [Bool.eq_false_iff]
      intro hb
      cases (hchar c hc).symm.trans (isNameChar_of_isBlank hb)
    rw [trim_append_blanks hblank (by simp [Blanks, isBlank]),
      lowercase_of_isFoldedName hname.folded]

/-- In double precision a listed line prints itself and stores a number with the value
listed. -/
theorem execute_listed {s : Session} (hmode : s.mode = .float) {name : String} {value : Binary64}
    (hname : IsVariableName name) (hvalue : value.isFinite = true) :
    (s.execute (listed (name, value))).result = .ok (listed (name, value)) ∧
      ∃ stored, Floating.SameValue (.finite stored) value ∧
        s.Sets (s.execute (listed (name, value))).session [lastResult, name] (.finite stored) := by
  have hblank : Blanks [' '] := by simp [Blanks, isBlank]
  have htext := Calculator.evaluate_format hvalue hblank s.vars.get?
  rw [← hmode] at htext
  obtain ⟨hresult, hsession⟩ := execute_of_ok (asks_listed hname value) htext
  obtain ⟨stored, hread, hsame⟩ := Binary64.read?_format hvalue
  refine ⟨hresult, stored, hsame, ?_⟩
  rw [hsession]
  exact storeAll_of_finite hread s _

/-! ## The whole listing -/

/-- The session `s'` is `s` with some variables; nothing is said of the last result. -/
structure Replays (s s' : Session) (entries : List (String × Binary64)) : Prop where
  set : ∀ entry ∈ entries, entry.1 ≠ lastResult →
    ∃ value, s'.vars.get? entry.1 = some value ∧ value.SameValue entry.2
  kept : ∀ name, name ≠ lastResult → (∀ entry ∈ entries, entry.1 ≠ name) →
    s'.vars.get? name = s.vars.get? name

/-- No name is listed twice, so no line takes back what an earlier one stored. -/
theorem replays_listed {s : Session} (hmode : s.mode = .float)
    {entries : List (String × Binary64)} (hsorted : entries.Pairwise fun a b => a.1 < b.1)
    (hnamed : ∀ entry ∈ entries, IsVariableName entry.1)
    (hfinite : ∀ entry ∈ entries, entry.2.isFinite = true) :
    s.Replays (s.after ((entries.map listed).map .line)) entries := by
  induction entries generalizing s with
  | nil => exact ⟨List.forall_mem_nil _, fun _ _ _ => rfl⟩
  | cons entry entries ih =>
    obtain ⟨hname, hnamed⟩ := List.forall_mem_cons.1 hnamed
    obtain ⟨hvalue, hfinite⟩ := List.forall_mem_cons.1 hfinite
    obtain ⟨hfirst, hsorted⟩ := List.pairwise_cons.1 hsorted
    obtain ⟨-, stored, hsame, hsets⟩ := execute_listed hmode hname hvalue
    obtain ⟨hset, hkept⟩ := ih (hsets.mode.trans hmode) hsorted hnamed hfinite
    constructor
    case set =>
      refine List.forall_mem_cons.2 ⟨fun hne => ?_, hset⟩
      refine ⟨.finite stored, ?_, hsame⟩
      refine (hkept entry.1 hne fun other hother => (ne_of_lt (hfirst other hother)).symm).trans ?_
      exact hsets.set entry.1 (by simp)
    case kept =>
      intro name hne hother
      obtain ⟨hentry, hother⟩ := List.forall_mem_cons.1 hother
      refine (hkept name hne hother).trans (hsets.kept name ?_)
      simp [hne, Ne.symm hentry]

/-- A session that entries lead to from the start in some mode. -/
def Reachable (s : Session) : Prop :=
  ∃ mode entries, s = (start mode).after entries

theorem Reachable.sound {s : Session} (h : s.Reachable) : s.Sound := by
  obtain ⟨mode, entries, rfl⟩ := h
  exact (sound_start mode).after entries

/-- The session behind the lines of a listing, in double precision. -/
def replay (lines : List String) : Session :=
  (start .float).after (lines.map .line)

/-- The listing of a session that can be reached can be entered line by line in a new
session in double precision.  Each line has a result, and prints itself; behind them all
variables other than the last result have the same values as before, and there are no
others. -/
theorem listing_replays {s : Session} (h : s.Reachable) :
    (∀ before line behind, s.listing = before ++ line :: behind →
      ((replay before).execute line).result = .ok line) ∧
    (∀ name value, name ≠ lastResult → s.vars.get? name = some value →
      ∃ value', (replay s.listing).vars.get? name = some value' ∧ value'.SameValue value) ∧
    ∀ name, name ≠ lastResult → s.vars.get? name = none →
      (replay s.listing).vars.get? name = none := by
  have hsound := h.sound
  obtain ⟨hset, hkept⟩ := replays_listed (s := start .float) rfl s.vars.sorted hsound.named
    hsound.finite
  refine ⟨?lines, ?present, ?absent⟩
  case lines =>
    intro before line behind hlisting
    have hmem : line ∈ s.vars.entries.map listed := by
      rw [← listing_eq, hlisting]
      simp
    obtain ⟨entry, hentry, rfl⟩ := List.mem_map.1 hmem
    have hmode : (replay before).mode = .float := mode_lines _ before
    exact (execute_listed hmode (hsound.named _ hentry) (hsound.finite _ hentry)).1
  case present =>
    intro name value hne hvalue
    exact hset (name, value) (Variables.mem_of_get? hvalue) hne
  case absent =>
    intro name hne hnone
    exact hkept name hne (Variables.ne_of_get?_eq_none hnone)

/-- A seventh that was stored in decimals and a factorial of integers come back in double
precision. -/
theorem listing_replays_seventh :
    ∃ s : Session, s.Reachable ∧
      s.listing = ["ans = 720", "n = 720", "x = -0.14285714285714285"] ∧
      ((replay ["ans = 720", "n = 720"]).execute "x = -0.14285714285714285").result =
        .ok "x = -0.14285714285714285" ∧
      (∃ value, (replay s.listing).vars.get? "x" = some value ∧
        value.SameValue (Binary64.ofNumeral ⟨true, 14285714285714285, -17⟩)) ∧
      (replay s.listing).vars.get? "y" = none := by
  have hlisting : ((start .decimal).after
      [.line "X = -1 / 7", .command ":mode int", .line "n = 6!"]).listing =
        ["ans = 720", "n = 720", "x = -0.14285714285714285"] := by
    decide +kernel
  have hvalue : ((start .decimal).after
      [.line "X = -1 / 7", .command ":mode int", .line "n = 6!"]).vars.get? "x" =
        some (Binary64.ofNumeral ⟨true, 14285714285714285, -17⟩) := by
    decide +kernel
  have hnone : ((start .decimal).after
      [.line "X = -1 / 7", .command ":mode int", .line "n = 6!"]).vars.get? "y" = none := by
    decide +kernel
  obtain ⟨hlines, hpresent, habsent⟩ := listing_replays
    ⟨.decimal, [.line "X = -1 / 7", .command ":mode int", .line "n = 6!"], rfl⟩
  exact ⟨_, ⟨_, _, rfl⟩, hlisting,
    hlines ["ans = 720", "n = 720"] "x = -0.14285714285714285" [] hlisting,
    hpresent "x" _ (by decide) hvalue, habsent "y" (by decide) hnone⟩

end Session

end Abacus
