/-
Abacus.Proofs.Session.Lookup — a line with the name of a variable.

Such a line prints the value of the variable in the mode of the session and
keeps it as the last result.  Nothing is lost on the way through any mode: what
is kept has the value of the variable again (`reading_keeps_values`).
-/
import Abacus.Proofs.NumberSystem.Lookup
import Abacus.Proofs.Session.Replay

namespace Abacus

/-! ## The line -/

namespace Calculator

variable {name : String} (hname : IsVariableName name) {environment : Environment}
  {value : Binary64} (hvalue : environment name = some value)
include hname hvalue

/-- A name alone has the value that the number system gives its variable. -/
theorem evaluateIn_variable {V : Type} (system : NumberSystem V) :
    (evaluateIn system environment name).value =
      (system.ofVariable name value).mapError .evaluation := by
  have hblank : Blanks [] := nofun
  have hline := evaluateIn_name hname hblank (lowercase_of_isFoldedName hname.folded) hblank
    system hvalue
  rwa [List.nil_append, List.append_nil, String.ofList_toList] at hline

theorem evaluate_variable (mode : Mode) :
    (evaluate mode environment name).value =
      ((mode.system.ofVariable name value).map mode.system.render).mapError .evaluation := by
  have hblank : Blanks [] := nofun
  have hline := evaluate_name hname hblank (lowercase_of_isFoldedName hname.folded) hblank
    mode hvalue
  rwa [List.nil_append, List.append_nil, String.ofList_toList] at hline

end Calculator

namespace Session

/-- A command changes the mode at most. -/
theorem vars_run (s : Session) (command : Command) : (command.run s).session.vars = s.vars := by
  cases command with
  | setMode name =>
    unfold Command.run
    dsimp only
    split <;> rfl
  | _ => rfl

section Variable

variable {s : Session} {name : String} {value : Binary64} (h : s.Sound)
  (hvalue : s.vars.get? name = some value)
include h hvalue

theorem Sound.isVariableName : IsVariableName name :=
  h.named _ (Variables.mem_of_get? hvalue)

theorem Sound.exists_finite : ∃ x : Finite Format.binary64, value = .finite x := by
  have hfinite := h.finite _ (Variables.mem_of_get? hvalue)
  cases value with
  | nan => cases hfinite
  | infinite negative => cases hfinite
  | finite x => exact ⟨x, rfl⟩

theorem Sound.execute_name : s.execute name = s.evaluate name := by
  have hname := h.isVariableName hvalue
  have hblank : Blanks [] := nofun
  have htokens := tokenize_name hname hblank (lowercase_of_isFoldedName hname.folded) hblank .all
  rw [List.nil_append, List.append_nil, String.ofList_toList] at htokens
  exact execute_of_tokenize htokens

/-- What the line shows in the mode of the session. -/
theorem Sound.result_name {mode : Mode} (hmode : s.mode = mode) :
    (s.execute name).result =
      (((mode.system.ofVariable name value).map mode.system.render).mapError
        CalculationError.evaluation).mapError .calculation := by
  rw [h.execute_name hvalue, result_evaluate, hmode,
    Calculator.evaluate_variable (h.isVariableName hvalue) hvalue]

/-- What the line shows is read as the value of the variable. -/
theorem Sound.sets_name {text : String} (hresult : (s.execute name).result = .ok text) :
    ∃ stored : Binary64, stored.SameValue value ∧
      s.Sets (s.execute name).session [lastResult] stored := by
  rw [h.execute_name hvalue] at hresult ⊢
  rw [result_evaluate, mapError_eq_ok_iff] at hresult
  obtain ⟨x, rfl⟩ := h.exists_finite hvalue
  obtain ⟨y, hy, hrender⟩ := Calculator.evaluate_eq_ok_iff.1 hresult
  rw [Calculator.evaluateIn_variable (h.isVariableName hvalue) hvalue, mapError_eq_ok_iff] at hy
  obtain ⟨n, hdenotes, hn⟩ := s.mode.keepsVariables name x y hy
  rw [hrender] at hdenotes
  obtain ⟨stored, hread, hsame⟩ :=
    Binary64.read?_of_denotes (Calculator.isPrinted_of_evaluate hresult) hdenotes hn
  refine ⟨.finite stored, hsame, ?_⟩
  rw [(evaluate_of_ok hresult).2]
  exact storeAll_of_finite hread s _

end Variable

/-! ## All modes -/

/-- Behind any command, in a session that can be reached, the name of a variable is a line that
has a result in double precision and in decimals, where both texts denote the same number, and
with integers exactly if the value is a whole number.  Whenever there is a result, the value is
kept as the last one, and all other variables stay as they were. -/
theorem reading_keeps_values {s t : Session} (h : s.Reachable) {name : String} {value : Binary64}
    (hvalue : s.vars.get? name = some value) {command : String}
    (ht : t = s.enter (.command command)) :
    t.vars = s.vars ∧
    (t.mode = .float → (t.execute name).result = .ok value.format) ∧
    (t.mode = .decimal → ∃ text q, (t.execute name).result = .ok text ∧ Denotes text q ∧
      Denotes value.format q) ∧
    (t.mode = .integer →
      (∀ n, value.IsInt n → (t.execute name).result = .ok (toString n)) ∧
      ((∀ n, ¬value.IsInt n) → (t.execute name).result =
        .error (.calculation (.evaluation (.overflow (.variableNotIntegral name value.text)))))) ∧
    ∀ text, (t.execute name).result = .ok text → ∃ stored : Binary64, stored.SameValue value ∧
      t.Sets (t.execute name).session [lastResult] stored := by
  subst ht
  have hvars : (s.enter (.command command)).vars = s.vars := vars_run s (Command.read command)
  have hsound := h.sound.enter (.command command)
  generalize s.enter (.command command) = t at hvars hsound
  rw [← hvars] at hvalue
  obtain ⟨x, rfl⟩ := hsound.exists_finite hvalue
  refine ⟨hvars, ?float, ?decimal, ?integer, fun _ => hsound.sets_name hvalue⟩
  case float =>
    intro hmode
    exact hsound.result_name hvalue hmode
  case decimal =>
    intro hmode
    obtain ⟨y, hy, hdenotes⟩ := NumberSystem.Decimal.exists_ofVariable name x
    have hlookup : Mode.decimal.system.ofVariable = NumberSystem.Decimal.ofVariable := rfl
    have hresult := hsound.result_name hvalue hmode
    rw [hlookup, hy] at hresult
    exact ⟨_, _, hresult, hdenotes, NumberSystem.Float.format_denotes x⟩
  case integer =>
    intro hmode
    have hlookup : Mode.integer.system.ofVariable = NumberSystem.Integer.ofVariable := rfl
    have hresult := hsound.result_name hvalue hmode
    rw [hlookup] at hresult
    constructor
    · intro n hn
      rw [hresult, NumberSystem.Integer.ofVariable_isInt hn]
      rfl
    · intro hfraction
      rw [hresult, NumberSystem.Integer.ofVariable_of_forall_not hfraction]
      rfl

/-- A power of two with nineteen digits is shown in decimals with the zeros of its shortest
digits, and in integers exactly; both are kept as the same double.  An eighth is no integer. -/
theorem reading_keeps_values_power :
    ∃ s : Session, s.Reachable ∧
      (∃ text q, ((s.enter (.command ":mode decimal")).execute "n").result = .ok text ∧
        Denotes text q ∧ Denotes "1152921504606847000" q) ∧
      ((s.enter (.command ":mode int")).execute "n").result = .ok "1152921504606846976" ∧
      (∃ stored : Binary64,
        stored.SameValue (Binary64.ofNumeral ⟨false, 1152921504606846976, 0⟩) ∧
        (s.enter (.command ":mode int")).Sets
          ((s.enter (.command ":mode int")).execute "n").session [lastResult] stored) ∧
      ((s.enter (.command ":mode int")).execute "x").result =
        .error (.calculation (.evaluation (.overflow (.variableNotIntegral "x" "0.125")))) := by
  have hreach : ((start .float).after
      [.line "x = 1 / 8", .line "n = 1152921504606846976"]).Reachable := ⟨_, _, rfl⟩
  have hpower : ((start .float).after
      [.line "x = 1 / 8", .line "n = 1152921504606846976"]).vars.get? "n" =
        some (Binary64.ofNumeral ⟨false, 1152921504606846976, 0⟩) := by
    decide +kernel
  have height : ((start .float).after
      [.line "x = 1 / 8", .line "n = 1152921504606846976"]).vars.get? "x" =
        some (Binary64.ofNumeral ⟨false, 125, -3⟩) := by
    decide +kernel
  have hwhole : Floating.IsInt 1152921504606846976
      (Binary64.ofNumeral ⟨false, 1152921504606846976, 0⟩) :=
    NumberSystem.Integer.exists_of_ofVariable
      (by decide +kernel : NumberSystem.Integer.ofVariable "n" _ = _)
  have hfraction (n : ℤ) : ¬Floating.IsInt n (Binary64.ofNumeral ⟨false, 125, -3⟩) := by
    intro hn
    have herror : NumberSystem.Integer.ofVariable "x" (Binary64.ofNumeral ⟨false, 125, -3⟩) =
        .error (.overflow (.variableNotIntegral "x" "0.125")) := by
      decide +kernel
    cases (NumberSystem.Integer.ofVariable_isInt hn).symm.trans herror
  have hformat : Binary64.format (Binary64.ofNumeral ⟨false, 1152921504606846976, 0⟩) =
      "1152921504606847000" := by
    decide +kernel
  have htext : Binary64.text (Binary64.ofNumeral ⟨false, 125, -3⟩) = "0.125" := by
    decide +kernel
  obtain ⟨-, -, hdecimal, -, -⟩ := reading_keeps_values hreach hpower
    (rfl : _ = Session.enter _ (.command ":mode decimal"))
  obtain ⟨-, -, -, hinteger, hkeeps⟩ := reading_keeps_values hreach hpower
    (rfl : _ = Session.enter _ (.command ":mode int"))
  obtain ⟨-, -, -, hinteger', -⟩ := reading_keeps_values hreach height
    (rfl : _ = Session.enter _ (.command ":mode int"))
  have hresult := (hinteger (by decide +kernel)).1 _ hwhole
  have herror := (hinteger' (by decide +kernel)).2 hfraction
  rw [hformat] at hdecimal
  rw [htext] at herror
  exact ⟨_, hreach, hdecimal (by decide +kernel), hresult, hkeeps _ hresult, herror⟩

end Session

end Abacus
