/-
Abacus.Proofs.Session.Lines — what a line does to a session.

A line asks for the value of an expression and may give it a name
(`Session.Asks`).  Either it fails and the session stays as it was, or the
printed value is stored as the last result and under the name
(`Session.execute_cases`).  What is stored is the double nearest to the
printed value, unless that is beyond the range.
-/
import Abacus.Proofs.Floating.Closest
import Abacus.Proofs.NumberSystem.PrintedText
import Abacus.Proofs.Syntax.Features
import Abacus.Session

namespace Abacus

/-! ## Names in front of an equals sign -/

namespace Assignment

theorem split?_eq_none_iff {cs : List Char} : split? cs = none ↔ '=' ∉ cs := by
  induction cs with
  | nil => simp [split?]
  | cons c cs ih =>
    rw [split?]
    split_ifs with hc
    · simp [hc]
    · simp [ih, Ne.symm hc]

theorem split?_eq_some_iff {cs target expression : List Char} :
    split? cs = some (target, expression) ↔
      cs = target ++ '=' :: expression ∧ '=' ∉ target := by
  induction cs generalizing target with
  | nil => simp [split?]
  | cons c cs ih =>
    rw [split?]
    split_ifs with hc
    · subst hc
      cases target with
      | nil => simp [eq_comm]
      | cons d target =>
        constructor
        · intro h
          cases h
        · rintro ⟨h, hmem⟩
          obtain ⟨rfl, -⟩ := List.cons.inj h
          exact absurd List.mem_cons_self hmem
    · rw [Option.map_eq_some_iff]
      constructor
      · rintro ⟨⟨before, behind⟩, hsplit, h⟩
        cases h
        obtain ⟨rfl, hmem⟩ := ih.1 hsplit
        exact ⟨rfl, by simp [Ne.symm hc, hmem]⟩
      · rintro ⟨h, hmem⟩
        cases target with
        | nil => exact absurd (List.cons.inj h).1 hc
        | cons d target =>
          obtain ⟨rfl, rfl⟩ := List.cons.inj h
          exact ⟨(target, expression), ih.2 ⟨rfl, List.not_mem_of_not_mem_cons hmem⟩, rfl⟩

theorem isName_lowercase_iff {cs : List Char} :
    isName (lowercase cs) = true ↔ IsFoldedName (lowercase cs) := by
  cases cs with
  | nil => simp [isName, lowercase, IsFoldedName]
  | cons c cs =>
    have hrest (d : Char) : Lexer.isNameChar d.toLower = true ↔ IsFolded d.toLower :=
      ⟨isFolded_of_isNameChar_toLower, isNameChar_of_isFolded⟩
    simp only [Lexer.isNameChar] at hrest
    simp [isName, lowercase, IsFoldedName, hrest]

/-- A text stands for a name if it folds to one, without the blanks around it. -/
theorem name_eq_ok_iff {target : List Char} {name : String} :
    Assignment.name target = .ok name ↔
      name.toList = lowercase (trim target) ∧ IsVariableName name := by
  unfold Assignment.name
  dsimp only
  constructor
  · intro h
    split_ifs at h with hname hfunction
    cases h
    rw [Bool.not_eq_true', Bool.not_eq_false, isName_lowercase_iff] at hname
    refine ⟨String.toList_ofList, by rwa [String.toList_ofList], fun f hf => ?_⟩
    rw [← hf, Lexer.ofName?_name] at hfunction
    exact hfunction rfl
  · rintro ⟨htext, hname⟩
    have hfolded := hname.folded
    have hofList : String.ofList (lowercase (trim target)) = name := by
      rw [← htext, String.ofList_toList]
    rw [htext] at hfolded
    rw [isName_lowercase_iff.2 hfolded, hofList, Lexer.ofName?_of_isVariableName hname]
    simp

end Assignment

namespace Session

/-- What a line asks for: the value of the whole line, if there is no equals sign in it;
otherwise that of the text behind the first one, under the name that the text in front
of it folds to. -/
inductive Asks : String → String → Option String → Prop
  | value {line : String} : '=' ∉ line.toList → Asks line line none
  | assignment {target expression : List Char} {name : String} : '=' ∉ target →
      name.toList = lowercase (trim target) → IsVariableName name →
      Asks (String.ofList (target ++ '=' :: expression)) (String.ofList expression) (some name)

/-- A line asks for one thing. -/
theorem Asks.unique {line expression expression' : String} {target target' : Option String}
    (h : Asks line expression target) (h' : Asks line expression' target') :
    expression = expression' ∧ target = target' := by
  cases h with
  | value hequals =>
    cases h' with
    | value => exact ⟨rfl, rfl⟩
    | assignment => exact absurd (by simp) hequals
  | @assignment before behind name hbefore hname =>
    generalize hline : String.ofList (before ++ '=' :: behind) = line at h'
    have htext : line.toList = before ++ '=' :: behind := by
      rw [← hline, String.toList_ofList]
    cases h' with
    | value hequals => exact absurd (by simp [htext]) hequals
    | @assignment before' behind' name' hbefore' hname' =>
      rw [String.toList_ofList] at htext
      have hsplit := Assignment.split?_eq_some_iff.2 ⟨htext, hbefore⟩
      rw [Assignment.split?_eq_some_iff.2 ⟨rfl, hbefore'⟩] at hsplit
      obtain ⟨rfl, rfl⟩ := Prod.mk.inj (Option.some.inj hsplit)
      exact ⟨rfl, congrArg some (String.toList_inj.1 (hname.trans hname'.symm))⟩

/-- How a value is shown, with the name it was given. -/
def shown (text : String) : Option String → String
  | none => text
  | some name => s!"{name} = {text}"

/-! ## Storing -/

/-- `s'` is `s` but for the values of these names. -/
structure Sets (s s' : Session) (names : List String) (value : Binary64) : Prop where
  mode : s'.mode = s.mode
  set : ∀ name ∈ names, s'.vars.get? name = some value
  kept : ∀ name, name ∉ names → s'.vars.get? name = s.vars.get? name

/-- Store a printed value under one name after the other. -/
def storeAll (s : Session) (text : String) (names : List String) : Session :=
  names.foldl (fun s name => (s.store name text).1) s

theorem storeAll_cons (s : Session) (text name : String) (names : List String) :
    s.storeAll text (name :: names) = (s.store name text).1.storeAll text names :=
  rfl

theorem store_of_finite {text : String} {x : Finite Format.binary64}
    (h : Binary64.read? text = some (.finite x)) (s : Session) (name : String) :
    (s.store name text).1 = { s with vars := s.vars.insert name (.finite x) } := by
  unfold store
  rw [h]

theorem store_of_infinite {text : String} {negative : Bool}
    (h : Binary64.read? text = some (.infinite negative)) (s : Session) (name : String) :
    (s.store name text).1 = s := by
  unfold store
  rw [h]

theorem storeAll_of_finite {text : String} {x : Finite Format.binary64}
    (h : Binary64.read? text = some (.finite x)) (s : Session) (names : List String) :
    s.Sets (s.storeAll text names) names (.finite x) := by
  induction names generalizing s with
  | nil => exact ⟨rfl, nofun, fun _ _ => rfl⟩
  | cons name names ih =>
    rw [storeAll_cons, store_of_finite h]
    obtain ⟨hmode, hset, hkept⟩ := ih { s with vars := s.vars.insert name (.finite x) }
    refine ⟨hmode, ?_, ?_⟩
    · intro other hmem
      by_cases hlater : other ∈ names
      · exact hset other hlater
      · obtain rfl : other = name := (List.mem_cons.1 hmem).resolve_right hlater
        refine (hkept other hlater).trans ?_
        exact Variables.get?_insert_self _ _ _
    · intro other hmem
      rw [List.mem_cons, not_or] at hmem
      refine (hkept other hmem.2).trans ?_
      exact Variables.get?_insert_of_ne _ hmem.1 _

theorem storeAll_of_infinite {text : String} {negative : Bool}
    (h : Binary64.read? text = some (.infinite negative)) (s : Session) (names : List String) :
    s.storeAll text names = s := by
  induction names with
  | nil => rfl
  | cons name names ih =>
    rw [storeAll_cons, store_of_infinite h, ih]

/-! ## Running a line -/

theorem result_evaluate (s : Session) (expression : String) :
    (s.evaluate expression).result =
      (Calculator.evaluate s.mode s.vars.get? expression).value.mapError .calculation := by
  unfold evaluate
  generalize Calculator.evaluate s.mode s.vars.get? expression = logged
  obtain ⟨log, result⟩ := logged
  cases result <;> rfl

theorem evaluate_of_ok {s : Session} {expression text : String}
    (h : (Calculator.evaluate s.mode s.vars.get? expression).value = .ok text) :
    (s.evaluate expression).result = .ok text ∧
      (s.evaluate expression).session = s.storeAll text [lastResult] := by
  unfold evaluate
  generalize Calculator.evaluate s.mode s.vars.get? expression = logged at h ⊢
  obtain ⟨log, result⟩ := logged
  subst h
  exact ⟨rfl, rfl⟩

theorem evaluate_of_error {s : Session} {expression : String} {error : CalculationError}
    (h : (Calculator.evaluate s.mode s.vars.get? expression).value = .error error) :
    (s.evaluate expression).result = .error (.calculation error) ∧
      (s.evaluate expression).session = s := by
  unfold evaluate
  generalize Calculator.evaluate s.mode s.vars.get? expression = logged at h ⊢
  obtain ⟨log, result⟩ := logged
  subst h
  exact ⟨rfl, rfl⟩

theorem execute_of_not_mem {s : Session} {line : String} (h : '=' ∉ line.toList) :
    s.execute line = s.evaluate line := by
  unfold execute
  rw [Assignment.split?_eq_none_iff.2 h]

/-- A line that has tokens is no assignment. -/
theorem execute_of_tokenize {s : Session} {caps : Capabilities} {line : String}
    {tokens : List Token} (h : tokenize caps line = .ok tokens) :
    s.execute line = s.evaluate line :=
  execute_of_not_mem (tokenize_eq_ok_iff.1 h).equals_not_mem

theorem execute_assignment (s : Session) {target expression : List Char} {name : String}
    (htarget : '=' ∉ target) (hfolded : name.toList = lowercase (trim target))
    (hname : IsVariableName name) :
    s.execute (String.ofList (target ++ '=' :: expression)) =
      (s.evaluate (String.ofList expression)).assign name := by
  unfold execute
  rw [String.toList_ofList, Assignment.split?_eq_some_iff.2 ⟨rfl, htarget⟩]
  dsimp only
  rw [Assignment.name_eq_ok_iff.2 ⟨hfolded, hname⟩]

section

variable {s : Session} {line expression : String} {target : Option String}
  (hasks : Asks line expression target)
include hasks

/-- The value of a line is stored as the last result and then under its name. -/
theorem execute_of_ok {text : String}
    (h : (Calculator.evaluate s.mode s.vars.get? expression).value = .ok text) :
    (s.execute line).result = .ok (shown text target) ∧
      (s.execute line).session = s.storeAll text (lastResult :: target.toList) := by
  obtain ⟨hresult, hsession⟩ := evaluate_of_ok h
  cases hasks with
  | value hequals =>
    rw [execute_of_not_mem hequals]
    exact ⟨hresult, hsession⟩
  | assignment htarget hfolded hname =>
    rw [execute_assignment s htarget hfolded hname, Step.assign, hresult]
    refine ⟨rfl, ?_⟩
    dsimp only
    rw [hsession]
    rfl

theorem execute_of_error {error : CalculationError}
    (h : (Calculator.evaluate s.mode s.vars.get? expression).value = .error error) :
    (s.execute line).result = .error (.calculation error) ∧ (s.execute line).session = s := by
  obtain ⟨hresult, hsession⟩ := evaluate_of_error h
  cases hasks with
  | value hequals =>
    rw [execute_of_not_mem hequals]
    exact ⟨hresult, hsession⟩
  | assignment htarget hfolded hname =>
    rw [execute_assignment s htarget hfolded hname, Step.assign, hresult]
    exact ⟨hresult, hsession⟩

end

/-- A line asks for something, or what stands in front of its equals sign is no name. -/
theorem exists_asks_or_error (s : Session) (line : String) :
    (∃ expression target, Asks line expression target) ∨
      ∃ error, (s.execute line).result = .error (.name error) ∧ (s.execute line).session = s := by
  cases hsplit : Assignment.split? line.toList with
  | none => exact .inl ⟨line, none, .value (Assignment.split?_eq_none_iff.1 hsplit)⟩
  | some parts =>
    obtain ⟨target, expression⟩ := parts
    cases hname : Assignment.name target with
    | error error =>
      right
      unfold execute
      rw [hsplit]
      dsimp only
      rw [hname]
      exact ⟨error, rfl, rfl⟩
    | ok name =>
      obtain ⟨htext, htarget⟩ := Assignment.split?_eq_some_iff.1 hsplit
      obtain ⟨hfolded, hvariable⟩ := Assignment.name_eq_ok_iff.1 hname
      rw [← String.ofList_toList (s := line), htext]
      exact .inl ⟨_, _, .assignment htarget hfolded hvariable⟩

/-- A line fails and leaves the session as it was, or it stores the value of its
expression as the last result and then under its name. -/
theorem execute_cases (s : Session) (line : String) :
    (∃ error, (s.execute line).result = .error error ∧ (s.execute line).session = s) ∨
    ∃ expression target text, Asks line expression target ∧
      (Calculator.evaluate s.mode s.vars.get? expression).value = .ok text ∧
      (s.execute line).result = .ok (shown text target) ∧
      (s.execute line).session = s.storeAll text (lastResult :: target.toList) := by
  rcases s.exists_asks_or_error line with ⟨expression, target, hasks⟩ | ⟨error, herror⟩
  · cases hvalue : (Calculator.evaluate s.mode s.vars.get? expression).value with
    | error error => exact .inl ⟨_, execute_of_error hasks hvalue⟩
    | ok text => exact .inr ⟨expression, target, text, hasks, hvalue, execute_of_ok hasks hvalue⟩
  · exact .inl ⟨_, herror⟩

/-- A line that fails changes nothing.  A line with a result leaves the mode and
evaluates its expression with the variables as they were; then the last result and the
name of an assignment have the double nearest to the printed value and no other
variable has changed, or, where that is beyond the range (from `2 ^ 1024 - 2 ^ 970` on),
none at all. -/
theorem line_is_atomic (s : Session) (line : String) :
    (∀ error, (s.execute line).result = .error error → (s.execute line).session = s) ∧
    ∀ output, (s.execute line).result = .ok output →
      ∃ expression target text n, Asks line expression target ∧
        (Calculator.evaluate s.mode s.vars.get? expression).value = .ok text ∧
        output = shown text target ∧ Numeral.read? text.toList = some n ∧
        (|n.value| < Format.binary64.overflowThreshold →
          ∃ x : Finite Format.binary64, x.IsNearest n.value ∧ x.negative = n.negative ∧
            s.Sets (s.execute line).session (lastResult :: target.toList) (.finite x)) ∧
        (Format.binary64.overflowThreshold ≤ |n.value| → (s.execute line).session = s) := by
  rcases s.execute_cases line with
    ⟨error, hresult, hsession⟩ | ⟨expression, target, text, hasks, hvalue, hresult, hsession⟩
  · refine ⟨fun _ _ => hsession, ?_⟩
    intro output houtput
    cases hresult.symm.trans houtput
  · constructor
    · intro error herror
      cases hresult.symm.trans herror
    · intro output houtput
      have hprinted := Calculator.isPrinted_of_evaluate hvalue
      obtain ⟨n, hn⟩ := hprinted.exists_read?
      have hread := hprinted.binary64_read? hn
      refine ⟨expression, target, text, n, hasks, hvalue,
        Except.ok.inj (houtput.symm.trans hresult), hn, ?_, ?_⟩
      · intro hrange
        obtain ⟨x, hx, hnearest, hsign⟩ := Format.ofNumeral_of_lt (by decide) hrange
        rw [Binary64.ofNumeral, hx] at hread
        refine ⟨x, hnearest, hsign, ?_⟩
        rw [hsession]
        exact storeAll_of_finite hread s _
      · intro hrange
        rw [Binary64.ofNumeral, Format.ofNumeral_of_le hrange] at hread
        rw [hsession]
        exact storeAll_of_infinite hread s _

/-- A second equals sign is an error that leaves the old result; a value beyond the
range is shown, but not stored. -/
theorem line_is_atomic_beyond_range :
    (((start .decimal).execute "ans = 7 = 7").result =
        .error (.calculation (.lex (.unexpectedChar '=' 3))) ∧
      ((start .decimal).execute "ans = 7 = 7").session = start .decimal) ∧
    (((start .decimal).execute "BIG = 10 ^ 400").result = .ok "big = 1E+400" ∧
      ((start .decimal).execute "BIG = 10 ^ 400").session = start .decimal) := by
  have herror : ((start .decimal).execute "ans = 7 = 7").result =
      .error (.calculation (.lex (.unexpectedChar '=' 3))) := by
    decide +kernel
  have hresult : ((start .decimal).execute "BIG = 10 ^ 400").result = .ok "big = 1E+400" := by
    decide +kernel
  have hasks : Asks "BIG = 10 ^ 400" " 10 ^ 400" (some "big") := by
    have hname : IsVariableName "big" := by
      refine ⟨by simp [IsFoldedName, IsFolded, Char.isLower], fun f => ?_⟩
      cases f <;> simp [Elementary.name]
    exact @Asks.assignment "BIG ".toList " 10 ^ 400".toList "big" (by simp) (by decide +kernel)
      hname
  have hvalue : (Calculator.evaluate .decimal (start .decimal).vars.get? " 10 ^ 400").value =
      .ok "1E+400" := by
    decide +kernel
  have hread : Numeral.read? "1E+400".toList = some ⟨false, 1, 400⟩ := by
    decide +kernel
  have hlarge : Format.binary64.overflowThreshold ≤ |Numeral.value ⟨false, 1, 400⟩| := by
    have hpos := two_zpow_pos (Format.binary64.maxExponent - Format.binary64.precision - 1)
    have htwo : (2 : ℚ) ^ Format.binary64.maxExponent ≤ 2 ^ (3 * 400 : ℤ) := two_zpow_le (by decide)
    have hten := Format.eight_zpow_le 400 (by decide)
    rw [Numeral.abs_value, Numeral.magnitude, Nat.cast_one, one_mul, Format.overflowThreshold]
    dsimp only
    linarith
  obtain ⟨expression, target, text, n, hasks', hvalue', -, hn, -, hbeyond⟩ :=
    (line_is_atomic (start .decimal) "BIG = 10 ^ 400").2 _ hresult
  obtain ⟨rfl, rfl⟩ := hasks'.unique hasks
  obtain rfl := Except.ok.inj (hvalue'.symm.trans hvalue)
  obtain rfl := Option.some.inj (hread.symm.trans hn)
  exact ⟨⟨herror, (line_is_atomic (start .decimal) "ans = 7 = 7").1 _ herror⟩, hresult,
    hbeyond hlarge⟩

end Session

end Abacus
