/-
Abacus.Proofs.Session.Substitution — a stored value stands for its expression.

In double precision the value of a line is stored without loss, unless it is
zero, whose sign is lost.  So a later expression that reads it under the name of
the line, or as the last result, has the outcome that it would have had in front
of the line with the expression of the line, between parentheses, in the place
of these variables (`later_expressions_inline`).
-/
import Abacus.Proofs.Evaluation.Substitution
import Abacus.Proofs.NumberSystem.Storing
import Abacus.Proofs.Session.Invariant

namespace Abacus

namespace Session

/-- A line with a result in double precision stores a number with the value of its
expression. -/
theorem exists_value_of_execute {s : Session} {line output : String} (hmode : s.mode = .float)
    (h : (s.execute line).result = .ok output) :
    ∃ expression target value stored, Asks line expression target ∧
      (Calculator.evaluateIn .float s.vars.get? expression).value = .ok value ∧
      output = shown value.format target ∧ Floating.SameValue (.finite stored) value ∧
      s.Sets (s.execute line).session (lastResult :: target.toList) (.finite stored) := by
  rcases s.execute_cases line with
    ⟨error, herror, -⟩ | ⟨expression, target, text, hasks, hvalue, hresult, hsession⟩
  · cases herror.symm.trans h
  · rw [hmode, Calculator.evaluate_eq_ok_iff] at hvalue
    obtain ⟨value, hvalue, rfl⟩ := hvalue
    obtain ⟨stored, hread, hsame⟩ :=
      Binary64.read?_format (NumberSystem.preserves_float.evaluateIn hvalue)
    refine ⟨expression, target, value, stored, hasks, hvalue,
      Except.ok.inj (h.symm.trans hresult), hsame, ?_⟩
    rw [hsession]
    exact storeAll_of_finite hread s _

/-- In double precision, take a line with a result other than zero, and the tokens of a
line that is entered behind it.  Put the tokens of the first line's expression, between
parentheses, in the place of the last result and of the name that the line assigned.  Then
the second line has the outcome, a value or an error, that the tokens have with the
variables from before the first one. -/
theorem later_lines_inline {s : Session} {line output : String} (hmode : s.mode = .float)
    (h : (s.execute line).result = .ok output) :
    ∃ expression target body value, Asks line expression target ∧
      tokenize .all expression = .ok body ∧
      (Calculator.evaluateIn .float s.vars.get? expression).value = .ok value ∧
      output = shown value.format target ∧
      (value.isZero = false → ∀ later tokens outcome, tokenize .all later = .ok tokens →
        Calculator.evaluateTokens .float s.vars.get?
          (inline (lastResult :: target.toList) (group body) tokens) = outcome →
        (Calculator.evaluateIn .float (s.execute line).session.vars.get? later).value = outcome ∧
          ((s.execute line).session.execute later).result =
            (outcome.map Binary64.format).mapError .calculation) := by
  obtain ⟨expression, target, value, stored, hasks, hvalue, houtput, hsame, hsets⟩ :=
    exists_value_of_execute hmode h
  obtain ⟨body, rpn, hbody, -, -⟩ := Calculator.evaluateIn_eq_ok_iff.1 hvalue
  refine ⟨expression, target, body, value, hasks, hbody, hvalue, houtput, ?_⟩
  intro hzero later tokens outcome htokens houtcome
  obtain rfl : value = .finite stored := hsame.symm.eq_of_isZero hzero
  have hbinds : Evaluation.Binds .float s.vars.get? (s.execute line).session.vars.get?
      (lastResult :: target.toList) (.finite stored) :=
    ⟨fun name hname => ⟨_, hsets.set name hname, rfl⟩, hsets.kept⟩
  rw [Calculator.evaluateIn_of_tokenize hbody] at hvalue
  rw [Calculator.evaluateTokens_inline hvalue hbinds (alternates_of_tokenize htokens)] at houtcome
  have hlater : (Calculator.evaluateIn .float (s.execute line).session.vars.get? later).value =
      outcome :=
    (Calculator.evaluateIn_of_tokenize htokens).trans houtcome
  refine ⟨hlater, ?_⟩
  rw [execute_of_tokenize htokens, result_evaluate, hsets.mode, hmode, Calculator.evaluate_eq]
  exact congrArg (fun r => (Except.map Binary64.format r).mapError LineError.calculation) hlater

/-- A quarter that is stored under two names is read twice by a later line; another one
fails as the expression of the quarter would in its place. -/
theorem later_lines_inline_quarter :
    ((start .float).execute "X = 1 - 3 / 4").result = .ok "x = 0.25" ∧
    (((start .float).execute "X = 1 - 3 / 4").session.execute "8 * x - -ans / 2").result =
      .ok "2.125" ∧
    (((start .float).execute "X = 1 - 3 / 4").session.execute "-(2 + x)!").result =
      .error (.calculation (.evaluation (.domain (.fractionalFactorial "2.25")))) := by
  have hresult : ((start .float).execute "X = 1 - 3 / 4").result = .ok "x = 0.25" := by
    decide +kernel
  have hasks : Asks "X = 1 - 3 / 4" " 1 - 3 / 4" (some "x") := by
    have hname : IsVariableName "x" :=
      ⟨by simp [IsFoldedName, IsFolded, Char.isLower],
        fun f => by cases f <;> simp [Elementary.name]⟩
    exact @Asks.assignment "X ".toList " 1 - 3 / 4".toList "x" (by simp) (by decide +kernel) hname
  have hbody : tokenize .all " 1 - 3 / 4" =
      .ok [.number "1", .operator .sub, .number "3", .operator .div, .number "4"] := by
    decide +kernel
  have hvalue : (Calculator.evaluateIn .float (start .float).vars.get? " 1 - 3 / 4").value =
      .ok (Binary64.ofNumeral ⟨false, 25, -2⟩) := by
    decide +kernel
  obtain ⟨expression, target, body, value, hasks', hbody', hvalue', -, hlater⟩ :=
    later_lines_inline rfl hresult
  obtain ⟨rfl, rfl⟩ := hasks'.unique hasks
  obtain rfl := Except.ok.inj (hbody'.symm.trans hbody)
  obtain rfl := Except.ok.inj (hvalue'.symm.trans hvalue)
  have hlines := hlater (by decide +kernel)
  have hproduct := hlines "8 * x - -ans / 2"
    [.number "8", .operator .mul, .identifier "x", .operator .sub, .operator .neg,
      .identifier "ans", .operator .div, .number "2"]
    (.ok (Binary64.ofNumeral ⟨false, 2125, -3⟩)) (by decide +kernel) (by decide +kernel)
  have hfactorial := hlines "-(2 + x)!"
    [.operator .neg, .leftParen, .number "2", .operator .add, .identifier "x", .rightParen,
      .operator .factorial]
    (.error (.evaluation (.domain (.fractionalFactorial "2.25")))) (by decide +kernel)
    (by decide +kernel)
  refine ⟨hresult, hproduct.2.trans ?_, hfactorial.2⟩
  decide +kernel

end Session

end Abacus
