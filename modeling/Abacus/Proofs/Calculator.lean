/-
Abacus.Proofs.Calculator — the stages of an evaluation.

A mode is a number system.  The value of a line is that of its postfix list, and
so is an error of the evaluation.
-/
import Abacus.Calculator
import Abacus.Proofs.Outcome

namespace Abacus

/-- The numbers of a mode. -/
def Mode.Number : Mode → Type
  | float => Binary64
  | integer => Int
  | decimal => Decimal

/-- The number system of a mode. -/
def Mode.system : (mode : Mode) → NumberSystem mode.Number
  | float => .float
  | integer => .integer
  | decimal => .decimal

namespace Calculator

theorem evaluate_eq (mode : Mode) (environment : Environment) (line : String) :
    evaluate mode environment line =
      (evaluateIn mode.system environment line).map (·.map mode.system.render) := by
  cases mode <;> rfl

theorem evaluate_eq_ok_iff {mode : Mode} {environment : Environment} {line text : String} :
    (evaluate mode environment line).value = .ok text ↔
      ∃ x, (evaluateIn mode.system environment line).value = .ok x ∧
        mode.system.render x = text := by
  rw [evaluate_eq]
  exact map_eq_ok_iff

/-- The value of a line is that of its postfix list. -/
theorem evaluateIn_eq_ok_iff {V : Type} {system : NumberSystem V} {environment : Environment}
    {line : String} {x : V} :
    (evaluateIn system environment line).value = .ok x ↔
      ∃ ts rpn, tokenize system.capabilities line = .ok ts ∧ toPostfix ts = .ok rpn ∧
        Evaluation.evaluate system environment rpn = .ok x := by
  unfold evaluateIn
  constructor
  · intro h
    split at h
    · cases h
    · next ts hts =>
      dsimp only at h
      split at h
      · cases h
      · next rpn hrpn => exact ⟨ts, rpn, hts, hrpn, mapError_eq_ok_iff.1 h⟩
  · rintro ⟨ts, rpn, hts, hrpn, hvalue⟩
    rw [hts]
    dsimp only
    rw [hrpn]
    exact mapError_eq_ok_iff.2 hvalue

/-- An error of the evaluation is one of a postfix list. -/
theorem exists_postfix_of_error {V : Type} {system : NumberSystem V} {environment : Environment}
    {line : String} {e : EvaluationError}
    (h : (evaluateIn system environment line).value = .error (.evaluation e)) :
    ∃ ts rpn, tokenize system.capabilities line = .ok ts ∧ toPostfix ts = .ok rpn ∧
      Evaluation.evaluate system environment rpn = .error e := by
  unfold evaluateIn at h
  split at h
  · cases h
  · next ts hts =>
    dsimp only at h
    split at h
    · cases h
    · next rpn hrpn =>
      refine ⟨ts, rpn, hts, hrpn, ?_⟩
      change (Evaluation.evaluate system environment rpn).mapError CalculationError.evaluation =
        .error (.evaluation e) at h
      obtain ⟨d, hd, heq⟩ := mapError_eq_error_iff.1 h
      cases heq
      exact hd

theorem exists_postfix_of_evaluate {mode : Mode} {environment : Environment} {line : String}
    {e : EvaluationError}
    (h : (evaluate mode environment line).value = .error (.evaluation e)) :
    ∃ ts rpn, tokenize mode.system.capabilities line = .ok ts ∧ toPostfix ts = .ok rpn ∧
      Evaluation.evaluate mode.system environment rpn = .error e := by
  rw [evaluate_eq] at h
  exact exists_postfix_of_error (map_eq_error_iff.1 h)

/-! ## The value of tokens -/

section Tokens

variable {V : Type} {system : NumberSystem V} {environment : Environment} {tokens : List Token}

/-- The value of a list of tokens: that of its postfix order. -/
def evaluateTokens (system : NumberSystem V) (environment : Environment)
    (tokens : List Token) : Except CalculationError V := do
  let rpn ← (toPostfix tokens).mapError .parenthesis
  (Evaluation.evaluate system environment rpn).mapError .evaluation

theorem evaluateIn_of_tokenize {line : String}
    (h : tokenize system.capabilities line = .ok tokens) :
    (evaluateIn system environment line).value = evaluateTokens system environment tokens := by
  unfold evaluateIn evaluateTokens
  rw [h]
  dsimp only
  cases toPostfix tokens with
  | error e => rfl
  | ok rpn => rfl

theorem evaluateTokens_eq_ok_iff {x : V} :
    evaluateTokens system environment tokens = .ok x ↔
      ∃ rpn, toPostfix tokens = .ok rpn ∧ Evaluation.evaluate system environment rpn = .ok x := by
  unfold evaluateTokens
  simp only [bind_eq_ok_iff, mapError_eq_ok_iff]

end Tokens

end Calculator

end Abacus
