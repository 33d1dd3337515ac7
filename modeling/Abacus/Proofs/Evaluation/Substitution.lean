/-
Abacus.Proofs.Evaluation.Substitution — an expression in the place of a variable.

A variable whose value is that of an expression can be replaced by the
expression: the stack machine pushes the same number for both
(`evaluate_inline`).  On lines this takes a group around the expression, so that
the conversion keeps it together (`evaluateTokens_inline`).
-/
import Abacus.Proofs.Calculator
import Abacus.Proofs.Evaluation.StackMachine
import Abacus.Proofs.Postfix.Substitution

namespace Abacus

variable {V : Type} {system : NumberSystem V}

namespace Evaluation

variable {environment environment' : Environment} {names : List String} {rpn : List Token} {x : V}

/-- The second environment gives the names a value that is read as `x`, and has all other
variables from the first one. -/
structure Binds (system : NumberSystem V) (environment environment' : Environment)
    (names : List String) (x : V) : Prop where
  bound : ∀ name ∈ names, ∃ value, environment' name = some value ∧
    system.ofVariable name value = .ok x
  kept : ∀ name, name ∉ names → environment' name = environment name

section

variable (hbinds : Binds system environment environment' names x)
  (hrpn : evaluate system environment rpn = .ok x)
include hbinds hrpn

/-- One token, or the postfix order in its place. -/
theorem foldlM_token_inline (token : Token) (stack : List V) :
    (token.inline names rpn).foldlM (step system environment) stack =
      step system environment' stack token := by
  cases token with
  | identifier name =>
    rw [Token.inline, step_identifier, Expression.evaluate]
    split_ifs with hname
    · obtain ⟨e, rfl, he⟩ := exists_tree_of_evaluate hrpn
      obtain ⟨value, hvalue, hx⟩ := hbinds.bound name hname
      have hrun := foldlM_postorder system environment e stack []
      rw [List.append_nil, he] at hrun
      rw [hrun, hvalue]
      dsimp only
      rw [hx]
      rfl
    · rw [hbinds.kept name hname, List.foldlM_cons, step_identifier, Expression.evaluate]
      exact bind_pure _
  | number text => exact bind_pure _
  | operator op => exact bind_pure _
  | function f => exact bind_pure _
  | leftParen => rfl
  | rightParen => rfl

theorem foldlM_inline (tokens : List Token) (stack : List V) :
    (inline names rpn tokens).foldlM (step system environment) stack =
      tokens.foldlM (step system environment') stack := by
  induction tokens generalizing stack with
  | nil => rfl
  | cons token tokens ih =>
    rw [inline, List.flatMap_cons, List.foldlM_append, foldlM_token_inline hbinds hrpn,
      List.foldlM_cons]
    exact congrArg (step system environment' stack token >>= ·) (funext ih)

/-- The postfix list with the expression in place of the variables has the same value, or the
same error. -/
theorem evaluate_inline (tokens : List Token) :
    evaluate system environment (inline names rpn tokens) =
      evaluate system environment' tokens := by
  rw [evaluate_eq, evaluate_eq, foldlM_inline hbinds hrpn]

end

end Evaluation

namespace Calculator

variable {environment environment' : Environment}

/-- Variables that have the value of an expression are as good as the expression between
parentheses. -/
theorem evaluateTokens_inline {names : List String} {x : V} {caps : Capabilities}
    {body tokens : List Token}
    (hbody : evaluateTokens system environment body = .ok x)
    (hbinds : Evaluation.Binds system environment environment' names x)
    (htokens : Alternates caps .operand tokens) :
    evaluateTokens system environment (inline names (group body) tokens) =
      evaluateTokens system environment' tokens := by
  obtain ⟨rpn, hrpn, hx⟩ := evaluateTokens_eq_ok_iff.1 hbody
  unfold evaluateTokens
  rw [toPostfix_inline hrpn htokens]
  cases toPostfix tokens with
  | error e => rfl
  | ok out =>
    exact congrArg (Except.mapError CalculationError.evaluation)
      (Evaluation.evaluate_inline hbinds hx out)

end Calculator

end Abacus
