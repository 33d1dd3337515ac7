/-
Abacus.Proofs.Evaluation.Safety — a line fails only because of its values.

When a line could be cut into tokens and brought into postfix order, its
evaluation finds an operand for every operator, one value at the end, and
nothing that the number system does not have.  What is left are errors of the
values: a variable without one, an argument outside of a domain, a division
that is not possible, or a result out of range.
-/
import Abacus.Proofs.Calculator
import Abacus.Proofs.Evaluation.Literals
import Abacus.Proofs.Evaluation.StackMachine
import Abacus.Proofs.Postfix.Conservation
import Abacus.Proofs.Postfix.Precedence

namespace Abacus

/-! ## Errors of values -/

/-- The errors that come from the values of literals and variables.  All others
mean that a list is malformed, or has what its number system does not take. -/
@[simp] def EvaluationError.OfValues : EvaluationError → Prop
  | unknownVariable _ | domain _ | divisionByZero | inexactDivision _ _ | overflow _ => True
  | missingOperand _ | leftoverOperands _ | strayToken _ | invalidLiteral _ | unsupportedPower
  | unsupportedFunction _ => False

/-- The errors that the arguments of an operation cause. -/
@[simp] def EvaluationError.OfArguments : EvaluationError → Prop
  | domain _ | divisionByZero | inexactDivision _ _ | overflow _ => True
  | missingOperand _ | leftoverOperands _ | strayToken _ | unknownVariable _ | invalidLiteral _
  | unsupportedPower | unsupportedFunction _ => False

theorem EvaluationError.OfArguments.ofValues {e : EvaluationError} (h : e.OfArguments) :
    e.OfValues := by
  cases e <;> simp_all

/-! ## Number systems -/

/-- A number system whose operations fail only with such errors, as far as its part of the grammar
lets them through. -/
structure NumberSystem.FailsOnly {V : Type} (system : NumberSystem V)
    (P : EvaluationError → Prop) : Prop where
  readLiteral : ∀ text, IsLiteral system.capabilities.decimals text →
    FailsWith P (system.readLiteral text)
  ofVariable : ∀ name value, FailsWith P (system.ofVariable name value)
  unary : ∀ op x, FailsWith P (system.unary op x)
  binary : ∀ op x y, (op = .pow → system.capabilities.power = true) →
    FailsWith P (system.binary op x y)
  apply : ∀ f x, system.capabilities.functions = true → FailsWith P (system.apply f x)

theorem NumberSystem.FailsOnly.mono {V : Type} {system : NumberSystem V}
    {P Q : EvaluationError → Prop} (h : system.FailsOnly P) (hPQ : ∀ e, P e → Q e) :
    system.FailsOnly Q where
  readLiteral text htext := (h.readLiteral text htext).mono hPQ
  ofVariable name value := (h.ofVariable name value).mono hPQ
  unary op x := (h.unary op x).mono hPQ
  binary op x y hpow := (h.binary op x y hpow).mono hPQ
  apply f x hf := (h.apply f x hf).mono hPQ

/-- The value of a tree fails as the operations do, or for a variable without a value. -/
theorem Expression.failsWith_evaluate {V : Type} {system : NumberSystem V}
    {P : EvaluationError → Prop} (hsystem : system.FailsOnly P)
    (hvariable : ∀ name, P (.unknownVariable name)) (environment : Environment) {e : Expression}
    (h : ∀ t ∈ e.postorder, t.Admissible system.capabilities) :
    FailsWith P (e.evaluate system environment) := by
  induction e with
  | number text => exact hsystem.readLiteral text (h _ List.mem_cons_self)
  | identifier name =>
    rw [evaluate]
    split
    · exact (failsWith_error _).2 (hvariable name)
    · exact hsystem.ofVariable name _
  | unary op e ih =>
    rw [postorder, List.forall_mem_append] at h
    exact (ih h.1).bind fun x => hsystem.unary op x
  | binary op l r ihl ihr =>
    rw [postorder, List.forall_mem_append, List.forall_mem_append] at h
    obtain ⟨⟨hl, hr⟩, hop⟩ := h
    refine (ihl hl).bind fun x => (ihr hr).bind fun y => hsystem.binary op x y ?_
    rintro rfl
    exact hop _ List.mem_cons_self rfl
  | call f e ih =>
    rw [postorder, List.forall_mem_append] at h
    exact (ih h.1).bind fun x => hsystem.apply f x (h.2 _ List.mem_cons_self)

namespace NumberSystem

/-- A result that is not finite is outside the domain or out of range. -/
@[simp] theorem failsWith_checked {f : Format} (origin : Origin) (x : Floating f) :
    FailsWith EvaluationError.OfArguments (x.checked origin) := by
  cases x with
  | nan => exact (failsWith_error _).2 trivial
  | infinite negative => exact (failsWith_error _).2 trivial
  | finite y => exact failsWith_ok _

theorem Float.failsWith_readLiteral {decimals : Bool} {text : String}
    (h : IsLiteral decimals text) :
    FailsWith EvaluationError.OfArguments (Float.readLiteral text) := by
  obtain ⟨x, hx⟩ := Binary64.exists_read? h
  simp [Float.readLiteral, hx]

theorem Float.failsWith_factorial (x : Binary64) :
    FailsWith EvaluationError.OfArguments (Float.factorial x) := by
  cases x <;> simp [Float.factorial]

theorem failsOnArguments_float : float.FailsOnly EvaluationError.OfArguments where
  readLiteral text h := Float.failsWith_readLiteral h
  ofVariable name value := by simp [float, Float.ofVariable]
  unary op x := by
    cases op with
    | neg => exact failsWith_ok _
    | factorial => exact Float.failsWith_factorial x
  binary op x y _ := by cases op <;> simp [binary, float, Float.div, Float.pow]
  apply f x _ := by cases f <;> simp [float, Float.apply]

theorem Integer.failsWith_readLiteral {text : String} (h : IsLiteral false text) :
    FailsWith EvaluationError.OfArguments (Integer.readLiteral text) := by
  obtain ⟨n, hn⟩ := Integer.exists_read? h
  simp [Integer.readLiteral, hn]

theorem Integer.failsWith_ofVariable (name : String) (value : Binary64) :
    FailsWith EvaluationError.OfArguments (Integer.ofVariable name value) := by
  cases value <;> simp [Integer.ofVariable]

/-- Powers and functions are not let through. -/
theorem failsOnArguments_integer : integer.FailsOnly EvaluationError.OfArguments where
  readLiteral text h := Integer.failsWith_readLiteral h
  ofVariable := Integer.failsWith_ofVariable
  unary op x := by cases op <;> simp [unary, integer, Integer.factorial]
  binary op x y hpow := by
    cases op with
    | pow => cases hpow rfl
    | _ => simp [binary, integer, Integer.div]
  apply f x hf := by cases hf

theorem Decimal.failsWith_readLiteral {decimals : Bool} {text : String}
    (h : IsLiteral decimals text) :
    FailsWith EvaluationError.OfArguments (Decimal.readLiteral text) := by
  have hnan := Abacus.Decimal.read_ne_nan h
  unfold Decimal.readLiteral
  cases hx : Abacus.Decimal.read text with
  | nan => exact absurd hx hnan
  | infinite negative => exact failsWith_checked _ _
  | finite x => exact failsWith_checked _ _

theorem Decimal.failsWith_factorial (x : Decimal) :
    FailsWith EvaluationError.OfArguments (Decimal.factorial x) := by
  cases x <;> simp [Decimal.factorial]

theorem Decimal.failsWith_pow (x y : Decimal) :
    FailsWith EvaluationError.OfArguments (Decimal.pow x y) := by
  cases x with
  | finite base =>
    cases y with
    | finite exponent =>
      have hmultiplication (negative : Bool) (n : Nat) :
          FailsWith EvaluationError.OfArguments (powByMultiplication base negative n) := by
        simp [powByMultiplication]
      have hlogarithm :
          FailsWith EvaluationError.OfArguments (powByLogarithm base exponent) := by
        simp only [powByLogarithm, failsWith_ite, failsWith_ok, failsWith_error,
          EvaluationError.OfArguments, implies_true, true_and]
        exact fun _ _ _ => (failsWith_checked _ _).bind fun power => failsWith_ok _
      simp [Decimal.pow, hmultiplication, hlogarithm]
    | _ => simp [Decimal.pow]
  | _ => simp [Decimal.pow]

theorem failsOnArguments_decimal : decimal.FailsOnly EvaluationError.OfArguments where
  readLiteral text h := Decimal.failsWith_readLiteral h
  ofVariable name value := by simp [decimal, Decimal.ofVariable]
  unary op x := by
    cases op with
    | neg => exact failsWith_ok _
    | factorial => exact Decimal.failsWith_factorial x
  binary op x y _ := by
    cases op with
    | pow => exact Decimal.failsWith_pow x y
    | _ => simp [binary, decimal, Decimal.div]
  apply f x _ := by cases f <;> simp [decimal, Decimal.apply]

end NumberSystem

/-! ## The modes -/

theorem Mode.failsOnArguments_system (mode : Mode) :
    mode.system.FailsOnly EvaluationError.OfArguments := by
  cases mode with
  | float => exact NumberSystem.failsOnArguments_float
  | integer => exact NumberSystem.failsOnArguments_integer
  | decimal => exact NumberSystem.failsOnArguments_decimal

/-- The postfix list of a line is that of a tree whose tokens the number system
takes. -/
theorem Evaluation.failsWith_evaluate {V : Type} {system : NumberSystem V}
    {P : EvaluationError → Prop} (hsystem : system.FailsOnly P)
    (hvariable : ∀ name, P (.unknownVariable name)) (environment : Environment) {line : String}
    {ts rpn : List Token} (hts : tokenize system.capabilities line = .ok ts)
    (hrpn : toPostfix ts = .ok rpn) : FailsWith P (evaluate system environment rpn) := by
  have hadmissible := admissible_of_toPostfix hts hrpn
  obtain ⟨p, rfl⟩ :=
    (exists_toPostfix_iff_exists_sentence (alternates_of_tokenize hts)).1 ⟨rpn, hrpn⟩
  obtain rfl := Except.ok.inj ((toPostfix_tokens p).symm.trans hrpn)
  rw [evaluate_postorder]
  exact Expression.failsWith_evaluate hsystem hvariable environment hadmissible

/-- In every mode, whatever the variables, a line that has a postfix list fails
only because of its values. -/
theorem fails_only_on_values (mode : Mode) (environment : Environment) (line : String) :
    (∀ ts rpn, tokenize mode.system.capabilities line = .ok ts → toPostfix ts = .ok rpn →
      ∀ e, Evaluation.evaluate mode.system environment rpn = .error e → e.OfValues) ∧
    ∀ e, (Calculator.evaluate mode environment line).value = .error (.evaluation e) →
      e.OfValues := by
  have staged {ts rpn : List Token} (hts : tokenize mode.system.capabilities line = .ok ts)
      (hrpn : toPostfix ts = .ok rpn) :
      FailsWith EvaluationError.OfValues (Evaluation.evaluate mode.system environment rpn) :=
    Evaluation.failsWith_evaluate
      (mode.failsOnArguments_system.mono fun _ => EvaluationError.OfArguments.ofValues)
      (fun _ => trivial) environment hts hrpn
  refine ⟨fun ts rpn => staged, ?_⟩
  intro e h
  obtain ⟨ts, rpn, hts, hrpn, he⟩ := Calculator.exists_postfix_of_evaluate h
  exact staged hts hrpn e he

/-- A quotient that is no integer is an error of its values. -/
theorem fails_only_on_values_inexact :
    ∃ e, (Calculator.evaluate .integer (fun _ => none) "(1 + 2) / 2").value =
      .error (.evaluation e) ∧ e.OfValues := by
  have h : (Calculator.evaluate .integer (fun _ => none) "(1 + 2) / 2").value =
      .error (.evaluation (.inexactDivision 3 2)) := by
    decide +kernel
  exact ⟨_, h, (fails_only_on_values .integer (fun _ => none) "(1 + 2) / 2").2 _ h⟩

end Abacus
