/-
Abacus.Proofs.NumberSystem.Exactness — whole numbers are computed exactly.

`Expression.rational` is what an expression means over the rationals, where
nothing is cut off.  `Expression.violation?` is the rule of whole numbers that
the outermost operation of an expression breaks, told from the rational values
of its operands.  Among the integers an expression has a value if and only if
none of its subexpressions breaks a rule, and then it is the rational one;
otherwise the first of them that does so is the error.
-/
import Abacus.Proofs.Evaluation.Subexpressions
import Abacus.Proofs.NumberSystem.WholeNumbers

namespace Abacus

/-! ## The meaning over the rationals -/

/-- The operation on rationals.  A factorial is that of the whole part. -/
def UnaryOperator.rational : UnaryOperator → ℚ → ℚ
  | neg, q => -q
  | factorial, q => (⌊q⌋₊.factorial : ℕ)

/-- The operation on rationals.  A power has the whole part of its exponent. -/
def BinaryOperator.rational : BinaryOperator → ℚ → ℚ → ℚ
  | add, p, q => p + q
  | sub, p, q => p - q
  | mul, p, q => p * q
  | div, p, q => p / q
  | pow, p, q => p ^ ⌊q⌋

namespace Expression

variable (environment : Environment)

/-- The value over the rationals.  Variables without a finite value count as
zero here, and so do functions. -/
def rational : Expression → ℚ
  | number text => ((Numeral.read? text.toList).map Numeral.value).getD 0
  | identifier name =>
    match environment name with
    | some (.finite x) => x.value
    | _ => 0
  | unary op e => op.rational e.rational
  | binary op l r => op.rational l.rational r.rational
  | call _ _ => 0

/-- The rules of whole numbers for the outermost operation: a variable has a
finite whole value, a divisor is not zero and divides its dividend, and a
factorial is not that of a negative number. -/
def Permitted : Expression → Prop
  | identifier name =>
    ∃ (x : Finite Format.binary64) (n : ℤ), environment name = some (.finite x) ∧ x.value = n
  | unary .factorial e => 0 ≤ e.rational environment
  | binary .div l r =>
    r.rational environment ≠ 0 ∧
      ∃ n : ℤ, l.rational environment = n * r.rational environment
  | _ => True

/-- The error of an outermost operation that breaks the rules of whole numbers. -/
def violation? : Expression → Option EvaluationError
  | identifier name =>
    match environment name with
    | none => some (.unknownVariable name)
    | some (.finite x) =>
      if x.value.isInt then none
      else some (.overflow (.variableNotIntegral name (Binary64.text (.finite x))))
    | some _ => some (.overflow (.variableNotFinite name))
  | unary .factorial e =>
    if 0 ≤ e.rational environment then none
    else some (.domain (.negativeFactorial (toString (e.rational environment).num)))
  | binary .div l r =>
    if r.rational environment = 0 then some .divisionByZero
    else if (l.rational environment / r.rational environment).isInt then none
    else some (.inexactDivision (l.rational environment).num (r.rational environment).num)
  | _ => none

variable {environment : Environment}

theorem isInt_iff {q : ℚ} : q.isInt = true ↔ ∃ n : ℤ, q = n := by
  rw [Rat.isInt, beq_iff_eq, Rat.den_eq_one_iff]
  constructor
  · intro h
    exact ⟨q.num, h.symm⟩
  · rintro ⟨n, rfl⟩
    rfl

theorem violation?_eq_none_iff {e : Expression} :
    e.violation? environment = none ↔ e.Permitted environment := by
  cases e with
  | number text => simp [violation?, Permitted]
  | call f e => simp [violation?, Permitted]
  | identifier name =>
    simp only [violation?, Permitted]
    cases environment name with
    | none => simp
    | some value => cases value <;> simp [isInt_iff]
  | unary op e => cases op <;> simp [violation?, Permitted]
  | binary op l r =>
    cases op with
    | div =>
      simp only [violation?, Permitted]
      split_ifs with hzero hint
      · simp [hzero]
      · obtain ⟨n, hn⟩ := isInt_iff.1 hint
        simp only [true_iff]
        exact ⟨hzero, n, (div_eq_iff hzero).1 hn⟩
      · simp only [false_iff]
        rintro ⟨-, n, hn⟩
        exact hint (isInt_iff.2 ⟨n, (div_eq_iff hzero).2 hn⟩)
    | _ => simp [violation?, Permitted]

/-! ## One operation -/

/-- A literal of the integers is the number that it denotes. -/
theorem evaluate_number {text : String} (h : IsLiteral false text) :
    ∃ n : ℤ, (number text).rational environment = n ∧
      (number text).evaluate .integer environment = .ok n := by
  obtain ⟨n, hn⟩ := NumberSystem.Integer.exists_read? h
  have hread : NumberSystem.Integer.readLiteral text = .ok n := by
    simp [NumberSystem.Integer.readLiteral, hn]
  refine ⟨n, ?_, hread⟩
  obtain ⟨negative, whole, hw, rfl, rfl⟩ := NumberSystem.Integer.exists_of_readLiteral h hread
  have hnumeral := Numeral.read?_signed negative hw (List.forall_mem_nil _) (.inl rfl)
  rw [pointed_nil, List.append_nil, List.append_nil, scanExponent_nil] at hnumeral
  simp only [rational, String.toList_ofList, hnumeral, Option.map_some,
    Option.getD_some, Numeral.value, NumeralParts.magnitude_value]
  cases negative <;> simp [NumeralParts.value, NumberSystem.ofSign]

theorem evaluate_identifier_of_none {name : String}
    (h : (identifier name).violation? environment = none) :
    ∃ n : ℤ, (identifier name).rational environment = n ∧
      (identifier name).evaluate .integer environment = .ok n := by
  obtain ⟨x, n, hx, hn⟩ := violation?_eq_none_iff.1 h
  refine ⟨n, by simp [rational, hx, hn], ?_⟩
  have hint : x.isIntegral = true := Finite.isIntegral_iff.2 ⟨n, hn⟩
  simp [evaluate, hx, NumberSystem.integer, NumberSystem.Integer.ofVariable, hint,
    Finite.floor_of_value hn]

theorem evaluate_identifier_of_some {name : String} {error : EvaluationError}
    (h : (identifier name).violation? environment = some error) :
    (identifier name).evaluate .integer environment = .error error := by
  simp only [violation?] at h
  simp only [evaluate]
  cases hvalue : environment name with
  | none => simpa [hvalue] using h
  | some value =>
    rw [hvalue] at h
    cases value with
    | nan => cases h; rfl
    | infinite negative => cases h; rfl
    | finite x =>
      dsimp only at h ⊢
      split_ifs at h with hint
      cases h
      have hfraction : ¬x.isIntegral = true := fun hx =>
        hint (isInt_iff.2 (Finite.isIntegral_iff.1 hx))
      simp [NumberSystem.integer, NumberSystem.Integer.ofVariable, hfraction]

section Operations

open NumberSystem

variable {d l r : Expression} {k m n : ℤ}

theorem unary_of_none {op : UnaryOperator} (hd : d.rational environment = k)
    (h : (unary op d).violation? environment = none) :
    ∃ z : ℤ, (unary op d).rational environment = z ∧ integer.unary op k = .ok z := by
  cases op with
  | neg => exact ⟨-k, by simp [rational, UnaryOperator.rational, hd], rfl⟩
  | factorial =>
    have hpos := violation?_eq_none_iff.1 h
    simp only [Permitted, hd, Int.cast_nonneg_iff] at hpos
    obtain ⟨j, rfl⟩ := Int.eq_ofNat_of_zero_le hpos
    refine ⟨(j.factorial : ℕ), by simp [rational, UnaryOperator.rational, hd], ?_⟩
    simp [NumberSystem.unary, integer, Integer.factorial, productUpTo_eq]

theorem unary_of_some {op : UnaryOperator} (hd : d.rational environment = k)
    {error : EvaluationError} (h : (unary op d).violation? environment = some error) :
    integer.unary op k = .error error := by
  cases op with
  | neg => cases h
  | factorial =>
    simp only [violation?, hd, Int.cast_nonneg_iff, Rat.num_intCast] at h
    split_ifs at h with hpos
    cases h
    simp [NumberSystem.unary, integer, Integer.factorial, not_le.1 hpos]

theorem ne_pow_of_admissible {op : BinaryOperator}
    (h : (Token.operator op.operator).Admissible Capabilities.integer) : op ≠ .pow := by
  rintro rfl
  cases h rfl

theorem binary_of_none {op : BinaryOperator} (hop : op ≠ .pow) (hl : l.rational environment = m)
    (hr : r.rational environment = n) (h : (binary op l r).violation? environment = none) :
    ∃ z : ℤ, (binary op l r).rational environment = z ∧ integer.binary op m n = .ok z := by
  cases op with
  | add => exact ⟨m + n, by simp [rational, BinaryOperator.rational, hl, hr], rfl⟩
  | sub => exact ⟨m - n, by simp [rational, BinaryOperator.rational, hl, hr], rfl⟩
  | mul => exact ⟨m * n, by simp [rational, BinaryOperator.rational, hl, hr], rfl⟩
  | pow => exact absurd rfl hop
  | div =>
    obtain ⟨hzero, z, hz⟩ := violation?_eq_none_iff.1 h
    rw [hr] at hzero
    rw [hl, hr] at hz
    have hn : n ≠ 0 := by exact_mod_cast hzero
    have hm : m = z * n := by exact_mod_cast hz
    refine ⟨z, ?_, ?_⟩
    · rw [rational, BinaryOperator.rational, hl, hr, div_eq_iff hzero, hz]
    · simp [NumberSystem.binary, integer, Integer.div, hn, hm]

theorem binary_of_some {op : BinaryOperator} (hl : l.rational environment = m)
    (hr : r.rational environment = n) {error : EvaluationError}
    (h : (binary op l r).violation? environment = some error) :
    integer.binary op m n = .error error := by
  cases op with
  | div =>
    simp only [violation?, hl, hr, Int.cast_eq_zero, Rat.num_intCast] at h
    split_ifs at h with hzero hint
    · cases h
      simp [NumberSystem.binary, integer, Integer.div, hzero]
    · cases h
      have hrem : ¬n ∣ m := by
        rwa [Rat.isInt, beq_iff_eq, Rat.den_div_intCast_eq_one_iff m n hzero] at hint
      simp [NumberSystem.binary, integer, Integer.div, hzero, Int.dvd_iff_emod_eq_zero.not.1 hrem]
  | _ => cases h

end Operations

/-! ## Trees -/

/-- Where no subexpression breaks a rule, the value is the rational one. -/
theorem evaluate_of_forall {e : Expression}
    (h : ∀ t ∈ e.postorder, t.Admissible Capabilities.integer)
    (hv : ∀ d ∈ e.subexpressions, d.violation? environment = none) :
    ∃ n : ℤ, e.rational environment = n ∧ e.evaluate .integer environment = .ok n := by
  induction e with
  | number text => exact evaluate_number (h _ List.mem_cons_self)
  | identifier name => exact evaluate_identifier_of_none (hv _ List.mem_cons_self)
  | unary op d ih =>
    rw [postorder, List.forall_mem_append] at h
    rw [subexpressions, List.forall_mem_append] at hv
    obtain ⟨k, hk, hd⟩ := ih h.1 hv.1
    obtain ⟨z, hz, hop⟩ := unary_of_none hk (hv.2 _ List.mem_cons_self)
    exact ⟨z, hz, bind_eq_ok_iff.2 ⟨k, hd, hop⟩⟩
  | binary op l r ihl ihr =>
    rw [postorder, List.forall_mem_append, List.forall_mem_append] at h
    rw [subexpressions, List.forall_mem_append, List.forall_mem_append] at hv
    obtain ⟨m, hm, hl⟩ := ihl h.1.1 hv.1.1
    obtain ⟨n, hn, hr⟩ := ihr h.1.2 hv.1.2
    obtain ⟨z, hz, hop⟩ := binary_of_none (ne_pow_of_admissible (h.2 _ List.mem_cons_self)) hm hn
      (hv.2 _ List.mem_cons_self)
    exact ⟨z, hz, bind_eq_ok_iff.2 ⟨m, hl, bind_eq_ok_iff.2 ⟨n, hr, hop⟩⟩⟩
  | call f d ih =>
    rw [postorder, List.forall_mem_append] at h
    cases h.2 _ List.mem_cons_self

/-- The first subexpression that breaks a rule is the error. -/
theorem evaluate_of_findSome? {e : Expression}
    (h : ∀ t ∈ e.postorder, t.Admissible Capabilities.integer) {error : EvaluationError}
    (hv : e.subexpressions.findSome? (violation? environment) = some error) :
    e.evaluate .integer environment = .error error := by
  induction e with
  | number text => cases hv
  | identifier name =>
    rw [subexpressions, List.findSome?_singleton] at hv
    exact evaluate_identifier_of_some hv
  | unary op d ih =>
    rw [postorder, List.forall_mem_append] at h
    rw [subexpressions, List.findSome?_append, List.findSome?_singleton,
      Option.or_eq_some_iff] at hv
    rcases hv with hd | ⟨hd, hself⟩
    · exact bind_eq_error_iff.2 (.inl (ih h.1 hd))
    · obtain ⟨k, hk, hd⟩ := evaluate_of_forall h.1 (List.findSome?_eq_none_iff.1 hd)
      exact bind_eq_error_iff.2 (.inr ⟨k, hd, unary_of_some hk hself⟩)
  | binary op l r ihl ihr =>
    rw [postorder, List.forall_mem_append, List.forall_mem_append] at h
    rw [subexpressions, List.findSome?_append, List.findSome?_append, List.findSome?_singleton,
      Option.or_eq_some_iff, Option.or_eq_some_iff, Option.or_eq_none_iff] at hv
    rcases hv with (hl | ⟨hl, hr⟩) | ⟨⟨hl, hr⟩, hself⟩
    · exact bind_eq_error_iff.2 (.inl (ihl h.1.1 hl))
    · obtain ⟨m, hm, hl⟩ := evaluate_of_forall h.1.1 (List.findSome?_eq_none_iff.1 hl)
      exact bind_eq_error_iff.2 (.inr ⟨m, hl, bind_eq_error_iff.2 (.inl (ihr h.1.2 hr))⟩)
    · obtain ⟨m, hm, hl⟩ := evaluate_of_forall h.1.1 (List.findSome?_eq_none_iff.1 hl)
      obtain ⟨n, hn, hr⟩ := evaluate_of_forall h.1.2 (List.findSome?_eq_none_iff.1 hr)
      exact bind_eq_error_iff.2
        (.inr ⟨m, hl, bind_eq_error_iff.2 (.inr ⟨n, hr, binary_of_some hm hn hself⟩)⟩)
  | call f d ih =>
    rw [postorder, List.forall_mem_append] at h
    cases h.2 _ List.mem_cons_self

/-- A tree has a value among the integers if no subexpression breaks a rule, and it is
the rational one. -/
theorem evaluate_eq_ok_iff {e : Expression}
    (h : ∀ t ∈ e.postorder, t.Admissible Capabilities.integer) {n : ℤ} :
    e.evaluate .integer environment = .ok n ↔
      (∀ d ∈ e.subexpressions, d.Permitted environment) ∧ e.rational environment = n := by
  constructor
  · intro hn
    cases hfirst : e.subexpressions.findSome? (violation? environment) with
    | some error => cases (evaluate_of_findSome? h hfirst).symm.trans hn
    | none =>
      have hnone := List.findSome?_eq_none_iff.1 hfirst
      obtain ⟨m, hm, hvalue⟩ := evaluate_of_forall h hnone
      obtain rfl : m = n := Except.ok.inj (hvalue.symm.trans hn)
      exact ⟨fun d hd => violation?_eq_none_iff.1 (hnone d hd), hm⟩
  · rintro ⟨hpermitted, hn⟩
    obtain ⟨m, hm, hvalue⟩ := evaluate_of_forall h
      fun d hd => violation?_eq_none_iff.2 (hpermitted d hd)
    obtain rfl : m = n := by exact_mod_cast hm.symm.trans hn
    exact hvalue

/-- Its error is that of the first subexpression that breaks a rule. -/
theorem evaluate_eq_error_iff {e : Expression}
    (h : ∀ t ∈ e.postorder, t.Admissible Capabilities.integer) {error : EvaluationError} :
    e.evaluate .integer environment = .error error ↔
      e.subexpressions.findSome? (violation? environment) = some error := by
  constructor
  · intro herror
    cases hfirst : e.subexpressions.findSome? (violation? environment) with
    | some first =>
      rw [evaluate_of_findSome? h hfirst] at herror
      rw [Except.error.inj herror]
    | none =>
      obtain ⟨n, -, hvalue⟩ := evaluate_of_forall h (List.findSome?_eq_none_iff.1 hfirst)
      cases hvalue.symm.trans herror
  · exact evaluate_of_findSome? h

/-- The values of trees are the rational ones. -/
theorem rational_of_represents {trees : List Expression} {xs : List ℤ}
    (h : ∀ e ∈ trees, ∀ t ∈ e.postorder, t.Admissible Capabilities.integer)
    (hxs : Evaluation.Represents .integer environment trees xs) :
    xs.map (fun n : ℤ => (n : ℚ)) = trees.map (rational environment) := by
  induction hxs with
  | nil => rfl
  | cons hx _ ih =>
    rw [List.forall_mem_cons] at h
    rw [List.map_cons, List.map_cons, ih h.2, ((evaluate_eq_ok_iff h.1).1 hx).2]

end Expression

/-! ## Lines -/

/-- A line of whole numbers has a result if and only if, over the rationals, every
variable has a finite whole value, every divisor is not zero and divides its
dividend, and no factorial is that of a negative number.  The result is then the
rational value.  Otherwise the error is that of the first subexpression, in
postfix order, that breaks one of these rules.  In both cases the values on the
way are the rational ones, so no quotient is ever cut off. -/
theorem integer_mode_is_exact {environment : Environment} {line : String} {p : Sentence}
    (h : tokenize .integer line = .ok p.tokens) :
    (∀ text, (Calculator.evaluate .integer environment line).value = .ok text ↔
      (∀ e ∈ p.expression.subexpressions, e.Permitted environment) ∧
        ∃ n : ℤ, p.expression.rational environment = n ∧ text = toString n) ∧
    (∀ error, (Calculator.evaluate .integer environment line).value = .error error ↔
      ∃ violation, p.expression.subexpressions.findSome?
        (Expression.violation? environment) = some violation ∧ error = .evaluation violation) ∧
    (Calculator.values .integer environment line).map (fun n : ℤ => (n : ℚ)) <+:
      p.expression.subexpressions.map (Expression.rational environment) := by
  have htokens : tokenize NumberSystem.integer.capabilities line = .ok p.tokens := h
  have hadmissible : ∀ t ∈ p.expression.postorder, t.Admissible Capabilities.integer :=
    Sentence.admissible htokens
  have hline : (Calculator.evaluateIn .integer environment line).value =
      (p.expression.evaluate .integer environment).mapError .evaluation :=
    Calculator.evaluateIn_sentence htokens environment
  have hvalue : (Calculator.evaluate .integer environment line).value =
      ((p.expression.evaluate .integer environment).mapError .evaluation).map toString := by
    rw [← hline]
    rfl
  refine ⟨?result, ?error, ?values⟩
  case result =>
    intro text
    rw [hvalue, map_eq_ok_iff]
    simp only [mapError_eq_ok_iff, Expression.evaluate_eq_ok_iff hadmissible]
    constructor
    · rintro ⟨n, ⟨hpermitted, hn⟩, htext⟩
      exact ⟨hpermitted, n, hn, htext.symm⟩
    · rintro ⟨hpermitted, n, hn, htext⟩
      exact ⟨n, ⟨hpermitted, hn⟩, htext.symm⟩
  case error =>
    intro error
    rw [hvalue, map_eq_error_iff, mapError_eq_error_iff]
    simp only [Expression.evaluate_eq_error_iff hadmissible]
    constructor
    · rintro ⟨violation, hfirst, rfl⟩
      exact ⟨violation, hfirst, rfl⟩
    · rintro ⟨violation, hfirst, rfl⟩
      exact ⟨violation, hfirst, rfl⟩
  case values =>
    obtain ⟨before, hbefore, hrepresents⟩ :=
      Evaluation.values_postorder p.expression environment
    have hsub : ∀ e ∈ before, ∀ t ∈ e.postorder, t.Admissible Capabilities.integer :=
      fun e he t ht => hadmissible t (Expression.postorder_subset (hbefore.subset he) ht)
    rw [Calculator.values_sentence htokens, Expression.rational_of_represents hsub hrepresents]
    exact hbefore.map _

/-- A factorial of 5, divided by -4, is a whole number. -/
theorem integer_mode_is_exact_signed_divisor :
    ∃ p : Sentence, tokenize .integer "(2 - n)! / -4" = .ok p.tokens ∧
      (∀ e ∈ p.expression.subexpressions,
        e.Permitted fun _ => some (Format.binary64.ofInt (-3))) ∧
      ∃ m : ℤ, p.expression.rational (fun _ => some (Format.binary64.ofInt (-3))) = m ∧
        "-30" = toString m := by
  have h : tokenize .integer "(2 - n)! / -4" = .ok [.leftParen, .number "2", .operator .sub,
      .identifier "n", .rightParen, .operator .factorial, .operator .div,
      .number "-4"] := by
    decide +kernel
  have htext : (Calculator.evaluate .integer (fun _ => some (Format.binary64.ofInt (-3)))
      "(2 - n)! / -4").value = .ok "-30" := by
    decide +kernel
  obtain ⟨p, hp⟩ :=
    (exists_toPostfix_iff_exists_sentence (alternates_of_tokenize h)).1 ⟨_, rfl⟩
  rw [← hp] at h
  exact ⟨p, h, ((integer_mode_is_exact h).1 "-30").1 htext⟩

end Abacus
