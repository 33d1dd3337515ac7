/-
Abacus.Proofs.Evaluation.Subexpressions — the places where an evaluation can
fail.

A run of a postfix list computes one subexpression after the other: each token
of the list is the root of one of them, in the same order
(`postorder_eq_map_root`).  A line that has a derivation in the grammar has the
value of the tree of this derivation.
-/
import Abacus.Proofs.Evaluation.Simulation
import Abacus.Proofs.Postfix.Precedence

namespace Abacus

namespace Expression

/-- The subexpressions of a tree, each one behind those that it is made of, with
the tree itself as the last one. -/
def subexpressions : Expression → List Expression
  | number text => [number text]
  | identifier name => [identifier name]
  | unary op e => e.subexpressions ++ [unary op e]
  | binary op l r => l.subexpressions ++ r.subexpressions ++ [binary op l r]
  | call f e => e.subexpressions ++ [call f e]

/-- The token that stands for the outermost operation of a tree. -/
def root : Expression → Token
  | number text => .number text
  | identifier name => .identifier name
  | unary op _ => .operator op.operator
  | binary op _ _ => .operator op.operator
  | call f _ => .function f

/-- The postfix order names one subexpression after the other. -/
theorem postorder_eq_map_root (e : Expression) : e.postorder = e.subexpressions.map root := by
  induction e with
  | number text => rfl
  | identifier name => rfl
  | unary op e ih => simp [postorder, subexpressions, root, ih]
  | binary op l r ihl ihr => simp [postorder, subexpressions, root, ihl, ihr]
  | call f e ih => simp [postorder, subexpressions, root, ih]

theorem subexpressions_subset {d e : Expression} (h : d ∈ e.subexpressions) :
    d.subexpressions ⊆ e.subexpressions := by
  induction e with
  | number text =>
    obtain rfl := List.mem_singleton.1 h
    exact List.Subset.refl _
  | identifier name =>
    obtain rfl := List.mem_singleton.1 h
    exact List.Subset.refl _
  | unary op e ih =>
    rcases List.mem_append.1 h with he | hself
    · exact List.subset_append_of_subset_left _ (ih he)
    · obtain rfl := List.mem_singleton.1 hself
      exact List.Subset.refl _
  | binary op l r ihl ihr =>
    rcases List.mem_append.1 h with hoperand | hself
    · rcases List.mem_append.1 hoperand with hl | hr
      · exact List.subset_append_of_subset_left _ (List.subset_append_of_subset_left _ (ihl hl))
      · exact List.subset_append_of_subset_left _ (List.subset_append_of_subset_right _ (ihr hr))
    · obtain rfl := List.mem_singleton.1 hself
      exact List.Subset.refl _
  | call f e ih =>
    rcases List.mem_append.1 h with he | hself
    · exact List.subset_append_of_subset_left _ (ih he)
    · obtain rfl := List.mem_singleton.1 hself
      exact List.Subset.refl _

theorem postorder_subset {d e : Expression} (h : d ∈ e.subexpressions) :
    d.postorder ⊆ e.postorder := by
  rw [postorder_eq_map_root, postorder_eq_map_root]
  exact List.map_subset root (subexpressions_subset h)

end Expression

/-! ## The values of a run -/

namespace Evaluation

variable {V : Type} {system : NumberSystem V} {environment : Environment}

theorem values_of_ok {stack rest : List V} {x : V} {t : Token} (ts : List Token)
    (h : step system environment stack t = .ok (x :: rest)) :
    values system environment stack (t :: ts) =
      x :: values system environment (x :: rest) ts := by
  simp [values, h]

theorem values_of_error {stack : List V} {error : EvaluationError} {t : Token} (ts : List Token)
    (h : step system environment stack t = .error error) :
    values system environment stack (t :: ts) = [] := by
  simp [values, h]

theorem Represents.append {trees trees' : List Expression} {xs xs' : List V}
    (h : Represents system environment trees xs)
    (h' : Represents system environment trees' xs') :
    Represents system environment (trees ++ trees') (xs ++ xs') :=
  List.rel_append h h'

theorem represents_singleton {e : Expression} {x : V}
    (h : e.evaluate system environment = .ok x) : Represents system environment [e] [x] :=
  .cons h .nil

/-- A tree with a value is computed subexpression by subexpression. -/
theorem values_postorder_of_ok {e : Expression} {x : V}
    (h : e.evaluate system environment = .ok x) (stack : List V) (ts : List Token) :
    ∃ xs, Represents system environment e.subexpressions xs ∧
      values system environment stack (e.postorder ++ ts) =
        xs ++ values system environment (x :: stack) ts := by
  induction e generalizing x stack ts with
  | number text =>
    exact ⟨[x], represents_singleton h, values_of_ok ts (Steps.number h).step_eq_ok⟩
  | identifier name =>
    have hstep : step system environment stack (.identifier name) = .ok (x :: stack) := by
      rw [step_identifier]
      exact map_eq_ok_iff.2 ⟨x, h, rfl⟩
    exact ⟨[x], represents_singleton h, values_of_ok ts hstep⟩
  | unary op d ih =>
    obtain ⟨y, hd, hop⟩ := bind_eq_ok_iff.1 h
    obtain ⟨ys, hys, hvalues⟩ := ih hd stack (.operator op.operator :: ts)
    refine ⟨ys ++ [x], hys.append (represents_singleton h), ?_⟩
    simp [Expression.postorder, hvalues, values_of_ok ts (Steps.unary hop).step_eq_ok]
  | binary op l r ihl ihr =>
    obtain ⟨y, hl, hright⟩ := bind_eq_ok_iff.1 h
    obtain ⟨z, hr, hop⟩ := bind_eq_ok_iff.1 hright
    obtain ⟨ys, hys, hleft⟩ := ihl hl stack (r.postorder ++ .operator op.operator :: ts)
    obtain ⟨zs, hzs, hright⟩ := ihr hr (y :: stack) (.operator op.operator :: ts)
    refine ⟨ys ++ zs ++ [x], (hys.append hzs).append (represents_singleton h), ?_⟩
    simp [Expression.postorder, hleft, hright, values_of_ok ts (Steps.binary hop).step_eq_ok]
  | call f d ih =>
    obtain ⟨y, hd, hop⟩ := bind_eq_ok_iff.1 h
    obtain ⟨ys, hys, hvalues⟩ := ih hd stack (.function f :: ts)
    refine ⟨ys ++ [x], hys.append (represents_singleton h), ?_⟩
    simp [Expression.postorder, hvalues, values_of_ok ts (Steps.function hop).step_eq_ok]

/-- Where an operation fails, its operands are the last that were computed. -/
theorem represents_of_step_error {stack : List V} {t : Token} {ts : List Token}
    {trees after : List Expression} {xs : List V} {error : EvaluationError}
    (hxs : Represents system environment trees xs)
    (hstep : step system environment stack t = .error error) :
    ∃ before, before <+: trees ++ after ∧
      Represents system environment before
        (xs ++ values system environment stack (t :: ts)) := by
  refine ⟨trees, List.prefix_append _ _, ?_⟩
  rwa [values_of_error ts hstep, List.append_nil]

/-- A tree without a value is so as well, up to the subexpression that fails. -/
theorem values_postorder_of_error {e : Expression} {error : EvaluationError}
    (h : e.evaluate system environment = .error error) (stack : List V) (ts : List Token) :
    ∃ before, before <+: e.subexpressions ∧
      Represents system environment before
        (values system environment stack (e.postorder ++ ts)) := by
  induction e generalizing stack ts with
  | number text =>
    have hstep : step system environment stack (.number text) = .error error := by
      rw [step_number, show system.readLiteral text = .error error from h]
      rfl
    exact represents_of_step_error .nil hstep
  | identifier name =>
    have hstep : step system environment stack (.identifier name) = .error error := by
      rw [step_identifier, h]
      rfl
    exact represents_of_step_error .nil hstep
  | unary op d ih =>
    rw [Expression.postorder, Expression.subexpressions, List.append_assoc]
    rcases bind_eq_error_iff.1 h with hd | ⟨y, hd, hop⟩
    · obtain ⟨before, hbefore, hvalues⟩ := ih hd stack ([.operator op.operator] ++ ts)
      exact ⟨before, hbefore.trans (List.prefix_append _ _), hvalues⟩
    · obtain ⟨ys, hys, hvalues⟩ :=
        values_postorder_of_ok hd stack ([.operator op.operator] ++ ts)
      have hstep : step system environment (y :: stack) (.operator op.operator) =
          .error error := by
        rw [step_unary, hop]
        rfl
      rw [hvalues]
      exact represents_of_step_error hys hstep
  | binary op l r ihl ihr =>
    rw [Expression.postorder, Expression.subexpressions, List.append_assoc, List.append_assoc,
      List.append_assoc]
    rcases bind_eq_error_iff.1 h with hl | ⟨y, hl, hright⟩
    · obtain ⟨before, hbefore, hvalues⟩ :=
        ihl hl stack (r.postorder ++ ([.operator op.operator] ++ ts))
      exact ⟨before, hbefore.trans (List.prefix_append _ _), hvalues⟩
    · obtain ⟨ys, hys, hleft⟩ :=
        values_postorder_of_ok hl stack (r.postorder ++ ([.operator op.operator] ++ ts))
      rw [hleft]
      rcases bind_eq_error_iff.1 hright with hr | ⟨z, hr, hop⟩
      · obtain ⟨before, hbefore, hvalues⟩ :=
          ihr hr (y :: stack) ([.operator op.operator] ++ ts)
        exact ⟨l.subexpressions ++ before,
          (List.prefix_append_right_inj _).2 (hbefore.trans (List.prefix_append _ _)),
          hys.append hvalues⟩
      · obtain ⟨zs, hzs, hright⟩ :=
          values_postorder_of_ok hr (y :: stack) ([.operator op.operator] ++ ts)
        have hstep : step system environment (z :: y :: stack) (.operator op.operator) =
            .error error := by
          rw [step_binary, hop]
          rfl
        rw [hright, ← List.append_assoc, ← List.append_assoc]
        exact represents_of_step_error (hys.append hzs) hstep
  | call f d ih =>
    rw [Expression.postorder, Expression.subexpressions, List.append_assoc]
    rcases bind_eq_error_iff.1 h with hd | ⟨y, hd, hop⟩
    · obtain ⟨before, hbefore, hvalues⟩ := ih hd stack ([.function f] ++ ts)
      exact ⟨before, hbefore.trans (List.prefix_append _ _), hvalues⟩
    · obtain ⟨ys, hys, hvalues⟩ := values_postorder_of_ok hd stack ([.function f] ++ ts)
      have hstep : step system environment (y :: stack) (.function f) = .error error := by
        rw [step_function, hop]
        rfl
      rw [hvalues]
      exact represents_of_step_error hys hstep

/-- A run computes the values of the subexpressions in their order, all of them
unless one fails. -/
theorem values_postorder (e : Expression) (environment : Environment) :
    ∃ before, before <+: e.subexpressions ∧
      Represents system environment before (values system environment [] e.postorder) := by
  rw [← List.append_nil e.postorder]
  cases h : e.evaluate system environment with
  | ok x =>
    obtain ⟨xs, hxs, hvalues⟩ := values_postorder_of_ok h [] []
    refine ⟨e.subexpressions, List.prefix_rfl, ?_⟩
    rw [hvalues]
    simpa [values] using hxs
  | error error => exact values_postorder_of_error h [] []

end Evaluation

/-! ## Lines with a derivation -/

section Lines

variable {V : Type} {system : NumberSystem V} {line : String} {p : Sentence}
  (h : tokenize system.capabilities line = .ok p.tokens)
include h

/-- The tree of a line has only what its number system takes. -/
theorem Sentence.admissible : ∀ t ∈ p.expression.postorder, t.Admissible system.capabilities :=
  admissible_of_toPostfix h (toPostfix_tokens p)

theorem Calculator.evaluateIn_sentence (environment : Environment) :
    (evaluateIn system environment line).value =
      (p.expression.evaluate system environment).mapError .evaluation := by
  unfold evaluateIn
  rw [h]
  dsimp only
  rw [toPostfix_tokens]
  change (Evaluation.evaluate system environment p.expression.postorder).mapError _ = _
  rw [Evaluation.evaluate_postorder]

theorem Calculator.values_sentence (environment : Environment) :
    values system environment line =
      Evaluation.values system environment [] p.expression.postorder := by
  unfold values
  rw [h]
  dsimp only
  rw [toPostfix_tokens]

end Lines

end Abacus
