/-
Abacus.Proofs.Evaluation.Simulation — one number system follows another.

A number system follows another one if each of its operations gives a related
result for related operands, wherever the result of the other is within some
bound.  Then a whole run follows as well, as long as every value that is
computed on the way is within the bound: the stacks stay related value by value
(`Follows.step`, `Follows.foldlM`).
-/
import Abacus.Proofs.Calculator
import Abacus.Proofs.Evaluation.StackMachine
import Abacus.Proofs.Postfix.Conservation
import Abacus.Proofs.Syntax.Features

namespace Abacus

variable {V W : Type}

/-! ## The values of a run -/

/-- The values that a run computes: what each token leaves on top of the
stack. -/
def Evaluation.values (system : NumberSystem V) (environment : Environment) (stack : List V) :
    List Token → List V
  | [] => []
  | token :: tokens =>
    match step system environment stack token with
    | .error _ => []
    | .ok stack => stack.head?.toList ++ values system environment stack tokens

/-- The values that the evaluation of a line computes: those of its literals,
its variables and its operations, with the result as the last one. -/
def Calculator.values (system : NumberSystem V) (environment : Environment) (line : String) :
    List V :=
  match tokenize system.capabilities line with
  | .error _ => []
  | .ok tokens =>
    match toPostfix tokens with
    | .error _ => []
    | .ok rpn => Evaluation.values system environment [] rpn

/-! ## Following -/

/-- Each operation of `other` follows that of `system`, as far as the results of
`system` are within a bound. -/
structure NumberSystem.Follows (other : NumberSystem W) (system : NumberSystem V)
    (environment : Environment) (Within : V → Prop) (Related : V → W → Prop) : Prop where
  readLiteral : ∀ {text z}, IsLiteral system.capabilities.decimals text →
    system.readLiteral text = .ok z → Within z →
    ∃ w, other.readLiteral text = .ok w ∧ Related z w
  ofVariable : ∀ {name value z}, environment name = some value →
    system.ofVariable name value = .ok z → Within z →
    ∃ w, other.ofVariable name value = .ok w ∧ Related z w
  unary : ∀ {op x y z}, Within x → Related x y → system.unary op x = .ok z → Within z →
    ∃ w, other.unary op y = .ok w ∧ Related z w
  binary : ∀ {op x x' y y' z}, Within x → Within x' → Related x y → Related x' y' →
    system.binary op x x' = .ok z → Within z →
    ∃ w, other.binary op y y' = .ok w ∧ Related z w
  apply : ∀ {f x y z}, Within x → Related x y → system.apply f x = .ok z → Within z →
    ∃ w, other.apply f y = .ok w ∧ Related z w

namespace NumberSystem.Follows

open Evaluation

variable {other : NumberSystem W} {system : NumberSystem V} {environment : Environment}
  {Within : V → Prop} {Related : V → W → Prop}
  (h : other.Follows system environment Within Related)
include h

/-- A token keeps the stacks related, if the value it leaves is within the
bound. -/
theorem step {xs xs' : List V} {ys : List W} {token : Token}
    (hxs : List.Forall₂ (fun x y => Within x ∧ Related x y) xs ys)
    (ht : token.Admissible system.capabilities)
    (hs : Evaluation.step system environment xs token = .ok xs')
    (hw : ∀ x ∈ xs'.head?, Within x) :
    ∃ ys', Evaluation.step other environment ys token = .ok ys' ∧
      List.Forall₂ (fun x y => Within x ∧ Related x y) xs' ys' := by
  cases steps_of_step_eq_ok hs with
  | number hz =>
    obtain ⟨w, hw', hr⟩ := h.readLiteral ht hz (hw _ rfl)
    exact ⟨w :: ys, Steps.step_eq_ok (.number hw'), .cons ⟨hw _ rfl, hr⟩ hxs⟩
  | identifier hvalue hz =>
    obtain ⟨w, hw', hr⟩ := h.ofVariable hvalue hz (hw _ rfl)
    exact ⟨w :: ys, Steps.step_eq_ok (.identifier hvalue hw'), .cons ⟨hw _ rfl, hr⟩ hxs⟩
  | unary hz =>
    cases hxs with
    | @cons _ y _ ys hx hrest =>
      obtain ⟨w, hw', hr⟩ := h.unary hx.1 hx.2 hz (hw _ rfl)
      exact ⟨w :: ys, Steps.step_eq_ok (.unary hw'), .cons ⟨hw _ rfl, hr⟩ hrest⟩
  | binary hz =>
    cases hxs with
    | @cons _ y' _ _ hx' hxs =>
      cases hxs with
      | @cons _ y _ ys hx hrest =>
        obtain ⟨w, hw', hr⟩ := h.binary hx.1 hx'.1 hx.2 hx'.2 hz (hw _ rfl)
        exact ⟨w :: ys, Steps.step_eq_ok (.binary hw'), .cons ⟨hw _ rfl, hr⟩ hrest⟩
  | function hz =>
    cases hxs with
    | @cons x y _ ys hx hrest =>
      obtain ⟨w, hw', hr⟩ := h.apply hx.1 hx.2 hz (hw _ rfl)
      exact ⟨w :: ys, Steps.step_eq_ok (.function hw'), .cons ⟨hw _ rfl, hr⟩ hrest⟩

/-- A run keeps the stacks related, if every value it computes is within the
bound. -/
theorem foldlM {tokens : List Token} {xs xs' : List V} {ys : List W}
    (hxs : List.Forall₂ (fun x y => Within x ∧ Related x y) xs ys)
    (ht : ∀ t ∈ tokens, t.Admissible system.capabilities)
    (hs : tokens.foldlM (Evaluation.step system environment) xs = .ok xs')
    (hw : ∀ x ∈ Evaluation.values system environment xs tokens, Within x) :
    ∃ ys', tokens.foldlM (Evaluation.step other environment) ys = .ok ys' ∧
      List.Forall₂ (fun x y => Within x ∧ Related x y) xs' ys' := by
  induction tokens generalizing xs ys with
  | nil =>
    cases hs
    exact ⟨ys, rfl, hxs⟩
  | cons token tokens ih =>
    rw [List.foldlM_cons, bind_eq_ok_iff] at hs
    obtain ⟨next, hstep, hs⟩ := hs
    rw [Evaluation.values, hstep] at hw
    obtain ⟨hhead, htail⟩ := List.forall_mem_append.1 hw
    obtain ⟨htoken, htokens⟩ := List.forall_mem_cons.1 ht
    obtain ⟨ys₁, hys₁, hrel₁⟩ := h.step hxs htoken hstep fun x hx => hhead x (by simpa using hx)
    obtain ⟨ys₂, hys₂, hrel₂⟩ := ih hrel₁ htokens hs htail
    exact ⟨ys₂, by rw [foldlM_cons_of_ok hys₁, hys₂], hrel₂⟩

theorem evaluate {tokens : List Token} {x : V}
    (ht : ∀ t ∈ tokens, t.Admissible system.capabilities)
    (hx : Evaluation.evaluate system environment tokens = .ok x)
    (hw : ∀ x ∈ Evaluation.values system environment [] tokens, Within x) :
    ∃ y, Evaluation.evaluate other environment tokens = .ok y ∧ Within x ∧ Related x y := by
  rw [evaluate_eq, bind_eq_ok_iff] at hx
  obtain ⟨stack, hs, hfinish⟩ := hx
  obtain ⟨ys, hys, hrel⟩ := h.foldlM .nil ht hs hw
  match stack with
  | [] => cases hfinish
  | [_] =>
    cases hfinish
    cases hrel with
    | @cons _ y _ _ hxy hnil =>
      cases hnil
      exact ⟨y, by rw [evaluate_eq, hys]; rfl, hxy⟩
  | _ :: _ :: _ => cases hfinish

end NumberSystem.Follows

/-! ## Lines -/

/-- The evaluation of a line follows, if every value it computes is within the
bound. -/
theorem NumberSystem.Follows.evaluateIn {other : NumberSystem W} {system : NumberSystem V}
    {environment : Environment} {Within : V → Prop} {Related : V → W → Prop}
    (h : other.Follows system environment Within Related) (hcaps : other.capabilities = .all)
    {line : String} {x : V}
    (hx : (Calculator.evaluateIn system environment line).value = .ok x)
    (hw : ∀ x ∈ Calculator.values system environment line, Within x) :
    ∃ y, (Calculator.evaluateIn other environment line).value = .ok y ∧ Within x ∧
      Related x y := by
  obtain ⟨ts, rpn, hts, hrpn, hvalue⟩ := Calculator.evaluateIn_eq_ok_iff.1 hx
  unfold Calculator.values at hw
  rw [hts] at hw
  dsimp only at hw
  rw [hrpn] at hw
  have hall : tokenize .all line = .ok ts :=
    tokenize_eq_ok_iff.2 (tokenize_eq_ok_iff.1 hts).all
  obtain ⟨y, hy, hxy⟩ := h.evaluate (admissible_of_toPostfix hts hrpn) hvalue hw
  exact ⟨y, Calculator.evaluateIn_eq_ok_iff.2 ⟨ts, rpn, hcaps ▸ hall, hrpn, hy⟩, hxy⟩

end Abacus
