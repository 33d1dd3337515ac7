/-
Abacus.Proofs.NumberSystem.Finiteness — every value of a run is finite.

An invariant of the operations of a number system is one of the stack, from token
to token of any list, whether the list is well formed or not.  For rounded arithmetic the results
are checked, with two exceptions: the negation of a number, which is finite
with it, and the factorial in double precision, which is below its limit a part
of one finite product.
-/
import Abacus.NumberSystem.Decimal
import Abacus.NumberSystem.Float
import Abacus.Proofs.Calculator
import Abacus.Proofs.Evaluation.StackMachine

namespace Abacus

variable {V : Type}

/-! ## Invariants -/

/-- The results of a number system have a property, if the operands have it. -/
structure NumberSystem.Preserves (system : NumberSystem V) (P : V → Prop) : Prop where
  readLiteral : ∀ {text x}, system.readLiteral text = .ok x → P x
  ofVariable : ∀ {name value x}, system.ofVariable name value = .ok x → P x
  unary : ∀ {op x y}, P x → system.unary op x = .ok y → P y
  binary : ∀ {op x y z}, P x → P y → system.binary op x y = .ok z → P z
  apply : ∀ {f x y}, P x → system.apply f x = .ok y → P y

namespace NumberSystem.Preserves

open Evaluation

variable {system : NumberSystem V} {P : V → Prop} (h : system.Preserves P)
  {environment : Environment}
include h

/-- A token keeps the property of the values on the stack. -/
theorem step {stack stack' : List V} {token : Token} (hstack : ∀ x ∈ stack, P x)
    (hstep : Evaluation.step system environment stack token = .ok stack') :
    ∀ x ∈ stack', P x := by
  cases steps_of_step_eq_ok hstep with
  | number hx => exact List.forall_mem_cons.2 ⟨h.readLiteral hx, hstack⟩
  | identifier _ hx => exact List.forall_mem_cons.2 ⟨h.ofVariable hx, hstack⟩
  | unary hy =>
    obtain ⟨hx, hrest⟩ := List.forall_mem_cons.1 hstack
    exact List.forall_mem_cons.2 ⟨h.unary hx hy, hrest⟩
  | binary hz =>
    obtain ⟨hy, hx, hrest⟩ := (List.forall_mem_cons.1 hstack).imp id List.forall_mem_cons.1
    exact List.forall_mem_cons.2 ⟨h.binary hx hy hz, hrest⟩
  | function hy =>
    obtain ⟨hx, hrest⟩ := List.forall_mem_cons.1 hstack
    exact List.forall_mem_cons.2 ⟨h.apply hx hy, hrest⟩

/-- A run keeps the property of the values on the stack. -/
theorem foldlM {tokens : List Token} {stack stack' : List V} (hstack : ∀ x ∈ stack, P x)
    (hrun : tokens.foldlM (Evaluation.step system environment) stack = .ok stack') :
    ∀ x ∈ stack', P x := by
  induction tokens generalizing stack with
  | nil =>
    cases hrun
    exact hstack
  | cons token tokens ih =>
    rw [List.foldlM_cons, bind_eq_ok_iff] at hrun
    obtain ⟨next, hstep, hrun⟩ := hrun
    exact ih (h.step hstack hstep) hrun

theorem evaluate {tokens : List Token} {x : V}
    (hx : Evaluation.evaluate system environment tokens = .ok x) : P x := by
  rw [evaluate_eq, bind_eq_ok_iff] at hx
  obtain ⟨stack, hrun, hfinish⟩ := hx
  match stack with
  | [] => cases hfinish
  | [_] =>
    cases hfinish
    exact h.foldlM (List.forall_mem_nil P) hrun x List.mem_cons_self
  | _ :: _ :: _ => cases hfinish

theorem evaluateIn {line : String} {x : V}
    (hx : (Calculator.evaluateIn system environment line).value = .ok x) : P x := by
  obtain ⟨ts, rpn, -, -, hvalue⟩ := Calculator.evaluateIn_eq_ok_iff.1 hx
  exact h.evaluate hvalue

end NumberSystem.Preserves

/-! ## Finite numbers -/

namespace Floating

variable {f : Format}

theorem isFinite_of_checked {origin : Origin} {x y : Floating f} (h : x.checked origin = .ok y) :
    y.isFinite = true := by
  cases x with
  | nan => cases h
  | infinite negative => cases h
  | finite x => cases h; rfl

theorem isFinite_neg {x : Floating f} (h : x.isFinite = true) : x.neg.isFinite = true := by
  cases x with
  | finite x => rfl
  | _ => cases h

/-- No product of a number that is not finite is finite. -/
theorem isFinite_of_mul {x y : Floating f} (h : (x.mul y).isFinite = true) :
    x.isFinite = true := by
  cases x with
  | finite x => rfl
  | nan => cases y <;> cases h
  | infinite negative =>
    cases y with
    | nan => cases h
    | infinite negative => cases h
    | finite y =>
      rw [mul] at h
      split at h <;> cases h

theorem isFinite_of_foldl_mul {α : Type} {g : α → Floating f} {x : Floating f} {ks : List α}
    (h : (ks.foldl (fun acc k => acc.mul (g k)) x).isFinite = true) : x.isFinite = true := by
  induction ks generalizing x with
  | nil => exact h
  | cons k ks ih => exact isFinite_of_mul (ih h)

end Floating

namespace NumberSystem

/-- The product of all numbers up to the limit for factorials is finite. -/
theorem Float.isFinite_foldl_limit :
    ((List.range' 2 (factorialLimit - 1)).foldl
      (fun acc (k : ℕ) => acc.mul (ofInt k)) (ofInt 1)).isFinite = true := by
  decide +kernel

theorem Float.isFinite_foldl_mul {n : ℕ} (h : n ≤ factorialLimit) :
    ((List.range' 2 (n - 1)).foldl
      (fun acc (k : ℕ) => acc.mul (ofInt k)) (ofInt 1)).isFinite = true := by
  have hsplit : List.range' 2 (factorialLimit - 1) =
      List.range' 2 (n - 1) ++ List.range' (2 + (n - 1)) (factorialLimit - 1 - (n - 1)) := by
    rw [List.range'_append_1]
    congr 1
    omega
  have hlimit := isFinite_foldl_limit
  rw [hsplit, List.foldl_append] at hlimit
  exact Floating.isFinite_of_foldl_mul hlimit

theorem Float.isFinite_factorial {x y : Binary64} (h : factorial x = .ok y) :
    y.isFinite = true := by
  cases x with
  | nan => cases h
  | infinite negative => cases h
  | finite x =>
    unfold factorial at h
    dsimp only at h
    split_ifs at h with hfraction hnegative hlimit
    cases h
    exact isFinite_foldl_mul (by omega)

/-- Every value in double precision is finite. -/
theorem preserves_float : float.Preserves (fun x => x.isFinite = true) where
  readLiteral {text x} h := by
    change Float.readLiteral text = .ok x at h
    unfold Float.readLiteral at h
    split at h
    · cases h
    · split_ifs at h with hfinite
      cases h
      exact hfinite
  ofVariable {name value x} h := by
    change Float.ofVariable name value = .ok x at h
    unfold Float.ofVariable at h
    split_ifs at h with hfinite
    cases h
    exact hfinite
  unary {op x y} hx h := by
    cases op with
    | neg => cases h; exact Floating.isFinite_neg hx
    | factorial => exact Float.isFinite_factorial h
  binary {op x y z} hx hy h := by
    cases op with
    | add => exact Floating.isFinite_of_checked h
    | sub => exact Floating.isFinite_of_checked h
    | mul => exact Floating.isFinite_of_checked h
    | div =>
      change Float.div x y = .ok z at h
      unfold Float.div at h
      split_ifs at h
      exact Floating.isFinite_of_checked h
    | pow =>
      change Float.pow x y = .ok z at h
      unfold Float.pow at h
      split_ifs at h
      exact Floating.isFinite_of_checked h
  apply {f x y} hx h := by
    change Float.apply f x = .ok y at h
    unfold Float.apply at h
    cases f <;> dsimp only at h <;> try split_ifs at h
    all_goals exact Floating.isFinite_of_checked h

theorem Decimal.isFinite_factorial {x y : Decimal} (h : factorial x = .ok y) :
    y.isFinite = true := by
  cases x with
  | nan => cases h
  | infinite negative => cases h
  | finite x =>
    unfold factorial at h
    dsimp only at h
    split_ifs at h
    exact Floating.isFinite_of_checked h

theorem Decimal.isFinite_powByMultiplication {base : Finite Format.decimal} {negative : Bool}
    {n : ℕ} {y : Decimal} (h : powByMultiplication base negative n = .ok y) :
    y.isFinite = true := by
  unfold powByMultiplication at h
  dsimp only at h
  split_ifs at h <;> exact Floating.isFinite_of_checked h

theorem Decimal.isFinite_one : (Floating.one : Decimal).isFinite = true := by
  decide +kernel

theorem Decimal.isFinite_powByLogarithm {base exponent : Finite Format.decimal} {y : Decimal}
    (h : powByLogarithm base exponent = .ok y) : y.isFinite = true := by
  unfold powByLogarithm at h
  dsimp only at h
  split_ifs at h
  · cases h; rfl
  · cases h; exact Floating.isFinite_neg isFinite_one
  · cases h; exact isFinite_one
  · cases h; rfl
  · obtain ⟨power, hpower, h⟩ := bind_eq_ok_iff.1 h
    cases h
    exact Floating.isFinite_neg (Floating.isFinite_of_checked hpower)
  · obtain ⟨power, hpower, h⟩ := bind_eq_ok_iff.1 h
    cases h
    exact Floating.isFinite_of_checked hpower

theorem Decimal.isFinite_pow {x y z : Decimal} (h : pow x y = .ok z) : z.isFinite = true := by
  unfold pow at h
  split at h
  · split_ifs at h
    · exact isFinite_powByMultiplication h
    · exact isFinite_powByLogarithm h
    · cases h; rfl
    · exact Floating.isFinite_of_checked h
  · cases h

/-- Every value in decimals is finite. -/
theorem preserves_decimal : decimal.Preserves (fun x => x.isFinite = true) where
  readLiteral {text x} h := by
    change Decimal.readLiteral text = .ok x at h
    unfold Decimal.readLiteral at h
    split at h
    · cases h
    · exact Floating.isFinite_of_checked h
  ofVariable {name value x} h := by
    change Decimal.ofVariable name value = .ok x at h
    unfold Decimal.ofVariable at h
    split_ifs at h
    exact Floating.isFinite_of_checked h
  unary {op x y} hx h := by
    cases op with
    | neg => cases h; exact Floating.isFinite_neg hx
    | factorial => exact Decimal.isFinite_factorial h
  binary {op x y z} hx hy h := by
    cases op with
    | add => exact Floating.isFinite_of_checked h
    | sub => exact Floating.isFinite_of_checked h
    | mul => exact Floating.isFinite_of_checked h
    | div =>
      change Decimal.div x y = .ok z at h
      unfold Decimal.div at h
      split_ifs at h
      exact Floating.isFinite_of_checked h
    | pow => exact Decimal.isFinite_pow h
  apply {f x y} hx h := by
    change Decimal.apply f x = .ok y at h
    unfold Decimal.apply at h
    cases f <;> dsimp only at h <;> try split_ifs at h
    all_goals exact Floating.isFinite_of_checked h

end NumberSystem

end Abacus
