/-
Abacus.Proofs.Evaluation.StackMachine — running a postfix list computes the
value of a tree.

`Expression.evaluate` computes with a tree directly: the operands from left
to right, then the operator, up to the first error.  The stack machine gives
the same result on the postfix order of the tree (`foldlM_postorder`), and
whenever it gets through a list, every value on its stack is the value of a
tree, and the postfix orders of these trees make up the list (`Represents`).
So it succeeds on postfix orders of trees only.

That a postfix order belongs to one tree only follows from running it in
`NumberSystem.formal`, whose numbers are the trees themselves.
-/
import Abacus.Evaluation
import Abacus.Proofs.Outcome
import Abacus.Proofs.Syntax.Expression
import Mathlib.Data.List.Forall2

namespace Abacus

variable {V : Type}

/-! ## The value of a tree -/

namespace NumberSystem

/-- The operation of a unary operator. -/
def unary (system : NumberSystem V) : UnaryOperator → V → Except EvaluationError V
  | .neg, x => .ok (system.neg x)
  | .factorial, x => system.factorial x

/-- The operation of a binary operator. -/
def binary (system : NumberSystem V) : BinaryOperator → V → V → Except EvaluationError V
  | .add => system.add
  | .sub => system.sub
  | .mul => system.mul
  | .div => system.div
  | .pow => system.pow

end NumberSystem

/-- The value of a tree: that of the left operand, then that of the right one,
then the operation. -/
def Expression.evaluate (system : NumberSystem V) (environment : Environment) :
    Expression → Except EvaluationError V
  | number text => system.readLiteral text
  | identifier name =>
    match environment name with
    | none => .error (.unknownVariable name)
    | some value => system.ofVariable name value
  | unary op e => do
    let x ← e.evaluate system environment
    system.unary op x
  | binary op l r => do
    let x ← l.evaluate system environment
    let y ← r.evaluate system environment
    system.binary op x y
  | call f e => do
    let x ← e.evaluate system environment
    system.apply f x

namespace Evaluation

variable (system : NumberSystem V) (environment : Environment)

/-! ## One token -/

theorem step_number (stack : List V) (text : String) :
    step system environment stack (.number text) =
      (system.readLiteral text).map (· :: stack) := by
  simp only [step]
  cases system.readLiteral text <;> rfl

theorem step_identifier (stack : List V) (name : String) :
    step system environment stack (.identifier name) =
      ((Expression.identifier name).evaluate system environment).map (· :: stack) := by
  simp only [step, Expression.evaluate]
  cases environment name with
  | none => rfl
  | some value => dsimp only; cases system.ofVariable name value <;> rfl

theorem step_unary (x : V) (stack : List V) (op : UnaryOperator) :
    step system environment (x :: stack) (.operator op.operator) =
      (system.unary op x).map (· :: stack) := by
  cases op with
  | neg => rfl
  | factorial =>
    simp only [UnaryOperator.operator, step, applyOperator, NumberSystem.unary]
    cases system.factorial x <;> rfl

theorem step_binary (x y : V) (stack : List V) (op : BinaryOperator) :
    step system environment (y :: x :: stack) (.operator op.operator) =
      (system.binary op x y).map (· :: stack) := by
  have push (r : Except EvaluationError V) :
      (do return (← r) :: stack) = r.map (· :: stack) := by cases r <;> rfl
  cases op <;> exact push _

theorem step_function (x : V) (stack : List V) (f : Elementary) :
    step system environment (x :: stack) (.function f) =
      (system.apply f x).map (· :: stack) := by
  simp only [step]
  cases system.apply f x <;> rfl

/-- A step that succeeds: the token takes its operands off the stack and puts its value on it. -/
inductive Steps : List V → Token → List V → Prop
  | number {stack text x} : system.readLiteral text = .ok x →
      Steps stack (.number text) (x :: stack)
  | identifier {stack name value x} : environment name = some value →
      system.ofVariable name value = .ok x → Steps stack (.identifier name) (x :: stack)
  | unary {stack op x y} : system.unary op x = .ok y →
      Steps (x :: stack) (.operator (UnaryOperator.operator op)) (y :: stack)
  | binary {stack op x y z} : system.binary op x y = .ok z →
      Steps (y :: x :: stack) (.operator (BinaryOperator.operator op)) (z :: stack)
  | function {stack f x y} : system.apply f x = .ok y →
      Steps (x :: stack) (.function f) (y :: stack)

section Steps

variable {system environment}

theorem Steps.step_eq_ok {stack stack' : List V} {t : Token}
    (h : Steps system environment stack t stack') :
    step system environment stack t = .ok stack' := by
  cases h with
  | number hx =>
    rw [step_number, hx]
    rfl
  | identifier hvalue hx =>
    rw [step_identifier, Expression.evaluate, hvalue]
    dsimp only
    rw [hx]
    rfl
  | unary hy =>
    rw [step_unary, hy]
    rfl
  | binary hz =>
    rw [step_binary, hz]
    rfl
  | function hy =>
    rw [step_function, hy]
    rfl

/-- An operator without its operands breaks the list, and so does a parenthesis. -/
theorem steps_of_step_eq_ok {stack stack' : List V} {t : Token}
    (h : step system environment stack t = .ok stack') :
    Steps system environment stack t stack' := by
  cases t with
  | number text =>
    rw [step_number, map_eq_ok_iff] at h
    obtain ⟨x, hx, rfl⟩ := h
    exact .number hx
  | identifier name =>
    rw [step_identifier, map_eq_ok_iff, Expression.evaluate] at h
    obtain ⟨x, hx, rfl⟩ := h
    split at hx
    · cases hx
    · next hvalue => exact .identifier hvalue hx
  | operator op =>
    obtain ⟨u, rfl⟩ | ⟨b, rfl⟩ := op.unary_or_binary
    · match stack with
      | [] => cases u <;> cases h
      | x :: rest =>
        rw [step_unary, map_eq_ok_iff] at h
        obtain ⟨y, hy, rfl⟩ := h
        exact .unary hy
    · match stack with
      | [] => cases b <;> cases h
      | [_] => cases b <;> cases h
      | y :: x :: rest =>
        rw [step_binary, map_eq_ok_iff] at h
        obtain ⟨z, hz, rfl⟩ := h
        exact .binary hz
  | function f =>
    match stack with
    | [] => cases h
    | x :: rest =>
      rw [step_function, map_eq_ok_iff] at h
      obtain ⟨y, hy, rfl⟩ := h
      exact .function hy
  | leftParen => cases h
  | rightParen => cases h

end Steps

theorem snd_run (stack : List V) (tokens : List Token) :
    (run system environment stack tokens).2 = tokens.foldlM (step system environment) stack := by
  induction tokens generalizing stack with
  | nil => rfl
  | cons token tokens ih =>
    simp only [run, List.foldlM_cons]
    cases step system environment stack token with
    | error e => rfl
    | ok next => exact ih next

theorem evaluate_eq (tokens : List Token) :
    evaluate system environment tokens =
      tokens.foldlM (step system environment) [] >>= finish := by
  rw [← snd_run]
  rfl

/-! ## From the tree to the list -/

/-- Running the postfix order of a tree leaves its value on the stack, or fails
as the tree does. -/
theorem foldlM_postorder (e : Expression) (stack : List V) (rest : List Token) :
    (e.postorder ++ rest).foldlM (step system environment) stack =
      e.evaluate system environment >>= fun x =>
        rest.foldlM (step system environment) (x :: stack) := by
  induction e generalizing stack rest with
  | number text =>
    simp only [Expression.postorder, List.singleton_append, List.foldlM_cons, step_number,
      map_bind]
    rfl
  | identifier name =>
    simp only [Expression.postorder, List.singleton_append, List.foldlM_cons,
      step_identifier, map_bind]
  | unary op e ih =>
    simp only [Expression.postorder, Expression.evaluate, List.append_assoc,
      List.singleton_append, ih, List.foldlM_cons, step_unary, map_bind, bind_assoc]
  | binary op l r ihl ihr =>
    simp only [Expression.postorder, Expression.evaluate, List.append_assoc,
      List.singleton_append, ihl, ihr, List.foldlM_cons, step_binary, map_bind, bind_assoc]
  | call f e ih =>
    simp only [Expression.postorder, Expression.evaluate, List.append_assoc,
      List.singleton_append, ih, List.foldlM_cons, step_function, map_bind, bind_assoc]

theorem evaluate_postorder (e : Expression) :
    evaluate system environment e.postorder = e.evaluate system environment := by
  have h := foldlM_postorder system environment e [] []
  rw [List.append_nil] at h
  rw [evaluate_eq, h]
  cases e.evaluate system environment <;> rfl

/-! ## From the list to the tree -/

/-- Every value of the stack is the value of the tree in its place. -/
def Represents (trees : List Expression) (stack : List V) : Prop :=
  List.Forall₂ (fun e x => e.evaluate system environment = .ok x) trees stack

variable {system environment}

/-- A token that runs turns the trees of the stack into those of the new stack,
and the token is all that their postfix orders gain. -/
theorem Represents.step {trees : List Expression} {stack stack' : List V} {token : Token}
    (h : Represents system environment trees stack)
    (hs : step system environment stack token = .ok stack') :
    ∃ trees', Represents system environment trees' stack' ∧
      Expression.postorders trees' = Expression.postorders trees ++ [token] := by
  cases steps_of_step_eq_ok hs with
  | @number _ text x hx =>
    exact ⟨.number text :: trees, .cons hx h, Expression.postorders_cons _ _⟩
  | @identifier _ name value x hvalue hx =>
    have hv : (Expression.identifier name).evaluate system environment = .ok x := by
      rw [Expression.evaluate, hvalue]
      exact hx
    exact ⟨.identifier name :: trees, .cons hv h, Expression.postorders_cons _ _⟩
  | @unary _ op x y hy =>
    cases h with
    | @cons e _ es _ he hes =>
      have hv : (Expression.unary op e).evaluate system environment = .ok y :=
        bind_eq_ok_iff.2 ⟨x, he, hy⟩
      refine ⟨.unary op e :: es, .cons hv hes, ?_⟩
      simp [Expression.postorders, Expression.postorder]
  | @binary _ op x y z hz =>
    cases h with
    | @cons r _ _ _ hr h =>
      cases h with
      | @cons l _ es _ hl hes =>
        have hv : (Expression.binary op l r).evaluate system environment = .ok z :=
          bind_eq_ok_iff.2 ⟨x, hl, bind_eq_ok_iff.2 ⟨y, hr, hz⟩⟩
        refine ⟨.binary op l r :: es, .cons hv hes, ?_⟩
        simp [Expression.postorders, Expression.postorder]
  | @function _ f x y hy =>
    cases h with
    | @cons e _ es _ he hes =>
      have hv : (Expression.call f e).evaluate system environment = .ok y :=
        bind_eq_ok_iff.2 ⟨x, he, hy⟩
      refine ⟨.call f e :: es, .cons hv hes, ?_⟩
      simp [Expression.postorders, Expression.postorder]

theorem Represents.foldlM {tokens : List Token} {trees : List Expression}
    {stack stack' : List V} (h : Represents system environment trees stack)
    (hs : tokens.foldlM (Evaluation.step system environment) stack = .ok stack') :
    ∃ trees', Represents system environment trees' stack' ∧
      Expression.postorders trees' = Expression.postorders trees ++ tokens := by
  induction tokens generalizing trees stack with
  | nil =>
    cases hs
    exact ⟨trees, h, (List.append_nil _).symm⟩
  | cons token tokens ih =>
    rw [List.foldlM_cons, bind_eq_ok_iff] at hs
    obtain ⟨next, hstep, hs⟩ := hs
    obtain ⟨trees₁, h₁, hp₁⟩ := h.step hstep
    obtain ⟨trees₂, h₂, hp₂⟩ := ih h₁ hs
    refine ⟨trees₂, h₂, ?_⟩
    rw [hp₂, hp₁, List.append_assoc, List.singleton_append]

/-- A list that has a value is the postfix order of a tree with that value. -/
theorem exists_tree_of_evaluate {tokens : List Token} {x : V}
    (h : evaluate system environment tokens = .ok x) :
    ∃ e : Expression, e.postorder = tokens ∧ e.evaluate system environment = .ok x := by
  rw [evaluate_eq, bind_eq_ok_iff] at h
  obtain ⟨stack, hs, hf⟩ := h
  have hnone : Represents system environment [] [] := .nil
  obtain ⟨trees, ht, hp⟩ := hnone.foldlM hs
  match stack with
  | [] => cases hf
  | [y] =>
    cases hf
    cases ht with
    | @cons e _ _ _ he hes =>
      cases hes
      refine ⟨e, ?_, he⟩
      simpa [Expression.postorders] using hp
  | _ :: _ :: _ => cases hf

end Evaluation

/-! ## One tree for a list -/

/-- The number system whose numbers are the trees that compute them. -/
def NumberSystem.formal : NumberSystem Expression where
  capabilities := .all
  readLiteral text := .ok (.number text)
  ofVariable name _ := .ok (.identifier name)
  add x y := .ok (.binary .add x y)
  sub x y := .ok (.binary .sub x y)
  mul x y := .ok (.binary .mul x y)
  div x y := .ok (.binary .div x y)
  pow x y := .ok (.binary .pow x y)
  neg x := .unary .neg x
  factorial x := .ok (.unary .factorial x)
  apply f x := .ok (.call f x)
  render x := Token.render x.postorder

namespace Expression

/-- A tree is its own value in the formal system. -/
theorem evaluate_formal (e : Expression) :
    e.evaluate .formal (fun _ => some .nan) = .ok e := by
  induction e with
  | number text => rfl
  | identifier name => rfl
  | unary op e ih =>
    rw [evaluate, ih]
    cases op <;> rfl
  | binary op l r ihl ihr =>
    rw [evaluate, ihl, ihr]
    cases op <;> rfl
  | call f e ih =>
    rw [evaluate, ih]
    rfl

/-- No two trees have the same postfix order. -/
theorem postorder_injective : Function.Injective postorder := by
  intro d e h
  have hd := Evaluation.evaluate_postorder .formal (fun _ => some .nan) d
  have he := Evaluation.evaluate_postorder .formal (fun _ => some .nan) e
  rw [h, he, evaluate_formal, evaluate_formal] at hd
  exact (Except.ok.inj hd).symm

end Expression

namespace Evaluation

/-- The stack machine computes the value of the one tree that a postfix list
writes out, or fails with the error of the tree; on a list that is the postfix
order of no tree it always fails. -/
theorem evaluate_refines_tree (system : NumberSystem V) (environment : Environment)
    (tokens : List Token) :
    (∀ d e : Expression, d.postorder = tokens → e.postorder = tokens → d = e) ∧
    (∀ x, evaluate system environment tokens = .ok x ↔
      ∃ e : Expression, e.postorder = tokens ∧ e.evaluate system environment = .ok x) ∧
    (∀ (e : Expression) (error : EvaluationError), e.postorder = tokens →
      e.evaluate system environment = .error error →
      evaluate system environment tokens = .error error) ∧
    ((∀ e : Expression, e.postorder ≠ tokens) →
      ∃ error, evaluate system environment tokens = .error error) := by
  refine ⟨?unique, ?value, ?error, ?malformed⟩
  case unique =>
    intro d e hd he
    exact Expression.postorder_injective (hd.trans he.symm)
  case value =>
    intro x
    constructor
    · exact exists_tree_of_evaluate
    · rintro ⟨e, rfl, he⟩
      rw [evaluate_postorder, he]
  case error =>
    rintro e error rfl he
    rw [evaluate_postorder, he]
  case malformed =>
    intro hnone
    cases h : evaluate system environment tokens with
    | error error => exact ⟨error, rfl⟩
    | ok x =>
      obtain ⟨e, he, _⟩ := exists_tree_of_evaluate h
      exact absurd he (hnone e)

end Evaluation

end Abacus
