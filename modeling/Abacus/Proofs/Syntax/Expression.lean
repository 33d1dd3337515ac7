/-
Abacus.Proofs.Syntax.Expression — expressions as trees.

An expression is a number or a variable, or an operator or a function over
smaller expressions.  A tree has no parentheses: its shape says what belongs
together.  Its postfix order names the operands from left to right, each
operator behind its operands and each function behind its argument.
-/
import Abacus.Token

namespace Abacus

/-- The operators on one operand. -/
inductive UnaryOperator where
  | neg | factorial
deriving DecidableEq, Repr

/-- The operators between two operands. -/
inductive BinaryOperator where
  | add | sub | mul | div | pow
deriving DecidableEq, Repr

/-- The operator that tokens carry. -/
def UnaryOperator.operator : UnaryOperator → Operator
  | neg => .neg
  | factorial => .factorial

/-- The operator that tokens carry. -/
def BinaryOperator.operator : BinaryOperator → Operator
  | add => .add
  | sub => .sub
  | mul => .mul
  | div => .div
  | pow => .pow

theorem BinaryOperator.operator_inj {a b : BinaryOperator} (h : a.operator = b.operator) :
    a = b := by
  cases a <;> cases b <;> first | rfl | cases h

/-- An expression as a tree. -/
inductive Expression where
  | number (text : String)
  | identifier (name : String)
  | unary (op : UnaryOperator) (operand : Expression)
  | binary (op : BinaryOperator) (left right : Expression)
  | call (f : Elementary) (argument : Expression)
deriving DecidableEq, Repr

/-- The tokens of a tree, each operator and function behind what it takes. -/
def Expression.postorder : Expression → List Token
  | number text => [.number text]
  | identifier name => [.identifier name]
  | unary op e => e.postorder ++ [.operator op.operator]
  | binary op l r => l.postorder ++ r.postorder ++ [.operator op.operator]
  | call f e => e.postorder ++ [.function f]

/-- The postfix orders of a stack of trees, the newest in front, from the oldest
to the newest. -/
def Expression.postorders (trees : List Expression) : List Token :=
  trees.reverse.flatMap postorder

theorem Expression.postorders_cons (e : Expression) (trees : List Expression) :
    postorders (e :: trees) = postorders trees ++ e.postorder := by
  simp [postorders]

/-- Every operator takes either one operand or two. -/
theorem Operator.unary_or_binary (op : Operator) :
    (∃ u : UnaryOperator, op = u.operator) ∨ ∃ b : BinaryOperator, op = b.operator := by
  cases op with
  | add => exact .inr ⟨.add, rfl⟩
  | sub => exact .inr ⟨.sub, rfl⟩
  | mul => exact .inr ⟨.mul, rfl⟩
  | div => exact .inr ⟨.div, rfl⟩
  | pow => exact .inr ⟨.pow, rfl⟩
  | factorial => exact .inl ⟨.factorial, rfl⟩
  | neg => exact .inl ⟨.neg, rfl⟩

end Abacus
