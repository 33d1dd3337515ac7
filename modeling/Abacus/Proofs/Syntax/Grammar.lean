/-
Abacus.Proofs.Syntax.Grammar — the precedence grammar of expressions.

    sum     ::= product (('+' | '-') product)*
    product ::= unary (('*' | '/') unary)*
    unary   ::= neg unary | power
    power   ::= post | post '^' unary
    post    ::= atom '!'*
    atom    ::= number | variable | '(' sum ')' | function '(' sum ')'

A phrase is a derivation in this grammar.  It stands for the expression that
its rules group together, sums and products from the left and powers from the
right.  A list of tokens has at most one derivation (`Phrase.tokens_inj`).
-/
import Abacus.Proofs.Syntax.Expression
import Mathlib

namespace Abacus

/-! ## Phrases -/

/-- The rules that join any number of items from the left. -/
inductive Chain where
  | sum | product
deriving DecidableEq, Repr

/-- The rules of the grammar. -/
inductive Category where
  | chain (k : Chain)
  | unary | power | post | atom
deriving DecidableEq, Repr

/-- What a chain joins its items with. -/
def Chain.operators : Chain → List BinaryOperator
  | sum => [.add, .sub]
  | product => [.mul, .div]

/-- What a chain joins. -/
def Chain.item : Chain → Category
  | sum => .chain .product
  | product => .unary

mutual

/-- The derivations of a category. -/
inductive Phrase : Category → Type where
  | number (text : String) : Phrase .atom
  | identifier (name : String) : Phrase .atom
  | group (inner : Phrase (.chain .sum)) : Phrase .atom
  | call (f : Elementary) (argument : Phrase (.chain .sum)) : Phrase .atom
  | post (operand : Phrase .atom) (factorials : Nat) : Phrase .post
  | base (operand : Phrase .post) : Phrase .power
  | power (base : Phrase .post) (exponent : Phrase .unary) : Phrase .power
  | neg (operand : Phrase .unary) : Phrase .unary
  | unsigned (operand : Phrase .power) : Phrase .unary
  | chain {k : Chain} (first : Phrase k.item) (rest : Tail k) : Phrase (.chain k)

/-- The items of a chain behind its first, each with the operator before it. -/
inductive Tail : Chain → Type where
  | nil {k : Chain} : Tail k
  | cons {k : Chain} (op : BinaryOperator) (hop : op ∈ k.operators) (item : Phrase k.item)
      (rest : Tail k) : Tail k

end

/-- The derivations of whole lines. -/
abbrev Sentence : Type := Phrase (.chain .sum)

mutual

/-- The tokens a phrase derives. -/
def Phrase.tokens {c : Category} : Phrase c → List Token
  | .number text => [.number text]
  | .identifier name => [.identifier name]
  | .group inner => .leftParen :: (inner.tokens ++ [.rightParen])
  | .call f argument => .function f :: .leftParen :: (argument.tokens ++ [.rightParen])
  | .post operand n => operand.tokens ++ List.replicate n (.operator .factorial)
  | .base operand => operand.tokens
  | .power base exponent => base.tokens ++ .operator .pow :: exponent.tokens
  | .neg operand => .operator .neg :: operand.tokens
  | .unsigned operand => operand.tokens
  | .chain first rest => first.tokens ++ rest.tokens

/-- The tokens a tail derives. -/
def Tail.tokens {k : Chain} : Tail k → List Token
  | .nil => []
  | .cons op _ item rest => .operator op.operator :: (item.tokens ++ rest.tokens)

end

mutual

/-- The tree of a phrase, which has no parentheses left. -/
def Phrase.expression {c : Category} : Phrase c → Expression
  | .number text => .number text
  | .identifier name => .identifier name
  | .group inner => inner.expression
  | .call f argument => .call f argument.expression
  | .post operand n => (Expression.unary .factorial)^[n] operand.expression
  | .base operand => operand.expression
  | .power base exponent => .binary .pow base.expression exponent.expression
  | .neg operand => .unary .neg operand.expression
  | .unsigned operand => operand.expression
  | .chain first rest => rest.expression first.expression

/-- The tree of a tail behind an expression: each operator takes all that stands
before it. -/
def Tail.expression {k : Chain} : Tail k → Expression → Expression
  | .nil, left => left
  | .cons op _ item rest, left => rest.expression (.binary op left item.expression)

end

/-! ## What ends a phrase -/

/-- The weakest operator of a chain. -/
def Chain.level : Chain → Nat
  | sum => 1
  | product => 2

/-- The weakest operator that can stand in a phrase outside parentheses. -/
def Category.level : Category → Nat
  | chain k => k.level
  | unary | power => 3
  | post => 5
  | atom => 6

theorem Chain.mem_operators_iff {k : Chain} {op : BinaryOperator} :
    op ∈ k.operators ↔ op.operator.precedence = k.level := by
  cases k <;> cases op <;> decide

theorem Chain.level_item (k : Chain) : k.item.level = k.level + 1 := by
  cases k <;> rfl

/-- No operator of this strength or stronger comes next. -/
def Ends (level : Nat) (ts : List Token) : Prop :=
  ∀ op us, ts = .operator op :: us → op.precedence < level

theorem ends_operator {level : Nat} {op : Operator} {ts : List Token} :
    Ends level (.operator op :: ts) ↔ op.precedence < level := by
  constructor
  · intro h; exact h op ts rfl
  · rintro h _ _ ⟨⟩; exact h

theorem ends_nil (level : Nat) : Ends level [] := by
  rintro op us ⟨⟩

theorem ends_rightParen (level : Nat) (ts : List Token) : Ends level (.rightParen :: ts) := by
  rintro op us ⟨⟩

theorem Ends.mono {m n : Nat} {ts : List Token} (h : Ends m ts) (hmn : m ≤ n) : Ends n ts :=
  fun op us hts => Nat.lt_of_lt_of_le (h op us hts) hmn

theorem ends_atom (ts : List Token) : Ends Category.atom.level ts := by
  rintro op us -
  cases op <;> decide

/-! ## A line has one derivation -/

theorem Phrase.atom_ne_neg (p : Phrase .atom) (us ts : List Token) :
    p.tokens ++ us ≠ .operator .neg :: ts := by
  cases p <;> simp [tokens]

theorem Phrase.power_ne_neg (p : Phrase .power) (us ts : List Token) :
    p.tokens ++ us ≠ .operator .neg :: ts := by
  cases p with
  | base operand =>
    cases operand with
    | post operand n =>
      rw [tokens, tokens, List.append_assoc]
      exact operand.atom_ne_neg _ ts
  | power base exponent =>
    cases base with
    | post operand n =>
      rw [tokens, tokens, List.append_assoc, List.append_assoc]
      exact operand.atom_ne_neg _ ts

/-- How many factorials stand in front of something else can be read off. -/
theorem replicate_append_inj {m n : Nat} {us vs : List Token} (hus : Ends Category.post.level us)
    (hvs : Ends Category.post.level vs)
    (h : List.replicate m (.operator .factorial) ++ us =
      List.replicate n (.operator .factorial) ++ vs) : m = n ∧ us = vs := by
  induction m generalizing n with
  | zero =>
    cases n with
    | zero => exact ⟨rfl, h⟩
    | succ n => exact absurd (hus _ _ h) (by decide)
  | succ m ih =>
    cases n with
    | zero => exact absurd (hvs _ _ h.symm) (by decide)
    | succ n =>
      obtain ⟨rfl, rest⟩ := ih (List.cons.inj h).2
      exact ⟨rfl, rest⟩

/-- Where a chain ends, its items end as well. -/
theorem Tail.ends_append {k : Chain} (rest : Tail k) {ts : List Token} (h : Ends k.level ts) :
    Ends k.item.level (rest.tokens ++ ts) := by
  rw [Chain.level_item]
  cases rest with
  | nil => exact h.mono (Nat.le_succ _)
  | cons op hop item rest =>
    rw [tokens, List.cons_append, ends_operator, Chain.mem_operators_iff.1 hop]
    exact Nat.lt_succ_self _

mutual

/-- In front of what ends both, two phrases of a category are the same. -/
theorem Phrase.append_inj : ∀ {c : Category} (p q : Phrase c) {us vs : List Token},
    Ends c.level us → Ends c.level vs → p.tokens ++ us = q.tokens ++ vs → p = q ∧ us = vs
  | _, .number text, q, us, vs, hus, hvs, h => by
    cases q with
    | number => simpa [Phrase.tokens] using h
    | _ => simp [Phrase.tokens] at h
  | _, .identifier name, q, us, vs, hus, hvs, h => by
    cases q with
    | identifier => simpa [Phrase.tokens] using h
    | _ => simp [Phrase.tokens] at h
  | _, .group inner, q, us, vs, hus, hvs, h => by
    cases q with
    | group inner' =>
      simp only [Phrase.tokens, List.cons_append, List.append_assoc, List.nil_append,
        List.cons.injEq, true_and] at h
      obtain ⟨rfl, rest⟩ := inner.append_inj inner' (ends_rightParen _ _) (ends_rightParen _ _) h
      exact ⟨rfl, (List.cons.inj rest).2⟩
    | _ => simp [Phrase.tokens] at h
  | _, .call f argument, q, us, vs, hus, hvs, h => by
    cases q with
    | call f' argument' =>
      simp only [Phrase.tokens, List.cons_append, List.append_assoc, List.nil_append,
        List.cons.injEq, true_and] at h
      obtain ⟨hf, h⟩ := h
      obtain ⟨rfl, rest⟩ :=
        argument.append_inj argument' (ends_rightParen _ _) (ends_rightParen _ _) h
      exact ⟨by rw [Token.function.inj hf], (List.cons.inj rest).2⟩
    | _ => simp [Phrase.tokens] at h
  | _, .post operand m, q, us, vs, hus, hvs, h => by
    cases q with
    | post operand' n =>
      rw [Phrase.tokens, Phrase.tokens, List.append_assoc, List.append_assoc] at h
      obtain ⟨rfl, rest⟩ := operand.append_inj operand' (ends_atom _) (ends_atom _) h
      obtain ⟨rfl, behind⟩ := replicate_append_inj hus hvs rest
      exact ⟨rfl, behind⟩
  | _, .base operand, q, us, vs, hus, hvs, h => by
    have hus' : Ends Category.post.level us := hus.mono (by decide)
    have hvs' : Ends Category.post.level vs := hvs.mono (by decide)
    cases q with
    | base operand' =>
      obtain ⟨rfl, rest⟩ := operand.append_inj operand' hus' hvs' h
      exact ⟨rfl, rest⟩
    | power base exponent =>
      rw [Phrase.tokens, Phrase.tokens, List.append_assoc] at h
      obtain ⟨rfl, rest⟩ := operand.append_inj base hus' (ends_operator.2 (by decide)) h
      -- a power sign cannot come behind a phrase that ends there
      exact absurd (hus _ _ rest) (by decide)
  | _, .power base exponent, q, us, vs, hus, hvs, h => by
    cases q with
    | base operand =>
      rw [Phrase.tokens, Phrase.tokens, List.append_assoc] at h
      obtain ⟨rfl, rest⟩ :=
        base.append_inj operand (ends_operator.2 (by decide)) (hvs.mono (by decide)) h
      exact absurd (hvs _ _ rest.symm) (by decide)
    | power base' exponent' =>
      rw [Phrase.tokens, Phrase.tokens, List.append_assoc, List.append_assoc] at h
      obtain ⟨rfl, rest⟩ := base.append_inj base' (ends_operator.2 (by decide))
        (ends_operator.2 (by decide)) h
      obtain ⟨rfl, behind⟩ := exponent.append_inj exponent' hus hvs (List.cons.inj rest).2
      exact ⟨rfl, behind⟩
  | _, .neg operand, q, us, vs, hus, hvs, h => by
    cases q with
    | neg operand' =>
      obtain ⟨rfl, rest⟩ := operand.append_inj operand' hus hvs (List.cons.inj h).2
      exact ⟨rfl, rest⟩
    | unsigned operand' => exact absurd h.symm (operand'.power_ne_neg _ _)
  | _, .unsigned operand, q, us, vs, hus, hvs, h => by
    cases q with
    | neg operand' => exact absurd h (operand.power_ne_neg _ _)
    | unsigned operand' =>
      obtain ⟨rfl, rest⟩ := operand.append_inj operand' hus hvs h
      exact ⟨rfl, rest⟩
  | _, .chain first rest, q, us, vs, hus, hvs, h => by
    cases q with
    | chain first' rest' =>
      rw [Phrase.tokens, Phrase.tokens, List.append_assoc, List.append_assoc] at h
      -- the first item is followed by the tail, or by what follows the chain
      obtain ⟨rfl, htail⟩ :=
        first.append_inj first' (rest.ends_append hus) (rest'.ends_append hvs) h
      obtain ⟨rfl, behind⟩ := rest.append_inj rest' hus hvs htail
      exact ⟨rfl, behind⟩

/-- The same for tails. -/
theorem Tail.append_inj {k : Chain} (p q : Tail k) {us vs : List Token}
    (hus : Ends k.level us) (hvs : Ends k.level vs) (h : p.tokens ++ us = q.tokens ++ vs) :
    p = q ∧ us = vs := by
  match p, q with
  | .nil, .nil => exact ⟨rfl, h⟩
  | .nil, .cons op hop item rest =>
    have := hus _ _ h
    rw [Chain.mem_operators_iff.1 hop] at this
    exact absurd this (Nat.lt_irrefl _)
  | .cons op hop item rest, .nil =>
    have := hvs _ _ h.symm
    rw [Chain.mem_operators_iff.1 hop] at this
    exact absurd this (Nat.lt_irrefl _)
  | .cons op hop item rest, .cons op' hop' item' rest' =>
    rw [Tail.tokens, Tail.tokens, List.cons_append, List.cons_append, List.append_assoc,
      List.append_assoc] at h
    obtain ⟨hop, hitem⟩ := List.cons.inj h
    obtain rfl := BinaryOperator.operator_inj (Token.operator.inj hop)
    obtain ⟨rfl, htail⟩ :=
      item.append_inj item' (rest.ends_append hus) (rest'.ends_append hvs) hitem
    obtain ⟨rfl, behind⟩ := rest.append_inj rest' hus hvs htail
    exact ⟨rfl, behind⟩

end

theorem Phrase.tokens_inj {c : Category} {p q : Phrase c} (h : p.tokens = q.tokens) : p = q :=
  (p.append_inj q (ends_nil _) (ends_nil _) (congrArg (· ++ []) h)).1

end Abacus
