/-
Abacus.Proofs.Postfix.Precedence — the conversion follows the grammar.

While a phrase is read, the operators of it that still wait lie on top of what
waited before, the weakest at the bottom: they are the end of its postfix
order, and the output is the rest of it (`Holds`).  What waited before must
not be sent on by an operator of the phrase (`Fits`).
-/
import Abacus.Proofs.Postfix.Frame
import Abacus.Proofs.Syntax.Derivation

namespace Abacus

namespace Postfix.State

/-! ## The invariant -/

/-- The state `s'` is `s` with an expression read: part of its postfix order has
gone out, and the operators that end it wait, none weaker than the level. -/
def Holds (s : State) (e : Expression) (level : Nat) (s' : State) : Prop :=
  ∃ (out : List Token) (ops : List Operator),
    s' = ⟨out ++ s.output, ops.map .operator ++ s.pending⟩ ∧
    out.reverse ++ ops.map .operator = e.postorder ∧
    ∀ op ∈ ops, level ≤ op.precedence

/-- Nothing waits on top but a parenthesis or an operator weaker than the floor. -/
def Fits (floor : Nat) : List Pending → Prop
  | .operator top :: _ => top.precedence < floor
  | .function _ :: _ => False
  | _ => True

/-- An operand that is read as a whole. -/
theorem holds_output (s : State) (e : Expression) (level : Nat) :
    Holds s e level ⟨e.postorder.reverse ++ s.output, s.pending⟩ :=
  ⟨e.postorder.reverse, [], rfl, by simp, by simp⟩

theorem Holds.mono {s s' : State} {e : Expression} {m n : Nat} (h : Holds s e n s')
    (hmn : m ≤ n) : Holds s e m s' := by
  obtain ⟨out, ops, hs, he, hops⟩ := h
  exact ⟨out, ops, hs, he, fun op hop => Nat.le_trans hmn (hops op hop)⟩

/-- An operator waits below what is read behind it. -/
theorem Holds.push {s s' : State} {d e : Expression} {op : Operator} {out : List Token} {m n : Nat}
    (h : Holds ⟨out ++ s.output, .operator op :: s.pending⟩ d n s')
    (he : e.postorder = out.reverse ++ d.postorder ++ [.operator op])
    (hop : m ≤ op.precedence) (hmn : m ≤ n) : Holds s e m s' := by
  obtain ⟨out', ops, rfl, hd, hops⟩ := h
  refine ⟨out' ++ out, ops ++ [op], by simp, ?_, ?_⟩
  · rw [he, ← hd]
    simp
  · intro o ho
    rcases List.mem_append.1 ho with ho | ho
    · exact Nat.le_trans hmn (hops o ho)
    · obtain rfl := List.mem_singleton.1 ho
      exact hop

/-- Behind its left operand an operator waits for its right one. -/
theorem Holds.binary {s s' : State} {l r : Expression} {op : BinaryOperator} {m n : Nat}
    (h : Holds ⟨l.postorder.reverse ++ s.output, .operator op.operator :: s.pending⟩ r n s')
    (hop : m ≤ op.operator.precedence) (hmn : m ≤ n) : Holds s (.binary op l r) m s' :=
  h.push (by rw [List.reverse_reverse]; rfl) hop hmn

/-- A minus sign waits for its operand. -/
theorem Holds.neg {s s' : State} {e : Expression} {n : Nat}
    (h : Holds ⟨s.output, .operator .neg :: s.pending⟩ e n s')
    (hn : Operator.neg.precedence ≤ n) : Holds s (.unary .neg e) Operator.neg.precedence s' := by
  have h : Holds ⟨[] ++ s.output, .operator .neg :: s.pending⟩ e n s' := h
  exact h.push rfl (Nat.le_refl _) hn

/-! ## What the steps do -/

/-- An operator sends on what it yields to, down to what it does not. -/
theorem release_operators {op : Operator} {floor : Nat} {ops : List Operator}
    {pending : List Pending} (output : List Token) (hops : ∀ o ∈ ops, op.yieldsTo o = true)
    (hfits : Fits floor pending) (hfloor : ∀ o, o.precedence < floor → op.yieldsTo o = false) :
    release op output (ops.map .operator ++ pending) =
      ⟨(ops.map .operator).reverse ++ output, pending⟩ := by
  induction ops generalizing output with
  | nil =>
    cases pending with
    | nil => rfl
    | cons top pending =>
      cases top with
      | operator top =>
        rw [List.map_nil, List.nil_append, release, hfloor top hfits]
        rfl
      | _ => rfl
  | cons o ops ih =>
    rw [List.map_cons, List.cons_append, release, hops o List.mem_cons_self, if_pos rfl,
      ih _ fun o ho => hops o (List.mem_cons_of_mem _ ho)]
    simp

/-- An operator behind an operand that it yields to as a whole. -/
theorem Holds.step_operator {s s' : State} {e : Expression} {op : Operator} {level floor : Nat}
    (h : Holds s e level s') (hop : op.isPrefix = false) (hfits : Fits floor s.pending)
    (hlevel : ∀ o, level ≤ o.precedence → op.yieldsTo o = true)
    (hfloor : ∀ o, o.precedence < floor → op.yieldsTo o = false) :
    step s' (.operator op) =
      .ok ⟨e.postorder.reverse ++ s.output, .operator op :: s.pending⟩ := by
  obtain ⟨out, ops, rfl, he, hops⟩ := h
  rw [step, pushOperator, hop]
  dsimp only
  rw [if_neg Bool.false_ne_true,
    release_operators _ (fun o ho => hlevel o (hops o ho)) hfits hfloor, ← he]
  simp

/-- A power sends on nothing but factorials. -/
theorem Holds.step_pow {s s' : State} {e : Expression}
    (h : Holds s e Operator.factorial.precedence s')
    (hfits : Fits Operator.factorial.precedence s.pending) :
    step s' (.operator .pow) =
      .ok ⟨e.postorder.reverse ++ s.output, .operator .pow :: s.pending⟩ := by
  refine h.step_operator rfl hfits ?_ ?_
  · intro o; cases o <;> decide
  · intro o; cases o <;> decide

/-- A factorial behind its operand. -/
theorem Holds.step_factorial {s s' : State} {e : Expression}
    (h : Holds s e Operator.factorial.precedence s')
    (hfits : Fits Operator.factorial.precedence s.pending) :
    ∃ s'', step s' (.operator .factorial) = .ok s'' ∧
      Holds s (.unary .factorial e) Operator.factorial.precedence s'' := by
  refine ⟨_, h.step_operator rfl hfits ?_ ?_, e.postorder.reverse, [.factorial], rfl, ?_, ?_⟩
  · intro o; cases o <;> decide
  · intro o; cases o <;> decide
  · rw [List.reverse_reverse]
    rfl
  · intro o ho
    obtain rfl := List.mem_singleton.1 ho
    exact Nat.le_refl _

theorem Holds.foldlM_factorials {s s' : State} {e : Expression}
    (h : Holds s e Operator.factorial.precedence s')
    (hfits : Fits Operator.factorial.precedence s.pending) (n : Nat) :
    ∃ s'', (List.replicate n (.operator .factorial)).foldlM step s' = .ok s'' ∧
      Holds s ((Expression.unary .factorial)^[n] e) Operator.factorial.precedence s'' := by
  induction n generalizing e s' with
  | zero => exact ⟨s', rfl, h⟩
  | succ n ih =>
    obtain ⟨s₁, hstep, h₁⟩ := h.step_factorial hfits
    obtain ⟨s₂, hrun, h₂⟩ := ih h₁
    refine ⟨s₂, ?_, h₂⟩
    rw [List.replicate_succ, foldlM_cons_of_ok hstep, hrun]

/-- Closing a group first sends on the operators in it. -/
theorem closeGroup_operators (ops : List Operator) (output : List Token)
    (pending : List Pending) :
    closeGroup output (ops.map .operator ++ pending) =
      closeGroup ((ops.map .operator).reverse ++ output) pending := by
  induction ops generalizing output with
  | nil => rfl
  | cons op ops ih =>
    rw [List.map_cons, List.cons_append, closeGroup]
    · rw [ih]
      simp [Pending.token]
    all_goals simp

theorem Holds.step_rightParen {s s' : State} {e : Expression} {level : Nat}
    (h : Holds ⟨s.output, .leftParen :: s.pending⟩ e level s') :
    step s' .rightParen =
      closeGroup (e.postorder.reverse ++ s.output) (.leftParen :: s.pending) := by
  obtain ⟨out, ops, rfl, he, -⟩ := h
  rw [step, closeGroup_operators, ← he]
  simp

theorem closeGroup_of_fits {floor : Nat} {pending : List Pending} (output : List Token)
    (h : Fits floor pending) :
    closeGroup output (.leftParen :: pending) = .ok ⟨output, pending⟩ := by
  refine closeGroup_of_ne_function output fun f hf => ?_
  obtain ⟨rest, rfl⟩ := List.head?_eq_some_iff.1 hf
  exact h.elim

theorem finish_operators (ops : List Operator) (output : List Token) :
    finish output (ops.map .operator) = .ok (output.reverse ++ ops.map .operator) := by
  induction ops generalizing output with
  | nil => rw [List.map_nil, finish, List.map_nil, List.append_nil]
  | cons op ops ih =>
    rw [List.map_cons, finish, ih]
    · simp [Pending.token]
    · simp

theorem Holds.finish {e : Expression} {level : Nat} {s : State} (h : Holds .initial e level s) :
    finish s.output s.pending = .ok e.postorder := by
  obtain ⟨out, ops, rfl, he, -⟩ := h
  simp only [initial, List.append_nil]
  rw [finish_operators, he]

/-! ## Phrases are read -/

end Postfix.State

open Postfix.State

/-- What waits in front of a phrase must be weaker than this. -/
def Category.floor : Category → Nat
  | chain k => k.level
  | unary | power | post | atom => 5

/-- In front of an item may stand an operator of the chain. -/
theorem Chain.level_lt_floor_item (k : Chain) : k.level < k.item.floor := by
  cases k <;> decide

theorem Postfix.State.Fits.mono {m n : Nat} {pending : List Postfix.Pending} (h : Fits m pending)
    (hmn : m ≤ n) : Fits n pending := by
  cases pending with
  | nil => trivial
  | cons top pending =>
    cases top with
    | operator top => exact Nat.lt_of_lt_of_le h hmn
    | _ => exact h

/-- A chain sends on all of its own strength. -/
theorem Postfix.State.Holds.step_chain {k : Chain} {op : BinaryOperator} {s s' : Postfix.State}
    {e : Expression} (h : Holds s e k.level s') (hop : op ∈ k.operators)
    (hfits : Fits k.level s.pending) :
    step s' (.operator op.operator) =
      .ok ⟨e.postorder.reverse ++ s.output, .operator op.operator :: s.pending⟩ := by
  have hlevel := Chain.mem_operators_iff.1 hop
  have hleft : op.operator.isRightAssociative = false ∧ op.operator.isPrefix = false := by
    cases k <;> cases op <;> first | decide | cases hlevel
  refine h.step_operator hleft.2 hfits ?_ ?_ <;> intro o ho
  · simpa [Operator.yieldsTo, hleft.1, hlevel] using ho
  · simpa [Operator.yieldsTo, hleft.1, hlevel] using ho

mutual

/-- Where it fits, a phrase is read as its expression.  The recursion is on the
derivation; every rule is one step of the invariant for each of its tokens. -/
theorem Phrase.reads : ∀ {c : Category} (p : Phrase c) {s : Postfix.State},
    Fits c.floor s.pending →
    ∃ s', p.tokens.foldlM step s = .ok s' ∧ Holds s p.expression c.level s'
  | _, .number text, s, _ => ⟨_, rfl, holds_output s (.number text) _⟩
  | _, .identifier name, s, _ => ⟨_, rfl, holds_output s (.identifier name) _⟩
  | _, .group inner, s, hfits => by
    obtain ⟨s₁, hinner, h₁⟩ := inner.reads (s := ⟨s.output, .leftParen :: s.pending⟩) trivial
    refine ⟨_, ?_, holds_output s inner.expression _⟩
    -- no function waits below the parenthesis, so the group leaves nothing behind
    rw [Phrase.tokens, foldlM_cons_of_ok rfl, foldlM_append_of_ok hinner,
      foldlM_cons_of_ok (h₁.step_rightParen.trans (closeGroup_of_fits _ hfits))]
    rfl
  | _, .call f argument, s, _ => by
    obtain ⟨s₁, hargument, h₁⟩ :=
      argument.reads (s := ⟨s.output, .leftParen :: .function f :: s.pending⟩) trivial
    have hclose : step s₁ .rightParen =
        .ok ⟨.function f :: (argument.expression.postorder.reverse ++ s.output), s.pending⟩ :=
      Holds.step_rightParen (s := ⟨s.output, .function f :: s.pending⟩) h₁
    refine ⟨_, ?_, holds_output s (.call f argument.expression) _⟩
    rw [Phrase.tokens, foldlM_cons_of_ok rfl, foldlM_cons_of_ok rfl,
      foldlM_append_of_ok hargument, foldlM_cons_of_ok hclose, Expression.postorder,
      List.reverse_append]
    rfl
  | _, .post operand n, s, hfits => by
    obtain ⟨s₁, hoperand, h₁⟩ := operand.reads hfits
    obtain ⟨s₂, hfactorials, h₂⟩ := (h₁.mono (by decide)).foldlM_factorials hfits n
    refine ⟨s₂, ?_, h₂⟩
    rw [Phrase.tokens, foldlM_append_of_ok hoperand, hfactorials]
  | _, .base operand, s, hfits => by
    obtain ⟨s₁, hoperand, h₁⟩ := operand.reads hfits
    exact ⟨s₁, hoperand, h₁.mono (by decide)⟩
  | _, .power base exponent, s, hfits => by
    obtain ⟨s₁, hbase, h₁⟩ := base.reads hfits
    -- a power in the exponent does not send this one on: it groups from the right
    have hfits' : Fits Category.unary.floor
        (.operator BinaryOperator.pow.operator :: s.pending) :=
      show Operator.pow.precedence < Category.unary.floor by decide
    obtain ⟨s₂, hexponent, h₂⟩ :=
      exponent.reads (s := ⟨base.expression.postorder.reverse ++ s.output, _⟩) hfits'
    refine ⟨s₂, ?_, h₂.binary (by decide) (Nat.le_refl _)⟩
    rw [Phrase.tokens, foldlM_append_of_ok hbase, foldlM_cons_of_ok (h₁.step_pow hfits)]
    exact hexponent
  | _, .neg operand, s, _ => by
    have hfits : Fits Category.unary.floor (.operator .neg :: s.pending) :=
      show Operator.neg.precedence < Category.unary.floor by decide
    obtain ⟨s₁, hoperand, h₁⟩ := operand.reads (s := ⟨s.output, _⟩) hfits
    refine ⟨s₁, ?_, h₁.neg (Nat.le_refl _)⟩
    rw [Phrase.tokens, foldlM_cons_of_ok rfl, ← hoperand]
    rfl
  | _, .unsigned operand, s, hfits => operand.reads hfits
  | _, .chain (k := k) first rest, s, hfits => by
    obtain ⟨s₁, hfirst, h₁⟩ := first.reads (hfits.mono (Nat.le_of_lt k.level_lt_floor_item))
    rw [Chain.level_item] at h₁
    obtain ⟨s₂, hrest, h₂⟩ := rest.reads hfits (h₁.mono (Nat.le_succ _))
    refine ⟨s₂, ?_, h₂⟩
    rw [Phrase.tokens, foldlM_append_of_ok hfirst, hrest]

/-- Behind an expression, so is a tail. -/
theorem Tail.reads : ∀ {k : Chain} (rest : Tail k) {s s₁ : Postfix.State} {left : Expression},
    Fits k.level s.pending → Holds s left k.level s₁ →
    ∃ s', rest.tokens.foldlM step s₁ = .ok s' ∧ Holds s (rest.expression left) k.level s'
  | _, .nil, _, s₁, _, _, h₁ => ⟨s₁, rfl, h₁⟩
  | k, .cons op hop item rest, s, s₁, left, hfits, h₁ => by
    have hlevel := Chain.mem_operators_iff.1 hop
    obtain ⟨s₂, hitem, h₂⟩ := item.reads
      (s := ⟨left.postorder.reverse ++ s.output, .operator op.operator :: s.pending⟩)
      (Nat.lt_of_le_of_lt (Nat.le_of_eq hlevel) k.level_lt_floor_item)
    -- what is read so far is the left operand of the next operator
    have hbinary := h₂.binary (Nat.le_of_eq hlevel.symm)
      (Nat.le_trans (Nat.le_succ _) (Nat.le_of_eq k.level_item.symm))
    obtain ⟨s₃, hrest, h₃⟩ := rest.reads hfits hbinary
    refine ⟨s₃, ?_, h₃⟩
    rw [Tail.tokens, foldlM_cons_of_ok (h₁.step_chain hop hfits), foldlM_append_of_ok hitem, hrest]

end

/-- A line comes out in the postfix order of its tree. -/
theorem toPostfix_tokens (p : Sentence) : toPostfix p.tokens = .ok p.expression.postorder := by
  obtain ⟨s, hrun, hs⟩ := p.reads (s := .initial) trivial
  rw [toPostfix, hrun]
  exact hs.finish

theorem exists_toPostfix_iff_exists_sentence {caps : Capabilities} {ts : List Token}
    (h : Alternates caps .operand ts) :
    (∃ out, toPostfix ts = .ok out) ↔ ∃ p : Sentence, p.tokens = ts := by
  constructor
  · intro hok
    exact exists_sentence_of_closes h ((exists_toPostfix_iff_closes ts).1 hok)
  · rintro ⟨p, rfl⟩
    exact ⟨_, toPostfix_tokens p⟩

/-- The conversion of a line that was cut into tokens succeeds if and only if the
grammar derives the tokens; the derivation is then the only one, and the result
is the postfix order of its tree. -/
theorem toPostfix_follows_grammar {caps : Capabilities} {line : String} {ts : List Token}
    (h : tokenize caps line = .ok ts) :
    ((∃ out, toPostfix ts = .ok out) ↔ ∃ p : Sentence, p.tokens = ts) ∧
    ∀ p : Sentence, p.tokens = ts →
      (∀ q : Sentence, q.tokens = ts → q = p) ∧ toPostfix ts = .ok p.expression.postorder := by
  refine ⟨exists_toPostfix_iff_exists_sentence (alternates_of_tokenize h), ?_⟩
  rintro p rfl
  exact ⟨fun q hq => Phrase.tokens_inj hq, toPostfix_tokens p⟩

/-- A minus sign takes the power behind it, also in an exponent. -/
theorem toPostfix_signed_exponent :
    ∃ ts, tokenize .all "2^-x^2*3" = .ok ts ∧ ∃ p : Sentence, p.tokens = ts ∧
      (∀ q : Sentence, q.tokens = ts → q = p) ∧ toPostfix ts = .ok p.expression.postorder := by
  have h : tokenize .all "2^-x^2*3" = .ok [.number "2", .operator .pow, .operator .neg,
      .identifier "x", .operator .pow, .number "2", .operator .mul, .number "3"] := by
    decide +kernel
  obtain ⟨hiff, hall⟩ := toPostfix_follows_grammar h
  obtain ⟨p, hp⟩ := hiff.1 ⟨_, rfl⟩
  exact ⟨_, h, p, hp, hall p hp⟩

end Abacus
