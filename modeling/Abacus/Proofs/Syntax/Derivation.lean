/-
Abacus.Proofs.Syntax.Derivation — balanced lists have a derivation.

Read from the left, a list that alternates and closes its parentheses begins
with a phrase wherever an operand is expected.  Behind the phrase comes an
operator that is too weak for it, a parenthesis that closes a group around it,
or nothing.
-/
import Abacus.Proofs.Postfix.Balance
import Abacus.Proofs.Syntax.Grammar
import Abacus.Proofs.Syntax.Shape

namespace Abacus

variable {caps : Capabilities}

/-- The list begins with a phrase of the category, and what is behind the phrase
ends it. -/
def Begins (caps : Capabilities) (c : Category) (n : Nat) (ts : List Token) : Prop :=
  ∃ (p : Phrase c) (rest : List Token), ts = p.tokens ++ rest ∧ Ends c.level rest ∧
    Alternates caps .operator rest ∧ Closes n rest

/-- Behind a token there is less than the whole. -/
theorem length_lt_append_cons (us : List Token) (t : Token) (vs : List Token) :
    vs.length < (us ++ t :: vs).length := by
  rw [List.length_append, List.length_cons]
  omega

/-- Only a closing parenthesis or the end comes where no operator may. -/
theorem eq_nil_or_rightParen {ts : List Token} (hends : Ends Chain.sum.level ts)
    (h : Alternates caps .operator ts) :
    ts = [] ∨ ∃ us, ts = .rightParen :: us ∧ Alternates caps .operator us := by
  cases h with
  | nil => exact .inl rfl
  | rightParen h => exact .inr ⟨_, rfl, h⟩
  | factorial => exact absurd (ends_operator.1 hends) (by decide)
  | @binary op =>
    have := ends_operator.1 hends
    cases op <;> exact absurd this (by decide)

/-- Behind a phrase in parentheses stands the closing one. -/
theorem Begins.group {n : Nat} {ts : List Token} (h : Begins caps (.chain .sum) (n + 1) ts) :
    ∃ (p : Sentence) (rest : List Token), ts = p.tokens ++ .rightParen :: rest ∧
      Alternates caps .operator rest ∧ Closes n rest := by
  obtain ⟨p, rest, rfl, hends, hrest, hcloses⟩ := h
  rcases eq_nil_or_rightParen hends hrest with rfl | ⟨us, rfl, hus⟩
  · cases hcloses
  · obtain ⟨m, hm, hcloses⟩ := hcloses
    cases hm
    exact ⟨p, us, rfl, hus, hcloses⟩

/-- The factorials that come next, up to something else. -/
theorem exists_factorials {n : Nat} {ts : List Token} (h : Alternates caps .operator ts)
    (hcloses : Closes n ts) :
    ∃ (count : Nat) (rest : List Token),
      ts = List.replicate count (.operator .factorial) ++ rest ∧
      Ends Category.post.level rest ∧ Alternates caps .operator rest ∧ Closes n rest := by
  induction ts with
  | nil => exact ⟨0, [], rfl, ends_nil _, h, hcloses⟩
  | cons t ts ih =>
    cases h with
    | rightParen h => exact ⟨0, _, rfl, ends_rightParen _ _, .rightParen h, hcloses⟩
    | factorial h =>
      obtain ⟨count, rest, rfl, hrest⟩ := ih h hcloses
      exact ⟨count + 1, rest, rfl, hrest⟩
    | @binary op _ hpow h =>
      refine ⟨0, _, rfl, ends_operator.2 ?_, .binary hpow h, hcloses⟩
      cases op <;> decide

theorem Begins.post {n : Nat} {ts : List Token} (h : Begins caps .atom n ts) :
    Begins caps .post n ts := by
  obtain ⟨p, rest, rfl, -, hrest, hcloses⟩ := h
  obtain ⟨count, rest, rfl, hbehind⟩ := exists_factorials hrest hcloses
  exact ⟨.post p count, rest, by rw [Phrase.tokens, List.append_assoc], hbehind⟩

/-- A power has an exponent behind its operator. -/
theorem Begins.power {n : Nat} {ts : List Token}
    (ih : ∀ us n, us.length < ts.length → Alternates caps .operand us → Closes n us →
      Begins caps .unary n us)
    (h : Begins caps .post n ts) : Begins caps .power n ts := by
  obtain ⟨p, rest, rfl, hends, hrest, hcloses⟩ := h
  cases hrest with
  | nil => exact ⟨.base p, [], rfl, ends_nil _, .nil, hcloses⟩
  | rightParen hrest =>
    exact ⟨.base p, _, rfl, ends_rightParen _ _, .rightParen hrest, hcloses⟩
  | factorial => exact absurd (ends_operator.1 hends) (by decide)
  | @binary op us hpow hrest =>
    by_cases hop : op = .pow
    · subst hop
      have hlength := length_lt_append_cons p.tokens (.operator .pow) us
      obtain ⟨q, rest, rfl, hbehind⟩ := ih us n hlength hrest hcloses
      exact ⟨.power p q, rest, by rw [Phrase.tokens, List.append_assoc]; rfl, hbehind⟩
    · refine ⟨.base p, _, rfl, ends_operator.2 ?_, .binary hpow hrest, hcloses⟩
      cases op with
      | pow => exact absurd rfl hop
      | _ => decide

theorem Begins.unary {n : Nat} {ts : List Token} (h : Begins caps .power n ts) :
    Begins caps .unary n ts := by
  obtain ⟨p, rest, rfl, hbehind⟩ := h
  exact ⟨.unsigned p, rest, rfl, hbehind⟩

/-- A chain goes on as long as one of its operators comes next. -/
theorem Begins.chain {k : Chain} {n : Nat} {ts : List Token}
    (ih : ∀ us n, us.length < ts.length → Alternates caps .operand us → Closes n us →
      Begins caps (.chain k) n us)
    (h : Begins caps k.item n ts) : Begins caps (.chain k) n ts := by
  obtain ⟨p, rest, rfl, hends, hrest, hcloses⟩ := h
  have last (hend : Ends k.level rest) : Begins caps (.chain k) n (p.tokens ++ rest) :=
    ⟨.chain p .nil, rest, by rw [Phrase.tokens, Tail.tokens, List.append_nil], hend, hrest, hcloses⟩
  cases hrest with
  | nil => exact last (ends_nil _)
  | rightParen => exact last (ends_rightParen _ _)
  | factorial =>
    rw [ends_operator, Chain.level_item] at hends
    cases k <;> exact absurd hends (by decide)
  | @binary op us hpow hrest =>
    by_cases hop : op ∈ k.operators
    · have hlength := length_lt_append_cons p.tokens (.operator op.operator) us
      obtain ⟨q, rest, rfl, hbehind⟩ := ih us n hlength hrest hcloses
      cases q with
      | chain first tail =>
        refine ⟨.chain p (.cons op hop first tail), rest, ?_, hbehind⟩
        rw [Phrase.tokens, Phrase.tokens, Tail.tokens]
        simp only [List.append_assoc, List.cons_append]
    · refine last (ends_operator.2 ?_)
      rw [ends_operator, Chain.level_item] at hends
      rw [Chain.mem_operators_iff] at hop
      omega

/-- Where an operand is expected, a balanced list begins with one. -/
theorem begins_of_alternates {n : Nat} {ts : List Token} (h : Alternates caps .operand ts)
    (hcloses : Closes n ts) : Begins caps .unary n ts ∧ ∀ k, Begins caps (.chain k) n ts := by
  -- what is in parentheses, or behind an operator, is shorter
  induction hlength : ts.length using Nat.strong_induction_on generalizing n ts with
  | _ length ih =>
    subst hlength
    have unary_of_atom (h : Begins caps .atom n ts) : Begins caps .unary n ts :=
      (h.post.power fun us m hus hu hm => (ih us.length hus hu hm rfl).1).unary
    have hunary : Begins caps .unary n ts := by
      cases h with
      | @leftParen us h =>
        obtain ⟨p, rest, rfl, hrest⟩ := ((ih _ (Nat.lt_succ_self _) h hcloses rfl).2 .sum).group
        exact unary_of_atom ⟨.group p, rest, by simp [Phrase.tokens], ends_atom _, hrest⟩
      | @neg t us _ h =>
        obtain ⟨p, rest, hp, hrest⟩ := (ih _ (Nat.lt_succ_self _) h hcloses rfl).1
        exact ⟨.neg p, rest, by rw [hp]; rfl, hrest⟩
      | @function f us _ h =>
        cases h with
        | leftParen h =>
          have hlength := length_lt_append_cons [.function f] .leftParen us
          obtain ⟨p, rest, rfl, hrest⟩ := ((ih _ hlength h hcloses rfl).2 .sum).group
          exact unary_of_atom ⟨.call f p, rest, by simp [Phrase.tokens], ends_atom _, hrest⟩
      | @number text us _ h =>
        exact unary_of_atom ⟨.number text, us, rfl, ends_atom _, h, hcloses⟩
      | @identifier name us _ h =>
        exact unary_of_atom ⟨.identifier name, us, rfl, ends_atom _, h, hcloses⟩
    have chain_of_item {k : Chain} (h : Begins caps k.item n ts) : Begins caps (.chain k) n ts :=
      h.chain fun us m hus hu hm => (ih us.length hus hu hm rfl).2 k
    refine ⟨hunary, fun k => ?_⟩
    cases k with
    | product => exact chain_of_item hunary
    | sum => exact chain_of_item (chain_of_item hunary)

/-- The balanced lists of this shape are the derivations of whole lines. -/
theorem exists_sentence_of_closes {ts : List Token} (h : Alternates caps .operand ts)
    (hcloses : Closes 0 ts) : ∃ p : Sentence, p.tokens = ts := by
  obtain ⟨p, rest, rfl, hends, hrest, hcloses⟩ := (begins_of_alternates h hcloses).2 .sum
  rcases eq_nil_or_rightParen hends hrest with rfl | ⟨us, rfl, -⟩
  · exact ⟨p, (List.append_nil _).symm⟩
  · obtain ⟨m, hm, -⟩ := hcloses
    cases hm

end Abacus
