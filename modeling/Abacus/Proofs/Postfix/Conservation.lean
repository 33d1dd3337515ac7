/-
Abacus.Proofs.Postfix.Conservation — the conversion keeps every token.

At any time the tokens read so far are those in the output together with
those that wait.  Parentheses are dropped, nothing else is, and nothing is
added.  What waits is never an operand, so the operands go out in the order in
which they are read.
-/
import Abacus.Postfix
import Abacus.Proofs.Outcome
import Abacus.Proofs.Syntax.Shape
import Mathlib

namespace Abacus

/-- Parentheses only group. -/
def Token.isParenthesis : Token → Bool
  | leftParen | rightParen => true
  | _ => false

/-- A list without its parentheses. -/
def withoutParentheses (ts : List Token) : List Token :=
  ts.filter fun t => !t.isParenthesis

theorem withoutParentheses_cons (t : Token) (ts : List Token) :
    withoutParentheses (t :: ts) = withoutParentheses [t] ++ withoutParentheses ts := by
  simp [withoutParentheses, ← List.filter_append]

namespace Postfix.State

/-- The tokens that a state has read, parentheses aside. -/
def contents (output : List Token) (pending : List Pending) : List Token :=
  output ++ withoutParentheses (pending.map Pending.token)

/-- Sending on what waits changes nothing. -/
theorem contents_send (t : Pending) (ht : t ≠ .leftParen) (output : List Token)
    (pending : List Pending) :
    (contents (t.token :: output) pending).Perm (contents output (t :: pending)) := by
  rw [contents, contents, List.map_cons, withoutParentheses_cons]
  cases t with
  | leftParen => exact absurd rfl ht
  | _ => exact List.perm_middle.symm

theorem contents_leftParen (output : List Token) (pending : List Pending) :
    contents output (.leftParen :: pending) = contents output pending := rfl

theorem release_contents (op : Operator) (output : List Token) (pending : List Pending) :
    (contents (release op output pending).output (release op output pending).pending).Perm
      (contents output pending) := by
  induction pending generalizing output with
  | nil => exact .refl _
  | cons top pending ih =>
    cases top with
    | operator top =>
      rw [release]
      split
      · exact (ih _).trans (contents_send (.operator top) (by simp) output pending)
      · exact .refl _
    | _ => exact .refl _

theorem pushOperator_contents (s : State) (op : Operator) :
    (contents (s.pushOperator op).output (s.pushOperator op).pending).Perm
      (.operator op :: contents s.output s.pending) := by
  have push (s : State) : (contents s.output (.operator op :: s.pending)).Perm
      (.operator op :: contents s.output s.pending) :=
    (contents_send (.operator op) (by simp) s.output s.pending).symm
  unfold pushOperator
  split
  · exact push s
  · exact (push _).trans ((release_contents op s.output s.pending).cons _)

theorem closeGroup_contents {output : List Token} {pending : List Pending} {s : State}
    (h : closeGroup output pending = .ok s) :
    (contents s.output s.pending).Perm (contents output pending) := by
  induction pending generalizing output with
  | nil => cases h
  | cons top pending ih =>
    cases top with
    | operator op => exact (ih h).trans (contents_send (.operator op) (by simp) output pending)
    | function f => exact (ih h).trans (contents_send (.function f) (by simp) output pending)
    | leftParen =>
      rw [contents_leftParen]
      cases pending with
      | nil => cases h; exact .refl _
      | cons below pending =>
        cases below with
        | function f => cases h; exact contents_send (.function f) (by simp) output pending
        | _ => cases h; exact .refl _

theorem step_contents {s s' : State} {t : Token} (h : step s t = .ok s') :
    (contents s'.output s'.pending).Perm
      (withoutParentheses [t] ++ contents s.output s.pending) := by
  cases t with
  | number text => cases h; exact .refl _
  | identifier name => cases h; exact .refl _
  | operator op => cases h; exact pushOperator_contents s op
  | function f => cases h; exact (contents_send (.function f) (by simp) s.output s.pending).symm
  | leftParen => cases h; exact .refl _
  | rightParen => exact closeGroup_contents h

theorem foldlM_contents {ts : List Token} {s s' : State} (h : ts.foldlM step s = .ok s') :
    (contents s'.output s'.pending).Perm
      (withoutParentheses ts ++ contents s.output s.pending) := by
  induction ts generalizing s with
  | nil => cases h; exact .refl _
  | cons t ts ih =>
    rw [List.foldlM_cons, bind_eq_ok_iff] at h
    obtain ⟨s₁, hstep, hrest⟩ := h
    have := (ih hrest).trans ((step_contents hstep).append_left _)
    rw [withoutParentheses_cons]
    refine this.trans ?_
    rw [← List.append_assoc]
    exact List.perm_append_comm.append_right _

theorem finish_contents {output out : List Token} {pending : List Pending}
    (h : finish output pending = .ok out) : out.Perm (contents output pending) := by
  induction pending generalizing output with
  | nil =>
    cases h
    rw [contents, List.map_nil, withoutParentheses, List.filter_nil, List.append_nil]
    exact List.reverse_perm output
  | cons top pending ih =>
    cases top with
    | operator op => exact (ih h).trans (contents_send (.operator op) (by simp) output pending)
    | function f => exact (ih h).trans (contents_send (.function f) (by simp) output pending)
    | leftParen => cases h

end Postfix.State

theorem perm_of_toPostfix {ts out : List Token} (h : toPostfix ts = .ok out) :
    out.Perm (withoutParentheses ts) := by
  obtain ⟨s, hrun, hfinish⟩ := bind_eq_ok_iff.1 h
  have := (Postfix.State.finish_contents hfinish).trans (Postfix.State.foldlM_contents hrun)
  simpa [Postfix.State.contents, Postfix.State.initial, withoutParentheses] using this

/-- Every token of the result was read. -/
theorem mem_of_toPostfix {ts out : List Token} (h : toPostfix ts = .ok out) {t : Token}
    (ht : t ∈ out) : t ∈ ts :=
  List.mem_of_mem_filter ((perm_of_toPostfix h).subset ht)

/-- The postfix list of a line has only what the lexer lets through. -/
theorem admissible_of_toPostfix {caps : Capabilities} {line : String} {ts out : List Token}
    (hts : tokenize caps line = .ok ts) (h : toPostfix ts = .ok out) :
    ∀ t ∈ out, t.Admissible caps :=
  fun t ht => (alternates_of_tokenize hts).admissible t (mem_of_toPostfix h ht)

/-! ## The order of the operands -/

/-- Numbers and variables are what is computed with. -/
def Token.isOperand : Token → Bool
  | number _ | identifier _ => true
  | _ => false

/-- The numbers and variables of a list, in order. -/
def operands (ts : List Token) : List Token :=
  ts.filter Token.isOperand

theorem operands_cons (t : Token) (ts : List Token) :
    operands (t :: ts) = operands [t] ++ operands ts := by
  rw [operands, operands, operands, ← List.filter_append, List.singleton_append]

namespace Postfix.State

/-- No operand waits, so nothing that is sent on comes between two of them. -/
theorem operands_send (top : Pending) (output : List Token) :
    operands (top.token :: output) = operands output := by
  cases top <;> rfl

theorem release_operands (op : Operator) (output : List Token) (pending : List Pending) :
    operands (release op output pending).output = operands output := by
  induction pending generalizing output with
  | nil => rfl
  | cons top pending ih =>
    cases top with
    | operator top =>
      rw [release]
      split
      · exact (ih _).trans (operands_send (.operator top) output)
      · rfl
    | _ => rfl

theorem pushOperator_operands (s : State) (op : Operator) :
    operands (s.pushOperator op).output = operands s.output := by
  unfold pushOperator
  split
  · rfl
  · exact release_operands op s.output s.pending

theorem closeGroup_operands {output : List Token} {pending : List Pending} {s : State}
    (h : closeGroup output pending = .ok s) : operands s.output = operands output := by
  induction pending generalizing output with
  | nil => cases h
  | cons top pending ih =>
    cases top with
    | operator op => exact (ih h).trans (operands_send (.operator op) output)
    | function f => exact (ih h).trans (operands_send (.function f) output)
    | leftParen =>
      cases pending with
      | nil => cases h; rfl
      | cons below pending =>
        cases below with
        | function f => cases h; exact operands_send (.function f) output
        | _ => cases h; rfl

/-- An operand goes to the output when it is read, and no other token adds one. -/
theorem step_operands {s s' : State} {t : Token} (h : step s t = .ok s') :
    operands s'.output = operands [t] ++ operands s.output := by
  cases t with
  | number text => cases h; exact operands_cons _ _
  | identifier name => cases h; exact operands_cons _ _
  | operator op => cases h; exact pushOperator_operands s op
  | function f => cases h; rfl
  | leftParen => cases h; rfl
  | rightParen => exact closeGroup_operands h

/-- The output has its newest token in front, so what is read next stands there in reverse. -/
theorem foldlM_operands {ts : List Token} {s s' : State} (h : ts.foldlM step s = .ok s') :
    operands s'.output = (operands ts).reverse ++ operands s.output := by
  induction ts generalizing s with
  | nil => cases h; rfl
  | cons t ts ih =>
    rw [List.foldlM_cons, bind_eq_ok_iff] at h
    obtain ⟨s₁, hstep, hrest⟩ := h
    have hsingle : (operands [t]).reverse = operands [t] := by
      cases t <;> rfl
    rw [ih hrest, step_operands hstep, operands_cons t ts, List.reverse_append, hsingle,
      List.append_assoc]

theorem finish_operands {output out : List Token} {pending : List Pending}
    (h : finish output pending = .ok out) : operands out = (operands output).reverse := by
  induction pending generalizing output with
  | nil =>
    cases h
    exact List.filter_reverse
  | cons top pending ih =>
    cases top with
    | operator op => rw [ih h, operands_send (.operator op)]
    | function f => rw [ih h, operands_send (.function f)]
    | leftParen => cases h

end Postfix.State

theorem operands_of_toPostfix {ts out : List Token} (h : toPostfix ts = .ok out) :
    operands out = operands ts := by
  obtain ⟨s, hrun, hfinish⟩ := bind_eq_ok_iff.1 h
  calc
    operands out = (operands s.output).reverse := Postfix.State.finish_operands hfinish
    _ = ((operands ts).reverse ++ operands []).reverse := by
      rw [Postfix.State.foldlM_operands hrun, Postfix.State.initial]
    _ = operands ts := by
      rw [List.reverse_append, List.reverse_reverse]
      rfl

/-- The postfix order of any list, well formed or not, has no parenthesis; it has the other
tokens of the list, each as often as the list has it, and the numbers and variables among them
in the same order. -/
theorem toPostfix_keeps_tokens {ts out : List Token} (h : toPostfix ts = .ok out) :
    (∀ t ∈ out, t.isParenthesis = false) ∧ out.Perm (withoutParentheses ts) ∧
      operands out = operands ts := by
  have hperm := perm_of_toPostfix h
  refine ⟨fun t ht => ?_, hperm, operands_of_toPostfix h⟩
  have hkept := (List.mem_filter.1 (hperm.subset ht)).2
  simpa using hkept

/-- In `sin (a - b)! 3` an operator is missing in front of the last number. -/
theorem toPostfix_keeps_tokens_ill_formed :
    toPostfix [.function .sin, .leftParen, .identifier "a", .operator .sub, .identifier "b",
        .rightParen, .operator .factorial, .number "3"] =
      .ok [.identifier "a", .identifier "b", .operator .sub, .function .sin, .number "3",
        .operator .factorial] ∧
    operands [.identifier "a", .identifier "b", .operator .sub, .function .sin, .number "3",
        .operator .factorial] =
      [.identifier "a", .identifier "b", .number "3"] := by
  have h : toPostfix [.function .sin, .leftParen, .identifier "a", .operator .sub,
        .identifier "b", .rightParen, .operator .factorial, .number "3"] =
      .ok [.identifier "a", .identifier "b", .operator .sub, .function .sin, .number "3",
        .operator .factorial] := by
    decide
  exact ⟨h, (toPostfix_keeps_tokens h).2.2⟩

end Abacus
