/-
Abacus.Proofs.Postfix.Substitution — a group in the place of a variable.

A variable is sent to the output as it is read; the group in its place sends its
postfix order there and leaves no other trace, as long as no function waits for
a group of its own.  In a list as the lexer returns it, a function waits only in
front of the parenthesis behind it.  So the conversion of the list with the
groups in it is that of the list, with the postfix orders in it
(`toPostfix_inline`).
-/
import Abacus.Proofs.Postfix.Frame
import Abacus.Proofs.Syntax.Shape

namespace Abacus

/-- The token, or the body if it is a variable with one of the names. -/
def Token.inline (names : List String) (body : List Token) : Token → List Token
  | .identifier name => if name ∈ names then body else [.identifier name]
  | token => [token]

/-- The tokens with the body in place of each variable that has one of the names. -/
def inline (names : List String) (body tokens : List Token) : List Token :=
  tokens.flatMap (Token.inline names body)

namespace Postfix.State

variable (names : List String) (rpn : List Token)

/-- An output, the newest token in front, with a postfix order in place of the variables. -/
def inlineOutput (output : List Token) : List Token :=
  output.flatMap fun token => (token.inline names rpn).reverse

theorem inlineOutput_cons (token : Token) (output : List Token) :
    inlineOutput names rpn (token :: output) =
      (token.inline names rpn).reverse ++ inlineOutput names rpn output :=
  List.flatMap_cons

theorem reverse_inlineOutput (output : List Token) :
    (inlineOutput names rpn output).reverse = inline names rpn output.reverse := by
  rw [inlineOutput, List.reverse_flatMap, inline]
  simp only [Function.comp_def, List.reverse_reverse]

/-- The state with a postfix order in place of the variables that went out. -/
def inline (s : State) : State :=
  ⟨inlineOutput names rpn s.output, s.pending⟩

/-! ## What waits goes out as before -/

theorem release_inline (op : Operator) (output : List Token) (pending : List Pending) :
    release op (inlineOutput names rpn output) pending =
      (release op output pending).inline names rpn := by
  induction pending generalizing output with
  | nil => rfl
  | cons top pending ih =>
    cases top with
    | operator top =>
      rw [release, release]
      split
      · exact ih (.operator top :: output)
      · rfl
    | function f => rfl
    | leftParen => rfl

theorem pushOperator_inline (op : Operator) (s : State) :
    (s.inline names rpn).pushOperator op = (s.pushOperator op).inline names rpn := by
  unfold pushOperator
  cases op.isPrefix with
  | true => rfl
  | false =>
    have hrelease := release_inline names rpn op s.output s.pending
    dsimp only [inline] at hrelease ⊢
    rw [if_neg Bool.false_ne_true, if_neg Bool.false_ne_true, hrelease]

theorem closeGroup_inline (output : List Token) (pending : List Pending) :
    closeGroup (inlineOutput names rpn output) pending =
      (closeGroup output pending).map (inline names rpn) := by
  induction pending generalizing output with
  | nil => rfl
  | cons top pending ih =>
    cases top with
    | operator op => exact ih (.operator op :: output)
    | function f => exact ih (.function f :: output)
    | leftParen =>
      cases pending with
      | nil => rfl
      | cons below pending => cases below <;> rfl

theorem finish_inline (output : List Token) (pending : List Pending) :
    finish (inlineOutput names rpn output) pending =
      (finish output pending).map (Abacus.inline names rpn) := by
  induction pending generalizing output with
  | nil => exact congrArg Except.ok (reverse_inlineOutput names rpn output)
  | cons top pending ih =>
    cases top with
    | operator op => exact ih (.operator op :: output)
    | function f => exact ih (.function f :: output)
    | leftParen => rfl

/-! ## Reading the tokens -/

/-- No function waits where the list begins with a variable. -/
def Ready : List Pending → List Token → Prop
  | .function _ :: _, .identifier _ :: _ => False
  | _, _ => True

theorem closeGroup_of_ready (output : List Token) {pending : List Pending} {name : String}
    {ts : List Token} (h : Ready pending (.identifier name :: ts)) :
    closeGroup output (.leftParen :: pending) = .ok ⟨output, pending⟩ := by
  refine closeGroup_of_ne_function output fun f hf => ?_
  obtain ⟨rest, rfl⟩ := List.head?_eq_some_iff.1 hf
  exact h.elim

theorem ready_of_alternates {caps : Capabilities} {ts : List Token}
    (h : Alternates caps .operator ts) (pending : List Pending) : Ready pending ts := by
  cases pending with
  | nil => trivial
  | cons top pending => cases top <;> cases h <;> trivial

variable {names rpn} {body : List Token} (hbody : toPostfix body = .ok rpn)
include hbody

/-- One token, or the group in its place. -/
theorem step_inline {s : State} {token : Token} {ts : List Token}
    (h : Ready s.pending (token :: ts)) :
    (token.inline names (group body)).foldlM step (s.inline names rpn) =
      (step s token).map (inline names rpn) := by
  cases token with
  | number text => rfl
  | identifier name =>
    rw [Token.inline]
    split_ifs with hname
    · rw [foldlM_group hbody]
      refine (closeGroup_of_ready _ h).trans ?_
      refine congrArg (fun out => Except.ok (⟨out, s.pending⟩ : State)) ?_
      rw [inlineOutput_cons, Token.inline, if_pos hname]
      rfl
    · refine congrArg (fun out => Except.ok (⟨out, s.pending⟩ : State)) ?_
      rw [inlineOutput_cons, Token.inline, if_neg hname]
      rfl
  | operator op => exact congrArg Except.ok (pushOperator_inline names rpn op s)
  | function f => rfl
  | leftParen => rfl
  | rightParen => exact (bind_pure _).trans (closeGroup_inline names rpn s.output s.pending)

theorem foldlM_cons_inline {s : State} {token : Token} {ts : List Token}
    (h : Ready s.pending (token :: ts))
    (hrest : ∀ t, step s token = .ok t →
      (Abacus.inline names (group body) ts).foldlM step (t.inline names rpn) =
        (ts.foldlM step t).map (inline names rpn)) :
    (Abacus.inline names (group body) (token :: ts)).foldlM step (s.inline names rpn) =
      ((token :: ts).foldlM step s).map (inline names rpn) := by
  rw [Abacus.inline, List.flatMap_cons, List.foldlM_append, step_inline hbody h, List.foldlM_cons]
  cases hstep : step s token with
  | error e => rfl
  | ok t => exact hrest t hstep

theorem foldlM_inline (names : List String) {caps : Capabilities} {place : Place}
    {ts : List Token} (halternates : Alternates caps place ts) (s : State)
    (hready : Ready s.pending ts) :
    (Abacus.inline names (group body) ts).foldlM step (s.inline names rpn) =
      (ts.foldlM step s).map (inline names rpn) := by
  induction halternates generalizing s with
  | nil => rfl
  | leftParen _ ih =>
    refine foldlM_cons_inline hbody hready fun t ht => ih t ?_
    cases ht
    trivial
  | neg _ _ ih =>
    refine foldlM_cons_inline hbody hready fun t ht => ih t ?_
    cases ht
    trivial
  | function _ _ ih =>
    refine foldlM_cons_inline hbody hready fun t ht => ih t ?_
    cases ht
    trivial
  | number _ hrest ih =>
    exact foldlM_cons_inline hbody hready fun t _ => ih t (ready_of_alternates hrest _)
  | identifier _ hrest ih =>
    exact foldlM_cons_inline hbody hready fun t _ => ih t (ready_of_alternates hrest _)
  | rightParen hrest ih =>
    exact foldlM_cons_inline hbody hready fun t _ => ih t (ready_of_alternates hrest _)
  | factorial hrest ih =>
    exact foldlM_cons_inline hbody hready fun t _ => ih t (ready_of_alternates hrest _)
  | @binary op _ _ _ ih =>
    refine foldlM_cons_inline hbody hready fun t ht => ih t ?_
    cases ht
    cases op <;> trivial

end Postfix.State

/-- A list of the lexer with a group in place of some variables has the postfix order of the
list, with that of the group in their place, and has none if the list has none. -/
theorem toPostfix_inline {caps : Capabilities} {names : List String} {body rpn ts : List Token}
    (hbody : toPostfix body = .ok rpn) (h : Alternates caps .operand ts) :
    toPostfix (inline names (group body) ts) = (toPostfix ts).map (inline names rpn) := by
  have hinitial : Postfix.State.initial.inline names rpn = .initial := rfl
  have hrun := Postfix.State.foldlM_inline hbody names h .initial trivial
  rw [hinitial] at hrun
  unfold toPostfix
  rw [hrun]
  cases ts.foldlM Postfix.State.step .initial with
  | error e => rfl
  | ok t => exact Postfix.State.finish_inline names rpn t.output t.pending

end Abacus
