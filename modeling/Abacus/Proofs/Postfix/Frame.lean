/-
Abacus.Proofs.Postfix.Frame — a group is converted on its own.

Between an opening parenthesis and the one that closes it, the conversion sees
nothing of what went out or waits before it: its steps are those of a conversion
from the start, on top of the parenthesis (`foldlM_above`).  So the tokens of a
group go out in their postfix order (`foldlM_group`), with a function that waits for
them, and all that was there before stays (`group_is_framed`).
-/
import Abacus.Postfix
import Abacus.Proofs.Outcome

namespace Abacus

/-- A list between parentheses. -/
def group (tokens : List Token) : List Token :=
  .leftParen :: (tokens ++ [.rightParen])

namespace Postfix.State

/-- The state `t` of a group that was opened in the state `s`. -/
def above (s t : State) : State :=
  ⟨t.output ++ s.output, t.pending ++ .leftParen :: s.pending⟩

/-- Nothing is sent on from below the parenthesis. -/
theorem release_above (op : Operator) (s : State) (output : List Token) (pending : List Pending) :
    release op (output ++ s.output) (pending ++ .leftParen :: s.pending) =
      s.above (release op output pending) := by
  induction pending generalizing output with
  | nil => rfl
  | cons top pending ih =>
    cases top with
    | operator top =>
      rw [List.cons_append, release, release]
      split
      · exact ih (.operator top :: output)
      · rfl
    | function f => rfl
    | leftParen => rfl

theorem pushOperator_above (op : Operator) (s t : State) :
    (s.above t).pushOperator op = s.above (t.pushOperator op) := by
  unfold pushOperator
  cases op.isPrefix with
  | true => rfl
  | false =>
    have hrelease := release_above op s t.output t.pending
    dsimp only [above] at hrelease ⊢
    rw [if_neg Bool.false_ne_true, if_neg Bool.false_ne_true, hrelease]
    rfl

/-- A group inside of the group is closed as it is on its own. -/
theorem closeGroup_above (s : State) {t : State} {output : List Token} {pending : List Pending}
    (h : closeGroup output pending = .ok t) :
    closeGroup (output ++ s.output) (pending ++ .leftParen :: s.pending) = .ok (s.above t) := by
  induction pending generalizing output with
  | nil => cases h
  | cons top pending ih =>
    cases top with
    | operator op => exact ih h
    | function f => exact ih h
    | leftParen =>
      cases pending with
      | nil => cases h; rfl
      | cons below pending => cases below <;> (cases h; rfl)

theorem step_above (s : State) {t t' : State} {token : Token} (h : step t token = .ok t') :
    step (s.above t) token = .ok (s.above t') := by
  cases token with
  | operator op =>
    cases h
    exact congrArg Except.ok (pushOperator_above op s t)
  | rightParen => exact closeGroup_above s h
  | _ => cases h; rfl

theorem foldlM_above (s : State) {t t' : State} {tokens : List Token}
    (h : tokens.foldlM step t = .ok t') : tokens.foldlM step (s.above t) = .ok (s.above t') := by
  induction tokens generalizing t with
  | nil => cases h; rfl
  | cons token tokens ih =>
    rw [List.foldlM_cons, bind_eq_ok_iff] at h
    obtain ⟨next, hstep, hrest⟩ := h
    rw [foldlM_cons_of_ok (step_above s hstep)]
    exact ih hrest

/-- The parenthesis that closes the group sends on what the end of a list would. -/
theorem closeGroup_of_finish (s : State) {output out : List Token} {pending : List Pending}
    (h : finish output pending = .ok out) :
    closeGroup (output ++ s.output) (pending ++ .leftParen :: s.pending) =
      closeGroup (out.reverse ++ s.output) (.leftParen :: s.pending) := by
  induction pending generalizing output with
  | nil =>
    cases h
    rw [List.reverse_reverse]
    rfl
  | cons top pending ih =>
    cases top with
    | operator op => exact ih h
    | function f => exact ih h
    | leftParen => cases h

/-- Reading a group sends its postfix order to the output, and then a function that waits
for it. -/
theorem foldlM_group {tokens rpn : List Token} (h : toPostfix tokens = .ok rpn) (s : State) :
    (group tokens).foldlM step s =
      closeGroup (rpn.reverse ++ s.output) (.leftParen :: s.pending) := by
  obtain ⟨t, ht, hfinish⟩ := bind_eq_ok_iff.1 h
  have hopen : step s .leftParen = .ok (s.above initial) := rfl
  rw [group, foldlM_cons_of_ok hopen, foldlM_append_of_ok (foldlM_above s ht),
    ← closeGroup_of_finish s hfinish, List.foldlM_cons]
  exact bind_pure _

/-- The parenthesis that closes an empty group takes with it a function that waits for it. -/
theorem closeGroup_function (output : List Token) (f : Elementary) (pending : List Pending) :
    closeGroup output (.leftParen :: .function f :: pending) =
      .ok ⟨.function f :: output, pending⟩ := rfl

/-- Otherwise it leaves what waits as it is. -/
theorem closeGroup_of_ne_function (output : List Token) {pending : List Pending}
    (h : ∀ f, pending.head? ≠ some (.function f)) :
    closeGroup output (.leftParen :: pending) = .ok ⟨output, pending⟩ := by
  cases pending with
  | nil => rfl
  | cons top pending =>
    cases top with
    | function f => exact absurd rfl (h f)
    | _ => rfl

/-- In any state, a group whose tokens have a postfix order can be read: this order goes to the
output, with the function that is on top behind it, if one is, and nothing else changes. -/
theorem group_is_framed {tokens rpn : List Token} (h : toPostfix tokens = .ok rpn) (s : State) :
    ∃ t, (group tokens).foldlM step s = .ok t ∧
      (∀ f, s.pending.head? = some (.function f) →
        t.output.reverse = s.output.reverse ++ rpn ++ [.function f] ∧
          t.pending = s.pending.tail) ∧
      ((∀ f, s.pending.head? ≠ some (.function f)) →
        t.output.reverse = s.output.reverse ++ rpn ∧ t.pending = s.pending) := by
  rw [foldlM_group h s]
  obtain ⟨output, pending⟩ := s
  by_cases htop : ∃ f, pending.head? = some (.function f)
  · obtain ⟨f, hf⟩ := htop
    obtain ⟨rest, rfl⟩ := List.head?_eq_some_iff.1 hf
    refine ⟨_, closeGroup_function _ f rest, fun g hg => ?_, fun hno => absurd hf (hno f)⟩
    obtain rfl : f = g := by simpa using hg
    simp
  · rw [not_exists] at htop
    refine ⟨_, closeGroup_of_ne_function _ htop, fun f hf => absurd hf (htop f), fun _ => ?_⟩
    simp

/-- The list `( ) ! 2 3 -` has a postfix order although it is ill formed; behind `9 * sqrt`, the
square root follows it and the product still waits. -/
theorem group_is_framed_ill_formed :
    toPostfix [.leftParen, .rightParen, .operator .factorial, .number "2", .number "3",
        .operator .sub] =
      .ok [.number "2", .number "3", .operator .factorial, .operator .sub] ∧
    ∃ t, (group [.leftParen, .rightParen, .operator .factorial, .number "2", .number "3",
        .operator .sub]).foldlM step ⟨[.number "9"], [.function .sqrt, .operator .mul]⟩ = .ok t ∧
      t.output.reverse = [.number "9", .number "2", .number "3", .operator .factorial,
        .operator .sub, .function .sqrt] ∧
      t.pending = [.operator .mul] := by
  have hrpn : toPostfix [.leftParen, .rightParen, .operator .factorial, .number "2", .number "3",
        .operator .sub] =
      .ok [.number "2", .number "3", .operator .factorial, .operator .sub] := rfl
  obtain ⟨t, ht, hfunction, -⟩ :=
    group_is_framed hrpn ⟨[.number "9"], [.function .sqrt, .operator .mul]⟩
  exact ⟨hrpn, t, ht, hfunction .sqrt rfl⟩

end Postfix.State

end Abacus
