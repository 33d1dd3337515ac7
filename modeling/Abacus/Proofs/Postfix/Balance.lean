/-
Abacus.Proofs.Postfix.Balance — when a list has a postfix order.

The conversion looks at nothing but the parentheses to decide whether it
succeeds: as many wait as are open, a closing one needs one that waits, and at
the end none may wait (`exists_ok_iff_closes`).
-/
import Abacus.Postfix

namespace Abacus

/-- With `n` parentheses open in front of the list, each of them is closed in it,
and so is each that the list opens; it closes no other. -/
def Closes : Nat → List Token → Prop
  | n, [] => n = 0
  | n, .leftParen :: ts => Closes (n + 1) ts
  | n, .rightParen :: ts => ∃ m, n = m + 1 ∧ Closes m ts
  | n, _ :: ts => Closes n ts

namespace Postfix.State

/-- How many parentheses wait. -/
def openings : List Pending → Nat
  | [] => 0
  | .leftParen :: pending => openings pending + 1
  | _ :: pending => openings pending

theorem openings_release (op : Operator) (output : List Token) (pending : List Pending) :
    openings (release op output pending).pending = openings pending := by
  induction pending generalizing output with
  | nil => rfl
  | cons top pending ih =>
    cases top with
    | operator top =>
      rw [release]
      split
      · exact ih _
      · rfl
    | _ => rfl

theorem openings_pushOperator (s : State) (op : Operator) :
    openings (s.pushOperator op).pending = openings s.pending := by
  unfold pushOperator
  split
  · rfl
  · exact openings_release op s.output s.pending

/-- Closing a group takes one waiting parenthesis. -/
theorem closeGroup_openings (output : List Token) (pending : List Pending) :
    (∃ s, closeGroup output pending = .ok s ∧ openings pending = openings s.pending + 1) ∨
    (∃ e, closeGroup output pending = .error e) ∧ openings pending = 0 := by
  induction pending generalizing output with
  | nil => exact .inr ⟨⟨_, rfl⟩, rfl⟩
  | cons top pending ih =>
    cases top with
    | operator op => exact ih (.operator op :: output)
    | function f => exact ih (.function f :: output)
    | leftParen =>
      left
      cases pending with
      | nil => exact ⟨_, rfl, rfl⟩
      | cons below pending => cases below <;> exact ⟨_, rfl, rfl⟩

theorem exists_finish_iff (output : List Token) (pending : List Pending) :
    (∃ out, finish output pending = .ok out) ↔ openings pending = 0 := by
  induction pending generalizing output with
  | nil => exact ⟨fun _ => rfl, fun _ => ⟨_, rfl⟩⟩
  | cons top pending ih =>
    cases top with
    | operator op => exact ih (.operator op :: output)
    | function f => exact ih (.function f :: output)
    | leftParen =>
      constructor
      · rintro ⟨out, h⟩; cases h
      · intro h; cases h

/-- From any state, the conversion succeeds on the lists that close what waits. -/
theorem exists_ok_iff_closes (ts : List Token) (s : State) :
    (∃ out, ts.foldlM step s >>= (fun s => finish s.output s.pending) = .ok out) ↔
      Closes (openings s.pending) ts := by
  induction ts generalizing s with
  | nil => exact exists_finish_iff s.output s.pending
  | cons t ts ih =>
    rw [List.foldlM_cons]
    cases t with
    | number text => exact ih _
    | identifier name => exact ih _
    | function f => exact ih _
    | leftParen => exact ih _
    | operator op =>
      have := ih (s.pushOperator op)
      rwa [openings_pushOperator] at this
    | rightParen =>
      rw [show step s .rightParen = closeGroup s.output s.pending from rfl, Closes]
      rcases closeGroup_openings s.output s.pending with ⟨s', hs, hn⟩ | ⟨⟨e, he⟩, hn⟩
      · rw [hs, hn]
        refine (ih s').trans ⟨fun h => ⟨_, rfl, h⟩, ?_⟩
        rintro ⟨m, hm, h⟩
        cases hm
        exact h
      · rw [he, hn]
        constructor
        · rintro ⟨out, h⟩; cases h
        · rintro ⟨m, hm, _⟩; cases hm

end Postfix.State

/-- The lists with a postfix order are those whose parentheses balance. -/
theorem exists_toPostfix_iff_closes (ts : List Token) :
    (∃ out, toPostfix ts = .ok out) ↔ Closes 0 ts :=
  Postfix.State.exists_ok_iff_closes ts .initial

end Abacus
