/-
Abacus.Proofs.Postfix.Unmatched — which parenthesis has no partner.

As many parentheses wait as were opened and not closed yet, whatever else stands
in the list.  So the conversion stops at the first parenthesis that closes more
than was opened, and fails at the end if more was opened than closed
(`foldlM_openings`).
-/
import Abacus.Proofs.Outcome
import Abacus.Proofs.Postfix.Balance

namespace Abacus

/-- With `n` parentheses open in front of the list, some front of it closes more than are
open. -/
def Overcloses (n : Nat) (ts : List Token) : Prop :=
  ∃ front, front <+: ts ∧ n + front.count .leftParen < front.count .rightParen

theorem not_overcloses_nil (n : Nat) : ¬Overcloses n [] := by
  rintro ⟨front, hfront, hlt⟩
  rw [List.prefix_nil.1 hfront] at hlt
  exact Nat.not_lt_zero _ hlt

/-- The empty front closes nothing, so any front that matters begins with the first token. -/
theorem overcloses_cons_iff (n : Nat) (t : Token) (ts : List Token) :
    Overcloses n (t :: ts) ↔
      ∃ front, front <+: ts ∧
        n + (t :: front).count .leftParen < (t :: front).count .rightParen := by
  constructor
  · rintro ⟨front, hfront, hlt⟩
    rcases List.prefix_cons_iff.1 hfront with rfl | ⟨rest, rfl, hrest⟩
    · exact absurd hlt (Nat.not_lt_zero _)
    · exact ⟨rest, hrest, hlt⟩
  · rintro ⟨front, hfront, hlt⟩
    exact ⟨t :: front, List.cons_prefix_cons.2 ⟨rfl, hfront⟩, hlt⟩

theorem overcloses_cons_leftParen (n : Nat) (ts : List Token) :
    Overcloses n (.leftParen :: ts) ↔ Overcloses (n + 1) ts := by
  rw [overcloses_cons_iff]
  refine exists_congr fun front => and_congr_right fun _ => ?_
  rw [List.count_cons_self, List.count_cons_of_ne (by decide)]
  omega

theorem overcloses_cons_rightParen_zero (ts : List Token) :
    Overcloses 0 (.rightParen :: ts) :=
  ⟨[.rightParen], List.cons_prefix_cons.2 ⟨rfl, List.nil_prefix⟩, by decide⟩

theorem overcloses_cons_rightParen_succ (n : Nat) (ts : List Token) :
    Overcloses (n + 1) (.rightParen :: ts) ↔ Overcloses n ts := by
  rw [overcloses_cons_iff]
  refine exists_congr fun front => and_congr_right fun _ => ?_
  rw [List.count_cons_self, List.count_cons_of_ne (by decide)]
  omega

theorem overcloses_cons_of_ne {t : Token} (hleft : t ≠ .leftParen) (hright : t ≠ .rightParen)
    (n : Nat) (ts : List Token) : Overcloses n (t :: ts) ↔ Overcloses n ts := by
  rw [overcloses_cons_iff]
  simp only [List.count_cons_of_ne hleft, List.count_cons_of_ne hright]
  rfl

namespace Postfix.State

theorem closeGroup_of_no_openings {pending : List Pending} (h : openings pending = 0)
    (output : List Token) : closeGroup output pending = .error .unmatchedRight := by
  induction pending generalizing output with
  | nil => rfl
  | cons top pending ih =>
    cases top with
    | operator op => exact ih h (.operator op :: output)
    | function f => exact ih h (.function f :: output)
    | leftParen => cases h

theorem finish_of_openings {pending : List Pending} (h : 0 < openings pending)
    (output : List Token) : finish output pending = .error .unmatchedLeft := by
  induction pending generalizing output with
  | nil => cases h
  | cons top pending ih =>
    cases top with
    | operator op => exact ih h (.operator op :: output)
    | function f => exact ih h (.function f :: output)
    | leftParen => rfl

/-- A token that is no parenthesis is read, and leaves as many parentheses waiting. -/
theorem step_openings_of_ne {t : Token} (hleft : t ≠ .leftParen) (hright : t ≠ .rightParen)
    (s : State) : ∃ s', step s t = .ok s' ∧ openings s'.pending = openings s.pending := by
  cases t with
  | operator op => exact ⟨_, rfl, openings_pushOperator s op⟩
  | leftParen => exact absurd rfl hleft
  | rightParen => exact absurd rfl hright
  | _ => exact ⟨_, rfl, rfl⟩

/-- A list is read as long as none of its fronts closes more than is open, and then as many
parentheses wait as are left open. -/
theorem foldlM_openings (ts : List Token) (s : State) :
    (Overcloses (openings s.pending) ts ∧ ts.foldlM step s = .error .unmatchedRight) ∨
    (¬Overcloses (openings s.pending) ts ∧ ∃ s', ts.foldlM step s = .ok s' ∧
      openings s'.pending + ts.count .rightParen =
        openings s.pending + ts.count .leftParen) := by
  induction ts generalizing s with
  | nil => exact .inr ⟨not_overcloses_nil _, s, rfl, rfl⟩
  | cons t ts ih =>
    rw [List.foldlM_cons]
    by_cases hleft : t = .leftParen
    · subst hleft
      rw [overcloses_cons_leftParen, List.count_cons_self, List.count_cons_of_ne (by decide)]
      refine (ih { s with pending := .leftParen :: s.pending }).imp_right fun ⟨hno, s', hs', hn⟩ =>
        ⟨hno, s', hs', ?_⟩
      rw [hn, openings]
      omega
    by_cases hright : t = .rightParen
    · subst hright
      rw [show step s .rightParen = closeGroup s.output s.pending from rfl, List.count_cons_self,
        List.count_cons_of_ne (by decide)]
      rcases closeGroup_openings s.output s.pending with ⟨s', hs', hopen⟩ | ⟨-, hopen⟩
      · rw [hs', hopen, overcloses_cons_rightParen_succ]
        refine (ih s').imp_right fun ⟨hno, s'', hs'', hn⟩ => ⟨hno, s'', hs'', ?_⟩
        omega
      · rw [closeGroup_of_no_openings hopen, hopen]
        exact .inl ⟨overcloses_cons_rightParen_zero ts, rfl⟩
    · obtain ⟨s', hs', hopen⟩ := step_openings_of_ne hleft hright s
      rw [hs', overcloses_cons_of_ne hleft hright, List.count_cons_of_ne hleft,
        List.count_cons_of_ne hright, ← hopen]
      exact ih s'

end Postfix.State

/-- Any list, well formed or not, has a closing parenthesis without a partner if some front of
it closes more than it opens, otherwise an opening one if the whole list opens more than it
closes, and otherwise a postfix order. -/
theorem toPostfix_by_parentheses (ts : List Token) :
    (toPostfix ts = .error .unmatchedRight ↔
      ∃ front, front <+: ts ∧ front.count .leftParen < front.count .rightParen) ∧
    (toPostfix ts = .error .unmatchedLeft ↔
      (¬∃ front, front <+: ts ∧ front.count .leftParen < front.count .rightParen) ∧
        ts.count .rightParen < ts.count .leftParen) ∧
    ((∃ rpn, toPostfix ts = .ok rpn) ↔
      (¬∃ front, front <+: ts ∧ front.count .leftParen < front.count .rightParen) ∧
        ts.count .leftParen ≤ ts.count .rightParen) := by
  have hfronts : (∃ front, front <+: ts ∧ front.count .leftParen < front.count .rightParen) ↔
      Overcloses 0 ts := by
    simp only [Overcloses, Nat.zero_add]
  rw [hfronts]
  rcases Postfix.State.foldlM_openings ts .initial with ⟨hover, hrun⟩ | ⟨hover, s, hrun, hopen⟩
  · have hvalue : toPostfix ts = .error .unmatchedRight := by
      unfold toPostfix
      rw [hrun]
      rfl
    refine ⟨⟨fun _ => hover, fun _ => hvalue⟩, ⟨fun h => ?_, fun h => absurd hover h.1⟩,
      ⟨fun ⟨_, h⟩ => ?_, fun h => absurd hover h.1⟩⟩
    · cases hvalue.symm.trans h
    · cases hvalue.symm.trans h
  · have hvalue : toPostfix ts = Postfix.State.finish s.output s.pending := by
      unfold toPostfix
      rw [hrun]
      rfl
    have hover : ¬Overcloses 0 ts := hover
    have hopen : Postfix.State.openings s.pending + ts.count .rightParen =
        ts.count .leftParen := hopen.trans (Nat.zero_add _)
    rcases Nat.eq_zero_or_pos (Postfix.State.openings s.pending) with hnone | hsome
    · obtain ⟨rpn, hrpn⟩ := (Postfix.State.exists_finish_iff s.output s.pending).2 hnone
      rw [hvalue, hrpn]
      exact ⟨⟨nofun, fun h => absurd h hover⟩, ⟨nofun, fun h => absurd h.2 (by omega)⟩,
        ⟨fun _ => ⟨hover, by omega⟩, fun _ => ⟨rpn, rfl⟩⟩⟩
    · rw [hvalue, Postfix.State.finish_of_openings hsome]
      exact ⟨⟨nofun, fun h => absurd h hover⟩, ⟨fun _ => ⟨hover, by omega⟩, fun _ => rfl⟩,
        ⟨nofun, fun h => absurd h.2 (by omega)⟩⟩

end Abacus
