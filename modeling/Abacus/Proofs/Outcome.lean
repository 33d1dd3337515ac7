/-
Abacus.Proofs.Outcome — taking results apart.

A computation in stages succeeds when every stage does, and fails with the
error of the first stage that fails.
-/

namespace Abacus

variable {ε α β : Type}

theorem bind_eq_ok_iff {r : Except ε α} {f : α → Except ε β} {b : β} :
    r >>= f = .ok b ↔ ∃ a, r = .ok a ∧ f a = .ok b := by
  cases r with
  | error e =>
    constructor
    · intro h; cases h
    · rintro ⟨_, h, _⟩; cases h
  | ok a =>
    constructor
    · intro h; exact ⟨a, rfl, h⟩
    · rintro ⟨_, h, hf⟩; cases h; exact hf

theorem bind_eq_error_iff {r : Except ε α} {f : α → Except ε β} {e : ε} :
    r >>= f = .error e ↔ r = .error e ∨ ∃ a, r = .ok a ∧ f a = .error e := by
  cases r with
  | error d =>
    constructor
    · intro h; cases h; exact .inl rfl
    · rintro (h | ⟨_, h, _⟩)
      · cases h; rfl
      · cases h
  | ok a =>
    constructor
    · intro h; exact .inr ⟨a, rfl, h⟩
    · rintro (h | ⟨_, h, hf⟩)
      · cases h
      · cases h; exact hf

theorem map_eq_ok_iff {r : Except ε α} {f : α → β} {b : β} :
    r.map f = .ok b ↔ ∃ a, r = .ok a ∧ f a = b := by
  cases r with
  | error e =>
    constructor
    · intro h; cases h
    · rintro ⟨_, h, _⟩; cases h
  | ok a =>
    constructor
    · intro h; cases h; exact ⟨a, rfl, rfl⟩
    · rintro ⟨_, h, hf⟩; cases h; exact congrArg Except.ok hf

theorem mapError_eq_ok_iff {δ : Type} {r : Except ε α} {f : ε → δ} {a : α} :
    r.mapError f = .ok a ↔ r = .ok a := by
  cases r with
  | error e =>
    constructor
    · intro h; cases h
    · intro h; cases h
  | ok b =>
    constructor
    · intro h; cases h; rfl
    · intro h; cases h; rfl

theorem map_eq_error_iff {r : Except ε α} {f : α → β} {e : ε} :
    r.map f = .error e ↔ r = .error e := by
  cases r with
  | error d =>
    constructor
    · intro h; cases h; rfl
    · intro h; cases h; rfl
  | ok a =>
    constructor
    · intro h; cases h
    · intro h; cases h

theorem mapError_eq_error_iff {δ : Type} {r : Except ε α} {f : ε → δ} {d : δ} :
    r.mapError f = .error d ↔ ∃ e, r = .error e ∧ f e = d := by
  cases r with
  | error e =>
    constructor
    · intro h; cases h; exact ⟨e, rfl, rfl⟩
    · rintro ⟨_, h, hf⟩; cases h; exact congrArg Except.error hf
  | ok a =>
    constructor
    · intro h; cases h
    · rintro ⟨_, h, _⟩; cases h

/-! ## Errors with a property -/

/-- Whenever the computation fails, its error has the property. -/
def FailsWith (P : ε → Prop) (r : Except ε α) : Prop :=
  ∀ e, r = .error e → P e

section FailsWith

variable {P : ε → Prop}

@[simp] theorem failsWith_ok (a : α) : FailsWith P (.ok a) := nofun

@[simp] theorem failsWith_error (e : ε) : FailsWith P (.error e : Except ε α) ↔ P e := by
  constructor
  · intro h; exact h e rfl
  · rintro h _ ⟨⟩; exact h

theorem FailsWith.bind {r : Except ε α} {f : α → Except ε β} (hr : FailsWith P r)
    (hf : ∀ a, FailsWith P (f a)) : FailsWith P (r >>= f) := by
  intro e h
  rcases bind_eq_error_iff.1 h with h | ⟨a, -, h⟩
  · exact hr e h
  · exact hf a e h

theorem FailsWith.map {r : Except ε α} (hr : FailsWith P r) (f : α → β) :
    FailsWith P (r.map f) :=
  fun e h => hr e (map_eq_error_iff.1 h)

theorem FailsWith.mono {Q : ε → Prop} {r : Except ε α} (hr : FailsWith P r)
    (h : ∀ e, P e → Q e) : FailsWith Q r :=
  fun e he => h e (hr e he)

@[simp] theorem failsWith_ite {c : Prop} [Decidable c] {r s : Except ε α} :
    FailsWith P (if c then r else s) ↔ (c → FailsWith P r) ∧ (¬c → FailsWith P s) := by
  by_cases hc : c <;> simp [hc]

end FailsWith

/-! ## Runs -/

theorem map_bind (r : Except ε α) (f : α → β) {γ : Type} (g : β → Except ε γ) :
    r.map f >>= g = r >>= fun a => g (f a) := by
  cases r <;> rfl

theorem foldlM_cons_of_ok {f : β → α → Except ε β} {x y : β} {a : α} (h : f x a = .ok y)
    (as : List α) : (a :: as).foldlM f x = as.foldlM f y := by
  rw [List.foldlM_cons, h]
  rfl

theorem foldlM_append_of_ok {f : β → α → Except ε β} {x y : β} {as : List α}
    (h : as.foldlM f x = .ok y) (bs : List α) : (as ++ bs).foldlM f x = bs.foldlM f y := by
  rw [List.foldlM_append, h]
  rfl

end Abacus
