/-
Abacus.Proofs.Syntax.Characters — the classes of characters in a line.

Blanks, the characters of names and those of literals exclude each other, and
folding a name to lower case keeps it a name.  Every fact here compares code
points.
-/
import Abacus.Token.Lexer
import Mathlib

namespace Abacus

/-! ## Classes as ranges of code points -/

theorem isDigit_iff {c : Char} : c.isDigit = true ↔ 48 ≤ c.toNat ∧ c.toNat ≤ 57 := by
  simp [Char.isDigit, UInt32.le_iff_toNat_le]

theorem isLower_iff {c : Char} : c.isLower = true ↔ 97 ≤ c.toNat ∧ c.toNat ≤ 122 := by
  simp [Char.isLower, UInt32.le_iff_toNat_le]

theorem isUpper_iff {c : Char} : c.isUpper = true ↔ 65 ≤ c.toNat ∧ c.toNat ≤ 90 := by
  simp [Char.isUpper, UInt32.le_iff_toNat_le]

theorem isAlpha_iff {c : Char} : c.isAlpha = true ↔ c.isUpper = true ∨ c.isLower = true := by
  simp [Char.isAlpha]

theorem isBlank_iff {c : Char} :
    isBlank c = true ↔ (9 ≤ c.toNat ∧ c.toNat ≤ 13) ∨ c.toNat = 0x20 ∨ c.toNat = 0x85 ∨
      c.toNat = 0xA0 ∨ c.toNat = 0x1680 ∨ (0x2000 ≤ c.toNat ∧ c.toNat ≤ 0x200A) ∨
      c.toNat = 0x2028 ∨ c.toNat = 0x2029 ∨ c.toNat = 0x202F ∨ c.toNat = 0x205F ∨
      c.toNat = 0x3000 := by
  simp [isBlank, or_assoc]

theorem isNameChar_iff {c : Char} :
    Lexer.isNameChar c = true ↔ c.isAlpha = true ∨ c.isDigit = true ∨ c = '_' := by
  simp [Lexer.isNameChar, Char.isAlphanum, or_assoc]

theorem startsLiteral_iff {c : Char} :
    Lexer.startsLiteral c = true ↔ c.isDigit = true ∨ c = '.' := by
  simp [Lexer.startsLiteral]

/-! ## Classes that exclude each other -/

theorem isNameChar_of_isBlank {c : Char} (h : isBlank c = true) : Lexer.isNameChar c = false := by
  rw [Bool.eq_false_iff]
  intro hn
  rcases isNameChar_iff.1 hn with ha | hd | rfl
  · rw [isAlpha_iff, isUpper_iff, isLower_iff] at ha
    rw [isBlank_iff] at h
    omega
  · rw [isDigit_iff] at hd
    rw [isBlank_iff] at h
    omega
  · exact absurd h (by decide)

theorem startsLiteral_of_isBlank {c : Char} (h : isBlank c = true) :
    Lexer.startsLiteral c = false := by
  rw [Bool.eq_false_iff]
  intro hl
  rcases startsLiteral_iff.1 hl with hd | rfl
  · have := isNameChar_of_isBlank h
    rw [isNameChar_iff.2 (.inr (.inl hd))] at this
    cases this
  · exact absurd h (by decide)

theorem isBlank_of_startsLiteral {c : Char} (h : Lexer.startsLiteral c = true) :
    isBlank c = false := by
  rw [Bool.eq_false_iff]
  intro hb
  rw [startsLiteral_of_isBlank hb] at h
  cases h

theorem isBlank_of_isAlpha {c : Char} (h : c.isAlpha = true) : isBlank c = false := by
  rw [Bool.eq_false_iff]
  intro hb
  have hn := isNameChar_of_isBlank hb
  rw [isNameChar_iff.2 (.inl h)] at hn
  cases hn

theorem startsLiteral_of_isAlpha {c : Char} (h : c.isAlpha = true) :
    Lexer.startsLiteral c = false := by
  rw [Bool.eq_false_iff]
  intro hl
  rcases startsLiteral_iff.1 hl with hd | rfl
  · rw [isDigit_iff] at hd
    rw [isAlpha_iff, isUpper_iff, isLower_iff] at h
    omega
  · exact absurd h (by decide)

/-- A character that stands for an operator is no blank and closes nothing. -/
theorem isBlank_of_ofChar? {c : Char} {op : Operator} (h : Operator.ofChar? c = some op) :
    isBlank c = false ∧ c ≠ ')' ∧ c ≠ '!' := by
  unfold Operator.ofChar? at h
  split at h <;> first | decide | cases h

/-! ## Lower case -/

/-- The characters of a folded name. -/
def IsFolded (c : Char) : Prop :=
  c.isLower = true ∨ c.isDigit = true ∨ c = '_'

instance (c : Char) : Decidable (IsFolded c) :=
  inferInstanceAs (Decidable (_ ∨ _ ∨ _))

/-- A folded name: a small letter, then small letters, digits and underscores. -/
def IsFoldedName : List Char → Prop
  | [] => False
  | c :: cs => c.isLower = true ∧ ∀ d ∈ cs, IsFolded d

instance : (cs : List Char) → Decidable (IsFoldedName cs)
  | [] => inferInstanceAs (Decidable False)
  | _ :: _ => inferInstanceAs (Decidable (_ ∧ _))

theorem isNameChar_of_isFolded {c : Char} (h : IsFolded c) : Lexer.isNameChar c = true := by
  rw [isNameChar_iff, isAlpha_iff]
  rcases h with h | h
  · exact .inl (.inr h)
  · exact .inr h

theorem toLower_of_isFolded {c : Char} (h : IsFolded c) : c.toLower = c := by
  apply Char.toLower_eq_of_not_isUpper
  intro hu
  rw [isUpper_iff] at hu
  rcases h with hl | hd | rfl
  · rw [isLower_iff] at hl
    omega
  · rw [isDigit_iff] at hd
    omega
  · exact absurd hu (by decide)

theorem isFolded_toLower {c : Char} (h : Lexer.isNameChar c = true) : IsFolded c.toLower := by
  rcases isNameChar_iff.1 h with ha | hd | rfl
  · left
    rw [Char.isLower_toLower_eq_isAlpha, ha]
  · right; left
    rw [toLower_of_isFolded (.inr (.inl hd)), hd]
  · exact .inr (.inr rfl)

/-- Only what is a character of names folds to one. -/
theorem isNameChar_of_isFolded_toLower {c : Char} (h : IsFolded c.toLower) :
    Lexer.isNameChar c = true := by
  by_cases hu : c.isUpper = true
  · exact isNameChar_iff.2 (.inl (isAlpha_iff.2 (.inl hu)))
  · rw [Char.toLower_eq_of_not_isUpper hu] at h
    exact isNameChar_of_isFolded h

theorem isFolded_of_isNameChar_toLower {c : Char} (h : Lexer.isNameChar c.toLower = true) :
    IsFolded c.toLower := by
  have hfolded := isFolded_toLower h
  rwa [Char.toLower_toLower_eq_toLower] at hfolded

theorem lowercase_of_isFoldedName {cs : List Char} (h : IsFoldedName cs) :
    lowercase cs = cs := by
  have hfolded : ∀ c ∈ cs, IsFolded c := by
    cases cs with
    | nil => simp
    | cons c cs => exact List.forall_mem_cons.2 ⟨.inl h.1, h.2⟩
  calc cs.map Char.toLower
      _ = cs.map id := List.map_congr_left fun c hc => toLower_of_isFolded (hfolded c hc)
      _ = cs := List.map_id cs

/-! ## Runs of one class -/

/-- A text that does not go on with a character of a class. -/
def Stops (p : Char → Bool) (rest : List Char) : Prop :=
  ∀ c ∈ rest.head?, p c = false

theorem stops_nil (p : Char → Bool) : Stops p [] := by
  intro c hc
  cases hc

theorem stops_append {p : Char → Bool} {cs rest : List Char} (hcs : Stops p cs)
    (hrest : Stops p rest) : Stops p (cs ++ rest) := by
  intro c hc
  cases cs with
  | nil => exact hrest c hc
  | cons d cs => exact hcs c hc

theorem stops_dropWhile (p : Char → Bool) (cs : List Char) : Stops p (cs.dropWhile p) := by
  intro c hc
  have h := List.head?_dropWhile_not p cs
  rw [Option.mem_def.1 hc] at h
  exact h

theorem takeWhile_of_stops {p : Char → Bool} {rest : List Char} (h : Stops p rest) :
    rest.takeWhile p = [] := by
  cases rest with
  | nil => rfl
  | cons c cs => rw [List.takeWhile_cons, h c rfl]; rfl

theorem dropWhile_of_stops {p : Char → Bool} {rest : List Char} (h : Stops p rest) :
    rest.dropWhile p = rest := by
  cases rest with
  | nil => rfl
  | cons c cs => rw [List.dropWhile_cons, h c rfl]; rfl

/-- A run of a class is taken whole where it ends. -/
theorem takeWhile_run {p : Char → Bool} {run rest : List Char} (hrun : ∀ c ∈ run, p c = true)
    (hrest : Stops p rest) : (run ++ rest).takeWhile p = run := by
  rw [List.takeWhile_append_of_pos hrun, takeWhile_of_stops hrest, List.append_nil]

theorem dropWhile_run {p : Char → Bool} {run rest : List Char} (hrun : ∀ c ∈ run, p c = true)
    (hrest : Stops p rest) : (run ++ rest).dropWhile p = rest := by
  rw [List.dropWhile_append_of_pos hrun, dropWhile_of_stops hrest]

/-! ## The first character that is no blank -/

theorem head?_trimStart_append {cs : List Char} {c : Char} (h : (trimStart cs).head? = some c)
    (rest : List Char) : (trimStart (cs ++ rest)).head? = some c := by
  rw [trimStart] at h ⊢
  cases hdrop : cs.dropWhile isBlank with
  | nil =>
    rw [hdrop] at h
    cases h
  | cons d ds =>
    rw [hdrop] at h
    rw [List.dropWhile_append, hdrop]
    exact h

end Abacus
