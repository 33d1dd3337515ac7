/-
Abacus.Proofs.Evaluation.Literals — every literal of a line can be read.

The text of a number token is digits, possibly with a sign and a fraction.
The three number systems read any such text as a number, whole ones as
integers.
-/
import Abacus.NumberSystem.Decimal
import Abacus.NumberSystem.Integer
import Abacus.Proofs.Libraries
import Abacus.Proofs.Syntax.Shape

namespace Abacus

/-! ## Digits -/

theorem ne_of_isDigit {c d : Char} (h : c.isDigit = true) (hd : d.isDigit = false) : c ≠ d := by
  rintro rfl
  rw [h] at hd
  cases hd

/-- Folding to lower case keeps a digit. -/
theorem toLower_of_isDigit {c : Char} (h : c.isDigit = true) : c.toLower = c :=
  toLower_of_isFolded (.inr (.inl h))

theorem IsDigits.exists_cons {cs : List Char} (h : IsDigits cs) :
    ∃ c rest, cs = c :: rest ∧ c.isDigit = true := by
  obtain ⟨c, rest, rfl⟩ := List.exists_cons_of_ne_nil h.1
  exact ⟨c, rest, rfl, h.2 c List.mem_cons_self⟩

theorem IsMagnitude.exists_cons {decimals : Bool} {cs : List Char} (h : IsMagnitude decimals cs) :
    ∃ c rest, cs = c :: rest ∧ c.isDigit = true := by
  cases h with
  | whole h => exact h.exists_cons
  | fraction _ h _ =>
    obtain ⟨c, rest, rfl, hc⟩ := h.exists_cons
    exact ⟨c, _, rfl, hc⟩

/-! ## Numerals -/

theorem scanSign_of_isDigit {c : Char} (rest : List Char) (h : c.isDigit = true) :
    Numeral.scanSign (c :: rest) = (false, c :: rest) := by
  unfold Numeral.scanSign
  split
  · next heq => exact absurd (List.cons.inj heq).1 (ne_of_isDigit h (by decide))
  · next heq => exact absurd (List.cons.inj heq).1 (ne_of_isDigit h (by decide))
  · rfl

/-- A literal is a magnitude behind its sign. -/
theorem IsLiteral.scanSign {decimals : Bool} {text : String} (h : IsLiteral decimals text) :
    ∃ negative cs, Numeral.scanSign text.toList = (negative, cs) ∧ IsMagnitude decimals cs := by
  cases h with
  | @unsigned cs h =>
    obtain ⟨c, rest, rfl, hc⟩ := h.exists_cons
    exact ⟨false, c :: rest, by rw [String.toList_ofList, scanSign_of_isDigit rest hc], h⟩
  | @negative cs h => exact ⟨true, cs, by rw [String.toList_ofList]; rfl, h⟩

theorem IsDigits.not_isEmpty {cs : List Char} (h : IsDigits cs) : cs.isEmpty = false := by
  rw [List.isEmpty_eq_false_iff]
  exact h.1

/-- A literal is a numeral from end to end. -/
theorem IsLiteral.scanParts? {decimals : Bool} {text : String} (h : IsLiteral decimals text) :
    ∃ parts, Numeral.scanParts? text.toList = some (parts, []) := by
  obtain ⟨negative, cs, hsign, hcs⟩ := h.scanSign
  unfold Numeral.scanParts?
  rw [hsign]
  dsimp only
  cases hcs with
  | whole hcs =>
    rw [List.takeWhile_eq_self_iff.2 hcs.2, List.dropWhile_eq_nil_iff.2 hcs.2, hcs.not_isEmpty]
    exact ⟨_, rfl⟩
  | @fraction cs ds _ hcs hds =>
    have hstop : Stops Char.isDigit ('.' :: ds) := by simp [Stops, Char.isDigit]
    rw [takeWhile_run hcs.2 hstop, dropWhile_run hcs.2 hstop, hcs.not_isEmpty]
    simp only [Numeral.scanFraction, Bool.false_and]
    rw [List.takeWhile_eq_self_iff.2 hds.2, List.dropWhile_eq_nil_iff.2 hds.2]
    exact ⟨_, rfl⟩

theorem IsLiteral.read? {decimals : Bool} {text : String} (h : IsLiteral decimals text) :
    ∃ n, Numeral.read? text.toList = some n := by
  obtain ⟨parts, hparts⟩ := h.scanParts?
  exact ⟨parts.value, by rw [Numeral.read?, hparts]⟩

/-! ## The number systems -/

/-- A text that begins with a digit is no word. -/
theorem ofList_lowercase_ne {c : Char} {word : String} (rest : List Char)
    (hc : c.isDigit = true) (hword : ∀ d ∈ word.toList.head?, d.isDigit = false) :
    String.ofList (lowercase (c :: rest)) ≠ word := by
  rintro rfl
  rw [String.toList_ofList, lowercase, List.map_cons, toLower_of_isDigit hc] at hword
  exact ne_of_isDigit hc (hword c rfl) rfl

theorem Binary64.exists_read? {decimals : Bool} {text : String} (h : IsLiteral decimals text) :
    ∃ x, Binary64.read? text = some x := by
  obtain ⟨n, hn⟩ := h.read?
  obtain ⟨negative, cs, hsign, hcs⟩ := h.scanSign
  obtain ⟨c, rest, rfl, hc⟩ := hcs.exists_cons
  have hinf : String.ofList (lowercase (c :: rest)) ≠ "inf" :=
    ofList_lowercase_ne rest hc (by simp)
  have hinfinity : String.ofList (lowercase (c :: rest)) ≠ "infinity" :=
    ofList_lowercase_ne rest hc (by simp)
  have hnan : String.ofList (lowercase (c :: rest)) ≠ "nan" :=
    ofList_lowercase_ne rest hc (by simp)
  unfold Binary64.read?
  rw [hsign, hn]
  simp [hinf, hinfinity, hnan]

theorem Decimal.ofParts_ne_nan (parts : NumeralParts) : Decimal.ofParts parts ≠ .nan := by
  unfold Decimal.ofParts
  split
  · nofun
  · split
    · nofun
    · exact Format.decimal.readsNumerals.ne_nan parts.value

theorem Decimal.read_ne_nan {decimals : Bool} {text : String} (h : IsLiteral decimals text) :
    Decimal.read text ≠ .nan := by
  obtain ⟨parts, hparts⟩ := h.scanParts?
  obtain ⟨negative, cs, hsign, hcs⟩ := h.scanSign
  obtain ⟨c, rest, rfl, hc⟩ := hcs.exists_cons
  have hinf : String.ofList (lowercase ((c :: rest).take 3)) ≠ "inf" :=
    ofList_lowercase_ne (rest.take 2) hc (by simp)
  unfold Decimal.read
  rw [hsign, hparts]
  dsimp only
  rw [if_neg hinf]
  exact Decimal.ofParts_ne_nan parts

namespace NumberSystem.Integer

section

variable {cs : List Char} (h : IsDigits cs)
include h

theorem readNatural?_of_isDigits : readNatural? cs = some (digitsValue cs) := by
  obtain ⟨c, rest, hcons, hc⟩ := h.exists_cons
  have hhead : cs.head? ≠ some '_' := by
    rw [hcons]
    simpa using ne_of_isDigit hc (by decide)
  have hall : cs.all (fun c => c.isDigit || c = '_') = true := by
    rw [List.all_eq_true]
    intro d hd
    rw [h.2 d hd, Bool.true_or]
  rw [readNatural?, hall, h.not_isEmpty, List.filter_eq_self.2 h.2]
  simp [hhead]

/-- Digits are read as the number that they denote. -/
theorem read?_of_isDigits : read? cs = some (digitsValue cs : Int) := by
  obtain ⟨c, rest, hcons, hc⟩ := h.exists_cons
  have hread : read? cs = (readNatural? cs).map fun n => (n : Int) := by
    rw [hcons]
    unfold read?
    split
    · next heq => exact absurd (List.cons.inj heq).1 (ne_of_isDigit hc (by decide))
    · next heq => exact absurd (List.cons.inj heq).1 (ne_of_isDigit hc (by decide))
    · rfl
  rw [hread, readNatural?_of_isDigits h]
  rfl

theorem read?_of_minus : read? ('-' :: cs) = some (-(digitsValue cs : Int)) := by
  rw [read?, readNatural?_of_isDigits h]
  rfl

end

/-- A whole literal is an integer. -/
theorem exists_read? {text : String} (h : IsLiteral false text) :
    ∃ n, read? text.toList = some n := by
  cases h with
  | unsigned h =>
    cases h with
    | fraction hd => cases hd
    | whole h =>
      rw [String.toList_ofList]
      exact ⟨_, read?_of_isDigits h⟩
  | negative h =>
    cases h with
    | fraction hd => cases hd
    | whole h =>
      rw [String.toList_ofList]
      exact ⟨_, read?_of_minus h⟩

end NumberSystem.Integer

end Abacus
