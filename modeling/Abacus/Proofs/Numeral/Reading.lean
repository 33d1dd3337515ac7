/-
Abacus.Proofs.Numeral.Reading — what a written number is read as.

A number is written as a sign, digits, possibly a point with more digits, and
possibly an exponent.  Each number system reads such a text as the number
that its digits denote (`scanParts?_signed`); the literals of expressions are
such texts without an exponent.
-/
import Abacus.Proofs.Evaluation.Literals
import Abacus.Proofs.Floating.Powers
import Abacus.Proofs.Numeral.Digits

namespace Abacus

/-- The digits of a fraction behind the point, if there are any. -/
def pointed (fraction : List Char) : List Char :=
  if fraction.isEmpty then [] else '.' :: fraction

@[simp] theorem pointed_nil : pointed [] = [] := rfl

theorem pointed_of_ne_nil {fraction : List Char} (h : fraction ≠ []) :
    pointed fraction = '.' :: fraction := by
  rw [pointed, if_neg (by simpa using h)]

/-- An exponent behind its mark. -/
def exponentTail (e : ℤ) : List Char :=
  'E' :: (if e < 0 then '-' else '+') :: digitChars e.natAbs

/-- A signed exponent behind its mark; without a mark it is zero. -/
inductive WrittenExponent : List Char → ℤ → Prop
  | absent : WrittenExponent [] 0
  | positive {digits} : IsDigits digits →
      WrittenExponent ('E' :: '+' :: digits) (digitsValue digits)
  | negative {digits} : IsDigits digits →
      WrittenExponent ('E' :: '-' :: digits) (-digitsValue digits)

/-- A numeral as it is written: a minus sign if it is negative, digits, possibly a point with more
digits, and possibly an exponent. -/
inductive Written : List Char → Numeral → Prop
  | mk {negative whole fraction tail e} : IsDigits whole → (∀ c ∈ fraction, c.isDigit = true) →
      WrittenExponent tail e → Written (signed negative (whole ++ (pointed fraction ++ tail)))
        (NumeralParts.value ⟨negative, whole, fraction, e⟩)

/-! ## Scanning -/

theorem scanSign_signed (negative : Bool) {cs : List Char}
    (h : ∃ c rest, cs = c :: rest ∧ c.isDigit = true) :
    Numeral.scanSign (signed negative cs) = (negative, cs) := by
  obtain ⟨c, rest, rfl, hc⟩ := h
  cases negative
  · exact scanSign_of_isDigit rest hc
  · rfl

theorem stops_pointed {fraction tail : List Char} (htail : Stops Lexer.startsLiteral tail) :
    Stops Char.isDigit (pointed fraction ++ tail) := by
  rcases eq_or_ne fraction [] with rfl | hne
  · exact Lexer.Literal.stops_isDigit htail
  · rw [pointed_of_ne_nil hne]
    exact Lexer.Literal.point_notDigit _

theorem scanFraction_pointed {fraction tail : List Char} (hf : ∀ c ∈ fraction, c.isDigit = true)
    (htail : Stops Lexer.startsLiteral tail) :
    Numeral.scanFraction (pointed fraction ++ tail) = (fraction, tail) := by
  rcases eq_or_ne fraction [] with rfl | hne
  · rw [pointed_nil, List.nil_append]
    unfold Numeral.scanFraction
    split
    · exact absurd (htail '.' rfl) (by decide)
    · rfl
  · have hstop := Lexer.Literal.stops_isDigit htail
    rw [pointed_of_ne_nil hne, List.cons_append, Numeral.scanFraction, takeWhile_run hf hstop,
      dropWhile_run hf hstop]

/-- The parts of a written number. -/
theorem scanParts?_signed (negative : Bool) {whole fraction tail : List Char}
    (hw : IsDigits whole) (hf : ∀ c ∈ fraction, c.isDigit = true)
    (htail : Stops Lexer.startsLiteral tail) :
    Numeral.scanParts? (signed negative (whole ++ (pointed fraction ++ tail))) =
      some (⟨negative, whole, fraction, (Numeral.scanExponent tail).1⟩,
        (Numeral.scanExponent tail).2) := by
  have hstop : Stops Char.isDigit (pointed fraction ++ tail) := stops_pointed htail
  obtain ⟨c, rest, hcons, hc⟩ := hw.exists_cons
  unfold Numeral.scanParts?
  rw [scanSign_signed negative ⟨c, _, by rw [hcons, List.cons_append], hc⟩]
  dsimp only
  rw [takeWhile_run hw.2 hstop, dropWhile_run hw.2 hstop, scanFraction_pointed hf htail]
  simp [hw.not_isEmpty]

theorem scanExponent_nil : Numeral.scanExponent [] = (0, []) := rfl

namespace WrittenExponent

variable {tail : List Char} {e : ℤ}

theorem stops (h : WrittenExponent tail e) : Stops Lexer.startsLiteral tail := by
  cases h with
  | absent => exact stops_nil _
  | positive | negative => simp [Stops, Lexer.startsLiteral, Char.isDigit]

theorem scanExponent (h : WrittenExponent tail e) : Numeral.scanExponent tail = (e, []) := by
  cases h with
  | absent => rfl
  | positive hdigits | negative hdigits =>
    simp [Numeral.scanExponent, Numeral.scanSign, List.takeWhile_eq_self_iff.2 hdigits.2,
      List.dropWhile_eq_nil_iff.2 hdigits.2, hdigits.1]

end WrittenExponent

theorem writtenExponent_exponentTail (e : ℤ) : WrittenExponent (exponentTail e) e := by
  have hdigits := isDigits_digitChars e.natAbs
  have hvalue := digitsValue_digitChars e.natAbs
  unfold exponentTail
  split_ifs with hneg
  · have hexponent : -(digitsValue (digitChars e.natAbs) : ℤ) = e := by omega
    have hwritten := WrittenExponent.negative hdigits
    rwa [hexponent] at hwritten
  · have hexponent : (digitsValue (digitChars e.natAbs) : ℤ) = e := by omega
    have hwritten := WrittenExponent.positive hdigits
    rwa [hexponent] at hwritten

theorem stops_exponentTail (e : ℤ) : Stops Lexer.startsLiteral (exponentTail e) :=
  (writtenExponent_exponentTail e).stops

theorem scanExponent_exponentTail (e : ℤ) : Numeral.scanExponent (exponentTail e) = (e, []) :=
  (writtenExponent_exponentTail e).scanExponent

/-- A written numeral is read as itself. -/
theorem Written.read? {text : List Char} {n : Numeral} (h : Written text n) :
    Numeral.read? text = some n := by
  obtain ⟨hw, hf, htail⟩ := h
  rw [Numeral.read?, scanParts?_signed _ hw hf htail.stops, htail.scanExponent]

theorem Written.unique {text : List Char} {m n : Numeral} (hm : Written text m)
    (hn : Written text n) : m = n :=
  Option.some.inj (hm.read?.symm.trans hn.read?)

/-- A written number with nothing behind it is the numeral of its parts. -/
theorem Numeral.read?_signed (negative : Bool) {whole fraction tail : List Char}
    (hw : IsDigits whole) (hf : ∀ c ∈ fraction, c.isDigit = true)
    (htail : tail = [] ∨ ∃ e, tail = exponentTail e) :
    Numeral.read? (signed negative (whole ++ (pointed fraction ++ tail))) =
      some (NumeralParts.value ⟨negative, whole, fraction, (Numeral.scanExponent tail).1⟩) := by
  rcases htail with rfl | ⟨e, rfl⟩
  · exact (Written.mk hw hf .absent).read?
  · rw [scanExponent_exponentTail]
    exact (Written.mk hw hf (writtenExponent_exponentTail e)).read?

/-! ## The number systems -/

/-- A text that goes on with a digit behind its sign names a number, not an
infinity or NaN. -/
theorem Binary64.read?_of_isDigits (negative : Bool) {whole : List Char} (hw : IsDigits whole)
    (tail : List Char) :
    Binary64.read? (String.ofList (signed negative (whole ++ tail))) =
      (Numeral.read? (signed negative (whole ++ tail))).map Binary64.ofNumeral := by
  obtain ⟨c, rest, hcons, hc⟩ := hw.exists_cons
  have other (word : String) (hword : ∀ d ∈ word.toList.head?, d.isDigit = false) :
      String.ofList (lowercase (whole ++ tail)) ≠ word := by
    rw [hcons]
    exact ofList_lowercase_ne _ hc hword
  have hinf := other "inf" (by simp)
  have hinfinity := other "infinity" (by simp)
  have hnan := other "nan" (by simp)
  unfold Binary64.read?
  rw [String.toList_ofList, scanSign_signed negative ⟨c, _, by rw [hcons, List.cons_append], hc⟩]
  simp [hinf, hinfinity, hnan]

section Readers

variable (negative : Bool) {whole fraction tail : List Char} (hw : IsDigits whole)
  (hf : ∀ c ∈ fraction, c.isDigit = true)
include hw hf

theorem Decimal.read_signed (htail : Stops Lexer.startsLiteral tail) :
    Decimal.read (String.ofList (signed negative (whole ++ (pointed fraction ++ tail)))) =
      Decimal.ofParts ⟨negative, whole, fraction, (Numeral.scanExponent tail).1⟩ := by
  obtain ⟨c, rest, hcons, hc⟩ := hw.exists_cons
  unfold Decimal.read
  rw [String.toList_ofList, scanParts?_signed negative hw hf htail,
    scanSign_signed negative ⟨c, _, by rw [hcons, List.cons_append], hc⟩]
  dsimp only
  rw [if_neg]
  rw [hcons, List.cons_append, List.take_succ_cons]
  exact ofList_lowercase_ne _ hc (by simp)

theorem Binary64.read?_signed :
    Binary64.read? (String.ofList (signed negative (whole ++ pointed fraction))) =
      some (Binary64.ofNumeral (NumeralParts.value ⟨negative, whole, fraction, 0⟩)) := by
  have hread := Numeral.read?_signed negative hw hf (.inl rfl)
  rw [List.append_nil] at hread
  rw [read?_of_isDigits negative hw, hread]
  rfl

end Readers

theorem NumberSystem.Integer.readLiteral_signed (negative : Bool) {whole : List Char}
    (hw : IsDigits whole) :
    readLiteral (String.ofList (signed negative whole)) =
      .ok (if negative then -(digitsValue whole : ℤ) else digitsValue whole) := by
  unfold readLiteral
  rw [String.toList_ofList]
  cases negative
  · rw [signed, if_neg Bool.false_ne_true, read?_of_isDigits hw]
    rfl
  · rw [signed, if_pos rfl, read?_of_minus hw]
    rfl

/-! ## Literals -/

theorem isLiteral_signed (negative : Bool) {whole fraction : List Char} {decimals : Bool}
    (hw : IsDigits whole) (hf : ∀ c ∈ fraction, c.isDigit = true)
    (hd : fraction ≠ [] → decimals = true) :
    IsLiteral decimals (String.ofList (signed negative (whole ++ pointed fraction))) := by
  have hmagnitude : IsMagnitude decimals (whole ++ pointed fraction) := by
    rcases eq_or_ne fraction [] with rfl | hne
    · rw [pointed_nil, List.append_nil]
      exact .whole hw
    · rw [pointed_of_ne_nil hne]
      exact .fraction (hd hne) hw ⟨hne, hf⟩
  cases negative
  · exact .unsigned hmagnitude
  · exact .negative hmagnitude

/-- Every literal is a written number. -/
theorem IsLiteral.exists_signed {decimals : Bool} {text : String} (h : IsLiteral decimals text) :
    ∃ negative whole fraction, IsDigits whole ∧ (∀ c ∈ fraction, c.isDigit = true) ∧
      (fraction ≠ [] → decimals = true) ∧
      text = String.ofList (signed negative (whole ++ pointed fraction)) := by
  have hmagnitude {cs : List Char} (h : IsMagnitude decimals cs) :
      ∃ whole fraction, IsDigits whole ∧ (∀ c ∈ fraction, c.isDigit = true) ∧
        (fraction ≠ [] → decimals = true) ∧ cs = whole ++ pointed fraction := by
    cases h with
    | whole hw => exact ⟨cs, [], hw, by simp, by simp, by simp⟩
    | fraction hd hw hf =>
      exact ⟨_, _, hw, hf.2, fun _ => hd, by rw [pointed_of_ne_nil hf.1]⟩
  cases h with
  | unsigned h =>
    obtain ⟨whole, fraction, hw, hf, hd, rfl⟩ := hmagnitude h
    exact ⟨false, whole, fraction, hw, hf, hd, rfl⟩
  | negative h =>
    obtain ⟨whole, fraction, hw, hf, hd, rfl⟩ := hmagnitude h
    exact ⟨true, whole, fraction, hw, hf, hd, rfl⟩

/-! ## Plain notation -/

/-- The magnitude that digits before and behind the point denote. -/
theorem NumeralParts.magnitude_value (parts : NumeralParts) :
    parts.value.magnitude =
      digitsValue (parts.whole ++ parts.fraction) * 10 ^ (parts.exponent - parts.fraction.length) :=
  rfl

theorem strip_magnitude (c : ℕ) (e : ℤ) :
    ((Numeral.strip c e).1 : ℚ) * 10 ^ (Numeral.strip c e).2 = c * 10 ^ e := by
  induction c, e using Numeral.strip.induct with
  | case1 c e h ih =>
    rw [Numeral.strip, dif_pos h, ih, zpow_add_one₀ (by norm_num)]
    have hsplit : ((c / 10 * 10 : ℕ) : ℚ) = c := by
      exact_mod_cast Nat.div_mul_cancel (Nat.dvd_of_mod_eq_zero h.2)
    push_cast at hsplit
    rw [← hsplit]
    ring
  | case2 c e h => rw [Numeral.strip, dif_neg h]

theorem strip_le (c : ℕ) (e : ℤ) : (Numeral.strip c e).1 ≤ c := by
  induction c, e using Numeral.strip.induct with
  | case1 c e h ih =>
    rw [Numeral.strip, dif_pos h]
    exact ih.trans (Nat.div_le_self c 10)
  | case2 c e h => rw [Numeral.strip, dif_neg h]

/-- What is left has no zero at its end. -/
theorem strip_mod_ten {c : ℕ} (hc : c ≠ 0) (e : ℤ) : (Numeral.strip c e).1 % 10 ≠ 0 := by
  induction c, e using Numeral.strip.induct with
  | case1 c e h ih =>
    rw [Numeral.strip, dif_pos h]
    exact ih (by omega)
  | case2 c e h =>
    rw [Numeral.strip, dif_neg h]
    exact fun hmod => h ⟨hc, hmod⟩

theorem digitsValue_pointBefore (places : ℕ) (hp : 0 < places) {digits : List Char}
    (h : IsDigits digits) :
    ∃ whole fraction, Numeral.pointBefore places digits = whole ++ pointed fraction ∧
      IsDigits whole ∧ (∀ d ∈ fraction, d.isDigit = true) ∧ fraction.length = places ∧
      digitsValue (whole ++ fraction) = digitsValue digits := by
  unfold Numeral.pointBefore
  split_ifs with hlt
  · have hlength : (digits.drop (digits.length - places)).length = places := by
      rw [List.length_drop]
      omega
    refine ⟨digits.take (digits.length - places), digits.drop (digits.length - places), ?_,
      ⟨?_, fun d hd => h.2 d (List.mem_of_mem_take hd)⟩,
      fun d hd => h.2 d (List.mem_of_mem_drop hd), hlength, ?_⟩
    · rw [pointed_of_ne_nil (List.ne_nil_of_length_pos (by omega))]
    · exact List.ne_nil_of_length_pos (by rw [List.length_take]; omega)
    · rw [List.take_append_drop]
  · refine ⟨['0'], zeros (places - digits.length) ++ digits, ?_, ⟨by simp, by simp⟩, ?_, ?_, ?_⟩
    · rw [pointed_of_ne_nil (by simp [h.1])]
      rfl
    · exact List.forall_mem_append.2 ⟨fun _ => isDigit_of_mem_zeros, h.2⟩
    · rw [List.length_append, length_zeros]
      omega
    · rw [digitsValue_append, digitsValue_append, digitsValue_zeros]
      simp [digitsValue_singleton]

/-- The positional text of a magnitude denotes it.  Zeros at the end are only added to whole
numbers. -/
theorem plainMagnitude_denotes (c : ℕ) (e : ℤ) :
    ∃ whole fraction, Numeral.plainMagnitude c e = whole ++ pointed fraction ∧
      IsDigits whole ∧ (∀ d ∈ fraction, d.isDigit = true) ∧
      (digitsValue (whole ++ fraction) : ℚ) * 10 ^ (-(fraction.length : ℤ)) = c * 10 ^ e ∧
      (fraction = [] ∨ digitsValue (whole ++ fraction) ≤ c) := by
  have hle := strip_le c e
  rw [← strip_magnitude]
  unfold Numeral.plainMagnitude
  generalize Numeral.strip c e = stripped at hle ⊢
  obtain ⟨c', e⟩ := stripped
  dsimp only at hle ⊢
  split_ifs with hzero he
  · exact ⟨['0'], [], rfl, ⟨by simp, by simp⟩, by simp, by simp [hzero, digitsValue_singleton],
      .inl rfl⟩
  · obtain ⟨hne, hdigits⟩ := isDigits_digitChars c'
    refine ⟨digitChars c' ++ zeros e.toNat, [], by simp, ⟨by simp [hne], ?_⟩, by simp, ?_, .inl rfl⟩
    · exact List.forall_mem_append.2 ⟨hdigits, fun _ => isDigit_of_mem_zeros⟩
    · rw [List.append_nil, digitsValue_append, digitsValue_digitChars, digitsValue_zeros,
        length_zeros, List.length_nil]
      push_cast
      rw [mul_one, add_zero, ← zpow_natCast, Int.toNat_of_nonneg he]
  · obtain ⟨whole, fraction, htext, hw, hf, hlength, hvalue⟩ :=
      digitsValue_pointBefore (-e).toNat (by omega) (isDigits_digitChars c')
    rw [digitsValue_digitChars] at hvalue
    refine ⟨whole, fraction, htext, hw, hf, ?_, .inr (hvalue.trans_le hle)⟩
    rw [hvalue, hlength, Int.toNat_of_nonneg (by omega), neg_neg]

/-- A whole number is written as its digits. -/
theorem plainMagnitude_of_nat {c n : ℕ} {e : ℤ} (h : (c : ℚ) * 10 ^ e = n) :
    Numeral.plainMagnitude c e = digitChars n := by
  have hmod {c : ℕ} (hc : c ≠ 0) := strip_mod_ten hc e
  have hc0 : (c = 0) ↔ n = 0 := by
    have hpow : (10 : ℚ) ^ e ≠ 0 := zpow_ne_zero _ (by norm_num)
    constructor
    · rintro rfl
      rw [Nat.cast_zero, zero_mul] at h
      exact_mod_cast h.symm
    · rintro rfl
      rw [Nat.cast_zero, mul_eq_zero] at h
      exact_mod_cast h.resolve_right hpow
  rcases Nat.eq_zero_or_pos c with hzero | hpos
  · rw [hc0.1 hzero, hzero]
    rw [Numeral.plainMagnitude, Numeral.strip, dif_neg (by simp)]
    rfl
  · specialize hmod hpos.ne'
    rw [← strip_magnitude] at h
    unfold Numeral.plainMagnitude
    generalize Numeral.strip c e = stripped at h hmod
    obtain ⟨c', e'⟩ := stripped
    dsimp only at h hmod ⊢
    have hc' : 0 < c' := by omega
    rw [if_neg hc'.ne']
    split_ifs with he
    · rw [← digitChars_mul_pow hc']
      congr 1
      rw [← Int.toNat_of_nonneg he, zpow_natCast] at h
      exact_mod_cast h
    · -- with a fraction the digits would end in a zero
      exfalso
      have hmul : (c' : ℚ) = n * 10 ^ (-e').toNat := by
        rw [← h, ← zpow_natCast, Int.toNat_of_nonneg (by omega), mul_assoc,
          ← zpow_add₀ (by norm_num)]
        simp
      have hnat : c' = n * 10 ^ (-e').toNat := by exact_mod_cast hmul
      have hdvd : 10 ∣ 10 ^ (-e').toNat := dvd_pow_self 10 (by omega)
      exact hmod (Nat.mod_eq_zero_of_dvd (hnat ▸ Dvd.dvd.mul_left hdvd n))

end Abacus
