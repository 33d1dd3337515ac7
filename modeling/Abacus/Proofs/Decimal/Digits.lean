/-
Abacus.Proofs.Decimal.Digits — what rounding and laying out digits does.

A digit string with a point denotes a magnitude (`positional`).  Rounding it
gives the magnitude of at most `count` digits nearest to that one, a tie going
up (`roundDigits_spec`), in digits without zeros at either end.  Such digits
are determined by their magnitude, so a text is determined by the magnitude it
was laid out for.
-/
import Abacus.Decimal.Digits
import Abacus.Proofs.Decimal.Nearest
import Abacus.Proofs.Numeral.Shortest

namespace Abacus.Decimal

/-! ## Digit strings with a point -/

/-- The magnitude `0.d₁d₂… * 10 ^ point`. -/
def positional (digits : List Char) (point : ℤ) : ℚ :=
  digitsValue digits * 10 ^ (point - digits.length)

/-- Digits that do not begin with a zero. -/
structure Leading (digits : List Char) : Prop where
  isDigits : IsDigits digits
  head : digits.head? ≠ some '0'

/-- Digits that neither begin nor end with a zero. -/
structure Trimmed (digits : List Char) : Prop extends Leading digits where
  last : digits.getLast? ≠ some '0'

theorem leading_digitChars {n : ℕ} (hn : 0 < n) : Leading (digitChars n) :=
  ⟨isDigits_digitChars n, head?_digitChars hn⟩

namespace Leading

variable {digits : List Char}

theorem le_digitsValue (h : Leading digits) : 10 ^ (digits.length - 1) ≤ digitsValue digits := by
  have hpos := List.length_pos_iff.2 h.isDigits.1
  rw [← not_lt]
  intro hlt
  rcases Nat.eq_zero_or_pos (digits.length - 1) with hone | hlen
  · rw [hone, pow_zero, Nat.lt_one_iff] at hlt
    have := digitChars_digitsValue h.isDigits h.head
    rw [hlt] at this
    exact h.head (by rw [← this]; rfl)
  · have := (length_digitChars_le_iff hlen).2 hlt
    rw [digitChars_digitsValue h.isDigits h.head] at this
    omega

/-- A string whose number needs its first digit begins with another one than
zero. -/
theorem of_le (h : IsDigits digits) (hle : 10 ^ (digits.length - 1) ≤ digitsValue digits) :
    Leading digits := by
  refine ⟨h, fun hhead => ?_⟩
  obtain ⟨c, cs, rfl, -⟩ := h.exists_cons
  obtain rfl : c = '0' := by simpa using hhead
  have hlt := digitsValue_lt (List.forall_mem_cons.1 h.2).2
  rw [digitsValue_cons] at hle
  simp only [List.length_cons, Nat.add_sub_cancel, Char.reduceToNat, Nat.sub_self, zero_mul,
    zero_add] at hle
  omega

theorem digitsValue_pos (h : Leading digits) : 0 < digitsValue digits :=
  (Nat.pow_pos (by norm_num)).trans_le h.le_digitsValue

theorem positional_pos (h : Leading digits) (point : ℤ) : 0 < positional digits point :=
  mul_pos (by exact_mod_cast h.digitsValue_pos) (ten_zpow_pos _)

/-- The point stands where the magnitude has it. -/
theorem log_positional (h : Leading digits) (point : ℤ) :
    Int.log 10 (positional digits point) + 1 = point := by
  have hpos := List.length_pos_iff.2 h.isDigits.1
  have hle : ((10 : ℚ) ^ ((digits.length - 1 : ℕ) : ℤ)) ≤ digitsValue digits := by
    exact_mod_cast h.le_digitsValue
  have hlt : (digitsValue digits : ℚ) < 10 ^ (digits.length : ℤ) := by
    exact_mod_cast digitsValue_lt h.isDigits.2
  refine log_ten_add_one_eq ?_ ?_
  · rw [show point - 1 = ((digits.length - 1 : ℕ) : ℤ) + (point - digits.length) by omega,
      ten_zpow_add]
    exact mul_le_mul_of_nonneg_right hle (ten_zpow_pos _).le
  · calc
      positional digits point < 10 ^ (digits.length : ℤ) * 10 ^ (point - digits.length) :=
        mul_lt_mul_of_pos_right hlt (ten_zpow_pos _)
      _ = 10 ^ point := by rw [← ten_zpow_add]; congr 1; ring

/-- Digits denote a whole number of the units of as many places or more. -/
theorem eq_mul_place (h : Leading digits) {count : ℕ} (hlength : digits.length ≤ count)
    (point : ℤ) : positional digits point =
      (digitsValue digits * 10 ^ (count - digits.length) : ℕ) *
        10 ^ place count (positional digits point) := by
  rw [place, h.log_positional, positional]
  push_cast
  rw [mul_assoc, ← zpow_natCast, Nat.cast_sub hlength, ← ten_zpow_add]
  congr 2
  ring

end Leading

/-! ## Zeros at the end -/

theorem positional_append_zeros (digits : List Char) (k : ℕ) (point : ℤ) :
    positional (digits ++ zeros k) point = positional digits point := by
  unfold positional
  rw [digitsValue_append, digitsValue_zeros, length_zeros, List.length_append, length_zeros]
  push_cast
  rw [add_zero, mul_assoc, ← zpow_natCast, ← ten_zpow_add]
  congr 2
  ring

theorem dropTrailingZeros_append (digits : List Char) :
    ∃ k, digits = dropTrailingZeros digits ++ zeros k := by
  refine ⟨(digits.reverse.takeWhile (· = '0')).length, ?_⟩
  have hzeros : digits.reverse.takeWhile (· = '0') =
      zeros (digits.reverse.takeWhile (· = '0')).length := by
    rw [zeros, List.eq_replicate_iff]
    refine ⟨rfl, fun c hc => ?_⟩
    simpa using List.mem_takeWhile_imp hc
  calc
    digits =
        (digits.reverse.takeWhile (· = '0') ++ digits.reverse.dropWhile (· = '0')).reverse := by
      rw [List.takeWhile_append_dropWhile, List.reverse_reverse]
    _ = _ := by
      rw [List.reverse_append, dropTrailingZeros, hzeros, zeros, List.reverse_replicate,
        ← zeros, length_zeros]

theorem getLast?_append_zeros (digits : List Char) (k : ℕ) :
    (digits ++ zeros (k + 1)).getLast? = some '0' := by
  rw [zeros, List.replicate_succ', ← List.append_assoc, List.getLast?_concat]

/-- Digits that do not end with a zero are kept. -/
theorem dropTrailingZeros_of_getLast? {digits : List Char} (h : digits.getLast? ≠ some '0') :
    dropTrailingZeros digits = digits := by
  obtain ⟨k, hk⟩ := dropTrailingZeros_append digits
  cases k with
  | zero => rw [zeros, List.replicate_zero, List.append_nil] at hk; exact hk.symm
  | succ k => exact absurd (by rw [hk, getLast?_append_zeros]) h

theorem getLast?_dropTrailingZeros (digits : List Char) :
    (dropTrailingZeros digits).getLast? ≠ some '0' := by
  intro h
  rw [dropTrailingZeros, List.getLast?_reverse] at h
  have := List.head?_dropWhile_not (fun c : Char => decide (c = '0')) digits.reverse
  rw [h] at this
  simp at this

/-- Dropping the zeros at the end keeps the magnitude. -/
theorem Leading.trimmed {digits : List Char} (h : Leading digits) (point : ℤ) :
    Trimmed (dropTrailingZeros digits) ∧ (dropTrailingZeros digits).length ≤ digits.length ∧
      positional (dropTrailingZeros digits) point = positional digits point := by
  obtain ⟨k, hk⟩ := dropTrailingZeros_append digits
  have hne : dropTrailingZeros digits ≠ [] := by
    intro hnil
    rw [hnil, List.nil_append] at hk
    cases k with
    | zero => exact h.isDigits.1 hk
    | succ k => exact h.head (by rw [hk]; rfl)
  refine ⟨⟨⟨⟨hne, fun c hc => h.isDigits.2 c ?_⟩, ?_⟩, getLast?_dropTrailingZeros digits⟩, ?_, ?_⟩
  · rw [hk]
    exact List.mem_append_left _ hc
  · have := h.head
    rwa [hk, List.head?_append_of_ne_nil _ hne] at this
  · rw [congrArg List.length hk, List.length_append]
    exact Nat.le_add_right _ _
  · rw [congrArg (positional · point) hk, positional_append_zeros]

/-- Digits without zeros at their ends are determined by their magnitude. -/
theorem Trimmed.unique {cs ds : List Char} {p q : ℤ} (hcs : Trimmed cs) (hds : Trimmed ds)
    (h : positional cs p = positional ds q) : cs = ds ∧ p = q := by
  have hpoint : p = q := by
    rw [← hcs.log_positional p, ← hds.log_positional q, h]
  subst hpoint
  -- padded to one length they denote the same number
  have pad {cs ds : List Char} (hcs : Trimmed cs) (hds : Trimmed ds)
      (h : positional cs p = positional ds p) (hle : cs.length ≤ ds.length) : cs = ds := by
    obtain ⟨k, hk⟩ := Nat.exists_eq_add_of_le hle
    have hlength : (cs ++ zeros k).length = ds.length := by simp [hk]
    have hdigits : ∀ c ∈ cs ++ zeros k, c.isDigit = true :=
      List.forall_mem_append.2 ⟨hcs.isDigits.2, fun _ => isDigit_of_mem_zeros⟩
    have hvalue : digitsValue (cs ++ zeros k) = digitsValue ds := by
      rw [← positional_append_zeros cs k] at h
      unfold positional at h
      rw [hlength] at h
      exact_mod_cast mul_right_cancel₀ (ten_zpow_pos _).ne' h
    have heq := eq_of_digitsValue_eq hdigits hds.isDigits.2 hlength hvalue
    cases k with
    | zero => simpa [zeros] using heq
    | succ k =>
      refine absurd ?_ hds.last
      rw [← heq, getLast?_append_zeros]
  rcases le_total cs.length ds.length with hle | hle
  · exact ⟨pad hcs hds h hle, rfl⟩
  · exact ⟨(pad hds hcs h.symm hle).symm, rfl⟩

/-! ## Rounding -/

/-- The next number of the same length, or zeros and a carry. -/
theorem increment_spec {cs : List Char} (h : ∀ c ∈ cs, c.isDigit = true) :
    (increment cs).1.length = cs.length ∧ (∀ c ∈ (increment cs).1, c.isDigit = true) ∧
      digitsValue (increment cs).1 + (if (increment cs).2 then 10 ^ cs.length else 0) =
        digitsValue cs + 1 := by
  induction cs with
  | nil => simp [increment]
  | cons c cs ih =>
    obtain ⟨hc, hcs⟩ := List.forall_mem_cons.1 h
    obtain ⟨hlength, hdigits, hvalue⟩ := ih hcs
    have hc' := isDigit_iff.1 hc
    rw [increment]
    generalize increment cs = next at hlength hdigits hvalue
    obtain ⟨ds, carry⟩ := next
    dsimp only at hlength hdigits hvalue
    cases carry with
    | false =>
      simp only [Bool.false_eq_true, if_false, add_zero] at hvalue ⊢
      refine ⟨by simp [hlength], List.forall_mem_cons.2 ⟨hc, hdigits⟩, ?_⟩
      rw [digitsValue_cons, digitsValue_cons, hlength, hvalue]
      ring
    | true =>
      simp only [if_true] at hvalue
      dsimp only
      by_cases hnine : c = '9'
      · -- nine rolls over, and carries on
        simp only [if_pos hnine]
        subst hnine
        refine ⟨by simp [hlength], List.forall_mem_cons.2 ⟨rfl, hdigits⟩, ?_⟩
        simp only [if_true, digitsValue_cons, List.length_cons, hlength, Char.reduceToNat]
        rw [pow_succ]
        omega
      · have hlt : c.toNat < 57 := hc'.2.lt_of_ne fun h => hnine (Char.toNat_inj.1 h)
        have hnext : (nextDigit c).toNat = c.toNat + 1 := by
          unfold nextDigit
          rw [Char.toNat_ofNat, if_pos (by left; omega)]
        simp only [if_neg hnine]
        refine ⟨by simp [hlength], List.forall_mem_cons.2 ⟨isDigit_iff.2 ⟨by omega, by omega⟩,
          hdigits⟩, ?_⟩
        simp only [Bool.false_eq_true, if_false, add_zero, digitsValue_cons, hlength, hnext]
        rw [show c.toNat + 1 - 48 = c.toNat - 48 + 1 by omega, add_mul, one_mul]
        omega

/-- The digits after an increment; a carry out of the first one moves the
point. -/
def carryOut (next : List Char × Bool) (point : ℤ) : List Char × ℤ :=
  match next with
  | (kept, false) => (dropTrailingZeros kept, point)
  | (kept, true) => (dropTrailingZeros (('1' :: kept).dropLast), point + 1)

theorem carryOut_increment {kept : List Char} (h : Leading kept) (point : ℤ) :
    Trimmed (carryOut (increment kept) point).1 ∧
      (carryOut (increment kept) point).1.length ≤ kept.length ∧
      positional (carryOut (increment kept) point).1 (carryOut (increment kept) point).2 =
        (digitsValue kept + 1 : ℕ) * 10 ^ (point - kept.length) := by
  have hlt := digitsValue_lt h.isDigits.2
  have hpos := List.length_pos_iff.2 h.isDigits.1
  obtain ⟨hlength, hdigits, hvalue⟩ := increment_spec h.isDigits.2
  generalize increment kept = next at hlength hdigits hvalue
  obtain ⟨up, carry⟩ := next
  dsimp only at hlength hdigits hvalue
  cases carry with
  | false =>
    simp only [Bool.false_eq_true, if_false, add_zero] at hvalue
    have hup : Leading up := by
      refine Leading.of_le ⟨List.ne_nil_of_length_pos (by omega), hdigits⟩ ?_
      rw [hlength, hvalue]
      exact h.le_digitsValue.trans (Nat.le_succ _)
    obtain ⟨htrimmed, hle, heq⟩ := hup.trimmed point
    refine ⟨htrimmed, hle.trans hlength.le, ?_⟩
    rw [carryOut, heq, positional, hlength, hvalue]
  | true =>
    -- the digits were all nines
    simp only [if_true] at hvalue
    have hzero : digitsValue up = 0 := by omega
    have hall : digitsValue kept + 1 = 10 ^ kept.length := by omega
    have hupzeros : up = zeros kept.length := by
      refine eq_of_digitsValue_eq hdigits (fun _ => isDigit_of_mem_zeros) ?_ ?_
      · rw [hlength, length_zeros]
      · rw [hzero, digitsValue_zeros]
    have hone : ('1' :: up).dropLast = ['1'] ++ zeros (kept.length - 1) := by
      rw [hupzeros, zeros, zeros, List.dropLast_cons_of_ne_nil (by simpa using h.isDigits.1),
        List.dropLast_replicate]
      rfl
    have hup : Leading (['1'] ++ zeros (kept.length - 1)) := by
      refine ⟨⟨by simp, ?_⟩, by simp⟩
      exact List.forall_mem_append.2 ⟨by simp, fun _ => isDigit_of_mem_zeros⟩
    obtain ⟨htrimmed, hle, heq⟩ := hup.trimmed (point + 1)
    rw [carryOut, hone]
    refine ⟨htrimmed, hle.trans ?_, ?_⟩
    · rw [List.length_append, length_zeros, List.length_singleton]
      omega
    · rw [heq, positional_append_zeros, hall, positional, digitsValue_singleton]
      push_cast
      rw [← zpow_natCast, ← ten_zpow_add]
      simp

/-- The quotient by a power of ten is rounded by the first digit dropped. -/
theorem round_up_digits {kept rest : List Char} {next : Char}
    (h : ∀ c ∈ next :: rest, c.isDigit = true) :
    Tie.up.round ((digitsValue (kept ++ next :: rest) : ℚ) / 10 ^ (next :: rest).length) =
      if next < '5' then digitsValue kept else digitsValue kept + 1 := by
  obtain ⟨hnext, hrest⟩ := List.forall_mem_cons.1 h
  have hlt := digitsValue_lt hrest
  have hdigit := isDigit_iff.1 hnext
  set p := 10 ^ rest.length with hp
  have hppos : 0 < p := by positivity
  have hfive : next < '5' ↔ next.toNat < 53 := Iff.rfl
  have hsplit : digitsValue (kept ++ next :: rest) =
      digitsValue kept * (10 * p) + ((next.toNat - 48) * p + digitsValue rest) := by
    rw [digitsValue_append, digitsValue_cons, List.length_cons, pow_succ, ← hp, mul_comm 10 p]
  have hden : (10 : ℚ) ^ (next :: rest).length = ((10 * p : ℕ) : ℚ) := by
    rw [List.length_cons, pow_succ, hp]
    push_cast
    ring
  rw [hden, ← roundDiv_eq_round _ _ (by positivity), hsplit]
  set tail := (next.toNat - 48) * p + digitsValue rest with htail
  have htaillt : tail < 10 * p := by
    calc
      tail < (next.toNat - 48) * p + p := by omega
      _ = (next.toNat - 48 + 1) * p := by ring
      _ ≤ 10 * p := Nat.mul_le_mul_right _ (by omega)
  unfold roundDiv
  rw [Nat.mul_comm (digitsValue kept), Nat.mul_add_div (by positivity), Nat.div_eq_of_lt htaillt,
    add_zero, Nat.mul_add_mod, Nat.mod_eq_of_lt htaillt]
  simp only [Tie.resolve, hfive]
  by_cases hsmall : next.toNat < 53
  · have : 2 * tail < 10 * p := by
      have : (next.toNat - 48) * p ≤ 4 * p := Nat.mul_le_mul_right _ (by omega)
      omega
    rw [if_pos this, if_pos hsmall]
  · have : 10 * p ≤ 2 * tail := by
      have : 5 * p ≤ (next.toNat - 48) * p := Nat.mul_le_mul_right _ (by omega)
      omega
    rw [if_neg (by omega), if_neg hsmall]
    split_ifs <;> rfl

theorem roundDigits_of_length_le {digits : List Char} {count : ℕ} (h : digits.length ≤ count)
    (point : ℤ) : roundDigits digits point count = (dropTrailingZeros digits, point) := by
  unfold roundDigits
  rw [List.drop_eq_nil_iff.2 h]

theorem roundDigits_append (kept : List Char) (next : Char) (rest : List Char) (point : ℤ) :
    roundDigits (kept ++ next :: rest) point kept.length =
      if next < '5' then (dropTrailingZeros kept, point) else carryOut (increment kept) point := by
  unfold roundDigits
  rw [List.drop_left, List.take_left]
  rfl

theorem Leading.of_append {kept rest : List Char} (h : Leading (kept ++ rest)) (hne : kept ≠ []) :
    Leading kept := by
  refine ⟨⟨hne, fun c hc => h.isDigits.2 c (List.mem_append_left _ hc)⟩, ?_⟩
  have hhead := h.head
  rwa [List.head?_append_of_ne_nil _ hne] at hhead

/-- The nearest magnitude is found by rounding where the digits are cut off. -/
theorem nearest_positional_append {kept rest : List Char} (h : Leading (kept ++ rest))
    (point : ℤ) :
    nearest kept.length (positional (kept ++ rest) point) =
      Tie.up.round ((digitsValue (kept ++ rest) : ℚ) / 10 ^ rest.length) *
        10 ^ (point - kept.length) := by
  have hplace : place kept.length (positional (kept ++ rest) point) = point - kept.length := by
    unfold place
    rw [h.log_positional]
  have hquot : positional (kept ++ rest) point / 10 ^ (point - kept.length) =
      digitsValue (kept ++ rest) / 10 ^ rest.length := by
    rw [positional, mul_div_assoc, ← zpow_sub₀ (by norm_num), div_eq_mul_inv, ← zpow_natCast,
      ← zpow_neg, List.length_append]
    push_cast
    congr 2
    ring
  rw [nearest, hplace, hquot]

/-- Rounding digits gives the nearest magnitude of at most `count` digits. -/
theorem roundDigits_spec {digits : List Char} (h : Leading digits) (point : ℤ) {count : ℕ}
    (hcount : 0 < count) :
    Trimmed (roundDigits digits point count).1 ∧
      (roundDigits digits point count).1.length ≤ count ∧
      positional (roundDigits digits point count).1 (roundDigits digits point count).2 =
        nearest count (positional digits point) := by
  rcases le_or_gt digits.length count with hshort | hlong
  · -- nothing is dropped
    have hpos := h.positional_pos point
    have hself : nearest count (positional digits point) = positional digits point := by
      refine nearest_eq_of_close hpos (h.eq_mul_place hshort point) ?_
      rw [sub_self, abs_zero]
      positivity
    obtain ⟨htrimmed, hle, hvalue⟩ := h.trimmed point
    rw [roundDigits_of_length_le hshort, hself]
    exact ⟨htrimmed, hle.trans hshort, hvalue⟩
  · obtain ⟨kept, next, rest, rfl, rfl⟩ :
        ∃ kept next rest, digits = kept ++ next :: rest ∧ kept.length = count := by
      refine ⟨digits.take count, digits[count], digits.drop (count + 1), ?_, ?_⟩
      · rw [← List.drop_eq_getElem_cons hlong, List.take_append_drop]
      · rw [List.length_take, min_eq_left hlong.le]
    have hdropped : ∀ c ∈ next :: rest, c.isDigit = true :=
      fun c hc => h.isDigits.2 c (List.mem_append_right _ hc)
    have hleading : Leading kept := h.of_append (List.ne_nil_of_length_pos hcount)
    rw [nearest_positional_append h, round_up_digits hdropped, roundDigits_append]
    split_ifs with hfive
    · exact hleading.trimmed point
    · exact carryOut_increment hleading point

theorem roundDigits?_eq_some_iff {digits kept : List Char} {point moved : ℤ} {count : ℕ} :
    roundDigits? digits point count = some (kept, moved) ↔
      roundDigits digits point count = (kept, moved) ∧ Word.integer? moved = some moved := by
  rw [roundDigits?]
  generalize roundDigits digits point count = result
  obtain ⟨kept', moved'⟩ := result
  simp only [Option.map_eq_some_iff, Word.integer?_eq_some_iff, Prod.mk.injEq, and_true]
  constructor
  · rintro ⟨_, ⟨hfits, rfl⟩, rfl, rfl⟩
    exact ⟨⟨rfl, rfl⟩, hfits⟩
  · rintro ⟨⟨rfl, rfl⟩, hfits⟩
    exact ⟨_, ⟨hfits, rfl⟩, rfl, rfl⟩

/-! ## Layout -/

/-- Digits with a point behind some of them, or behind zeros. -/
theorem pointAfter_denotes {digits : List Char} (h : Leading digits) (places : ℕ)
    (hplaces : 0 < places) :
    ∃ whole fraction, pointAfter places digits = whole ++ pointed fraction ∧
      IsDigits whole ∧ (∀ c ∈ fraction, c.isDigit = true) ∧
      digitsValue (whole ++ fraction) < 10 ^ max places digits.length ∧
      (digitsValue (whole ++ fraction) : ℚ) * 10 ^ (-(fraction.length : ℤ)) =
        positional digits places := by
  obtain ⟨hne, hdigits⟩ := h.isDigits
  unfold pointAfter
  split_ifs with hle
  · have hpadded : ∀ c ∈ digits ++ zeros (places - digits.length), c.isDigit = true :=
      List.forall_mem_append.2 ⟨hdigits, fun _ => isDigit_of_mem_zeros⟩
    refine ⟨digits ++ zeros (places - digits.length), [], by simp, ⟨by simp [hne], hpadded⟩,
      by simp, ?_, ?_⟩
    · rw [List.append_nil, max_eq_left hle]
      have := digitsValue_lt hpadded
      rwa [List.length_append, length_zeros, Nat.add_sub_cancel' hle] at this
    · rw [List.append_nil, digitsValue_append, digitsValue_zeros, length_zeros, positional]
      push_cast
      rw [add_zero, ← zpow_natCast, Nat.cast_sub hle]
      simp
  · have hpos : 0 < (digits.drop places).length := by
      rw [List.length_drop]
      omega
    refine ⟨digits.take places, digits.drop places, ?_, ⟨?_, ?_⟩, ?_, ?_, ?_⟩
    · rw [pointed_of_ne_nil (List.ne_nil_of_length_pos hpos)]
    · exact List.ne_nil_of_length_pos (by rw [List.length_take]; omega)
    · exact fun c hc => hdigits c (List.mem_of_mem_take hc)
    · exact fun c hc => hdigits c (List.mem_of_mem_drop hc)
    · rw [List.take_append_drop, max_eq_right (by omega)]
      exact digitsValue_lt hdigits
    · rw [List.take_append_drop, List.length_drop, positional, Nat.cast_sub (by omega)]
      congr 2
      ring

/-- In plain notation a text denotes the magnitude it was laid out for. -/
theorem layout_plain {digits : List Char} (h : Leading digits) {point : ℤ} (negative : Bool)
    {count : ℕ} (hplain : isPlain point count = true) :
    ∃ whole fraction, layout digits point negative count =
        signed negative (whole ++ pointed fraction) ∧
      IsDigits whole ∧ (∀ c ∈ fraction, c.isDigit = true) ∧
      digitsValue (whole ++ fraction) < 10 ^ max count digits.length ∧
      (digitsValue (whole ++ fraction) : ℚ) * 10 ^ (-(fraction.length : ℤ)) =
        positional digits point := by
  have hpoint : point ≤ count := by
    rw [isPlain, Bool.and_eq_true, decide_eq_true_eq, decide_eq_true_eq] at hplain
    exact hplain.2
  have hlayout : layout digits point negative count =
      signed negative (if 0 < point then pointAfter point.toNat digits
        else '0' :: '.' :: (zeros (-point).toNat ++ digits)) := by
    unfold layout
    rw [hplain]
    rfl
  rw [hlayout]
  split_ifs with hpos
  · obtain ⟨whole, fraction, htext, hw, hf, hlt, hvalue⟩ :=
      pointAfter_denotes h point.toNat (by omega)
    rw [Int.toNat_of_nonneg hpos.le] at hvalue
    exact ⟨whole, fraction, by rw [htext], hw, hf,
      hlt.trans_le (Nat.pow_le_pow_right (by norm_num) (by omega)), hvalue⟩
  · obtain ⟨hne, hdigits⟩ := h.isDigits
    have hvalue : digitsValue (['0'] ++ (zeros (-point).toNat ++ digits)) = digitsValue digits := by
      rw [digitsValue_append, digitsValue_append, digitsValue_zeros, digitsValue_singleton]
      simp
    refine ⟨['0'], zeros (-point).toNat ++ digits, ?_, ⟨by simp, by simp⟩, ?_, ?_, ?_⟩
    · rw [pointed_of_ne_nil (by simp [hne])]
      rfl
    · exact List.forall_mem_append.2 ⟨fun _ => isDigit_of_mem_zeros, hdigits⟩
    · rw [hvalue]
      exact (digitsValue_lt hdigits).trans_le
        (Nat.pow_le_pow_right (by norm_num) (le_max_right _ _))
    · rw [hvalue, List.length_append, length_zeros, positional]
      push_cast
      rw [Int.toNat_of_nonneg (by omega)]
      congr 2
      ring

theorem scientific_cons (c : Char) (cs : List Char) (e : ℤ) :
    scientific (c :: cs) e = [c] ++ (pointed cs ++ exponentTail e) := by
  have hmantissa : (if (c :: cs).length = 1 then c :: cs
      else (c :: cs).take 1 ++ '.' :: (c :: cs).drop 1) = [c] ++ pointed cs := by
    rcases eq_or_ne cs [] with rfl | hne
    · simp
    · rw [pointed_of_ne_nil hne, if_neg (by simpa using hne)]
      rfl
  rw [scientific, hmantissa, List.append_assoc]
  rfl

/-- With an exponent a text denotes the magnitude it was laid out for. -/
theorem layout_scientific {digits : List Char} (h : Leading digits) {point : ℤ} (negative : Bool)
    {count : ℕ} (hplain : isPlain point count = false) :
    ∃ whole fraction, layout digits point negative count =
        signed negative (whole ++ (pointed fraction ++ exponentTail (point - 1))) ∧
      IsDigits whole ∧ (∀ c ∈ fraction, c.isDigit = true) ∧ whole ++ fraction = digits ∧
      (digitsValue digits : ℚ) * 10 ^ (point - 1 - fraction.length) = positional digits point := by
  obtain ⟨c, cs, rfl, hc⟩ := h.isDigits.exists_cons
  have hcs := (List.forall_mem_cons.1 h.isDigits.2).2
  refine ⟨[c], cs, ?_, ⟨by simp, by simpa using hc⟩, hcs, rfl, ?_⟩
  · unfold layout
    rw [hplain, Bool.not_false, if_pos rfl, scientific_cons]
    rfl
  · rw [positional, List.length_cons]
    push_cast
    congr 2
    ring

/-- A text is written for the magnitude it was laid out for. -/
theorem written_layout {digits : List Char} (h : Leading digits) (point : ℤ) (negative : Bool)
    (count : ℕ) :
    ∃ n, Written (layout digits point negative count) n ∧
      n.negative = negative ∧ n.magnitude = positional digits point := by
  cases hplain : isPlain point count
  · obtain ⟨whole, fraction, htext, hw, hf, hall, hvalue⟩ := layout_scientific h negative hplain
    rw [htext]
    refine ⟨_, .mk hw hf (writtenExponent_exponentTail (point - 1)), rfl, ?_⟩
    rw [NumeralParts.magnitude_value, hall, hvalue]
  · obtain ⟨whole, fraction, htext, hw, hf, -, hvalue⟩ := layout_plain h negative hplain
    rw [htext, ← List.append_nil (pointed fraction)]
    refine ⟨_, .mk hw hf .absent, rfl, ?_⟩
    rw [NumeralParts.magnitude_value, ← hvalue, zero_sub]

/-- A point far from the ends of a word fits in it. -/
theorem integer?_of_bounds {n : ℤ} (hlow : -2 ^ 62 ≤ n) (hhigh : n ≤ 2 ^ 62) :
    Word.integer? n = some n := by
  refine Word.integer?_eq_some_iff.2 ⟨?_, rfl⟩
  unfold Word.modulus
  omega

/-- The checks of a layout pass where its point can be counted. -/
theorem layout?_eq {digits : List Char} (h : Leading digits) {point : ℤ} (negative : Bool)
    (count : ℕ) (hlow : -2 ^ 62 < point) (hhigh : point ≤ 2 ^ 62) :
    layout? digits point negative count =
      some (layout digits point negative (comparable count)) := by
  have hne : digits.isEmpty = false := by simpa using h.isDigits.1
  unfold layout?
  rw [hne, integer?_of_bounds (by omega) (by omega)]
  dsimp only
  rw [if_neg Bool.false_ne_true]
  split_ifs <;> rfl

/-- The digits of a whole number, without the zeros at their end, are laid out
as all its digits. -/
theorem layout_of_nat (n : ℕ) (negative : Bool) {count : ℕ}
    (hlength : (digitChars n).length ≤ count) :
    layout (dropTrailingZeros (digitChars n)) (digitChars n).length negative count =
      signed negative (digitChars n) := by
  have hpos := length_digitChars_pos n
  have hplain : isPlain (digitChars n).length count = true := by
    rw [isPlain, plainZeros, Bool.and_eq_true, decide_eq_true_eq, decide_eq_true_eq]
    omega
  obtain ⟨k, hk⟩ := dropTrailingZeros_append (digitChars n)
  have hlen := congrArg List.length hk
  rw [List.length_append, length_zeros] at hlen
  have hpoint : pointAfter (digitChars n).length (dropTrailingZeros (digitChars n)) =
      digitChars n := by
    rw [pointAfter, if_pos (by omega), show (digitChars n).length -
      (dropTrailingZeros (digitChars n)).length = k by omega, ← hk]
  have hlayout : layout (dropTrailingZeros (digitChars n)) (digitChars n).length negative count =
      signed negative (if 0 < ((digitChars n).length : ℤ) then
        pointAfter ((digitChars n).length : ℤ).toNat (dropTrailingZeros (digitChars n))
        else '0' :: '.' :: (zeros (-((digitChars n).length : ℤ)).toNat ++
          dropTrailingZeros (digitChars n))) := by
    unfold layout
    rw [hplain]
    rfl
  rw [hlayout, if_pos (by omega), Int.toNat_natCast, hpoint]

end Abacus.Decimal
