/-
Abacus.Proofs.NumberSystem.Sums — which sums of literals are exact.

A decimal is read with 256 bits and printed in fifty digits.  What it loses
while it is read is far below the last of these digits, so a sum of few digits
is printed exactly, unless its terms are so much larger than the sum that they
cancel each other down to what was lost (`sums_are_exact`).  Terms that are
numbers of the format have lost nothing and may cancel in any way.  Terms that
are opposites cancel completely if they are read alike, which takes the same
digits or few enough of them.
-/
import Abacus.Proofs.Decimal.Canonical
import Abacus.Proofs.Floating.Sums
import Abacus.Proofs.NumberSystem.Range

namespace Abacus

/-! ## Terms -/

/-- A whole number of at most `count` digits, times a power of ten. -/
def FewDigits (count : ℕ) (q : ℚ) : Prop :=
  ∃ c : ℕ, c < 10 ^ count ∧ ∃ e : ℤ, |q| = c * 10 ^ e

namespace Numeral

/-- What the terms `m` and `n` lose while they are read cannot be seen in `s`, their sum or
difference. -/
inductive Guarded (m n : Numeral) (s : ℚ) : Prop
  | few : m.magnitude ≤ 10 ^ 26 * |s| → n.magnitude ≤ 10 ^ 26 * |s| → Guarded m n s
  | exact : m.IsExact → n.IsExact → Guarded m n s
  | alike : s = 0 → m.coefficient = n.coefficient → Guarded m n s
  | short : s = 0 → m.coefficient < 10 ^ 77 → n.coefficient < 10 ^ 77 → Guarded m n s

theorem Guarded.neg {m n : Numeral} {s : ℚ} (h : Guarded m n s) : Guarded m n.neg s := by
  cases h with
  | few hm hn => exact .few hm hn
  | exact hm hn => exact .exact hm hn
  | alike hs h => exact .alike hs h
  | short hs hm hn => exact .short hs hm hn

theorem fewDigits {n : Numeral} {count : ℕ} (h : n.coefficient < 10 ^ count) :
    FewDigits count n.value :=
  ⟨n.coefficient, h, n.exponent, n.abs_value⟩

end Numeral

/-- What guarded terms lose is far below the fiftieth digit of their sum. -/
theorem Reads.add_close {m n : Numeral} {x y : Finite Format.decimal} (hx : Reads m x)
    (hy : Reads n y) (h : Numeral.Guarded m n (m.value + n.value)) :
    |x.value + y.value - (m.value + n.value)| ≤ |m.value + n.value| * (7 / 20 / 10 ^ 50) := by
  have hcancel (hs : m.value + n.value = 0)
      (hmagnitude : m.magnitude = n.magnitude → x.magnitude = y.magnitude) :
      |x.value + y.value - (m.value + n.value)| ≤ |m.value + n.value| * (7 / 20 / 10 ^ 50) := by
    have heq : m.magnitude = n.magnitude := by
      rw [← m.abs_value, eq_neg_of_add_eq_zero_left hs, abs_neg, n.abs_value]
    rw [hx.value_add_eq_zero hy hs (hmagnitude heq), hs, sub_zero, abs_zero, zero_mul]
  have hsplit : |x.value + y.value - (m.value + n.value)| ≤
      |x.magnitude - m.magnitude| + |y.magnitude - n.magnitude| := by
    rw [← hx.abs_value_sub, ← hy.abs_value_sub, add_sub_add_comm]
    exact abs_add_le _ _
  cases h with
  | few hm hn =>
    have hloss : 2 * 10 ^ 26 * (2 / 2 ^ 256) ≤ (7 : ℚ) / 20 / 10 ^ 50 := by norm_num
    calc
      |x.value + y.value - (m.value + n.value)|
        ≤ m.magnitude * (2 / 2 ^ 256) + n.magnitude * (2 / 2 ^ 256) :=
          hsplit.trans (add_le_add hx.close hy.close)
      _ ≤ 10 ^ 26 * |m.value + n.value| * (2 / 2 ^ 256) +
          10 ^ 26 * |m.value + n.value| * (2 / 2 ^ 256) := by gcongr
      _ = |m.value + n.value| * (2 * 10 ^ 26 * (2 / 2 ^ 256)) := by ring
      _ ≤ |m.value + n.value| * (7 / 20 / 10 ^ 50) :=
        mul_le_mul_of_nonneg_left hloss (abs_nonneg _)
  | exact hm hn =>
    rw [hx.exact hm, hy.exact hn, sub_self, sub_self, abs_zero, add_zero] at hsplit
    exact hsplit.trans (by positivity)
  | alike hs h => exact hcancel hs fun heq => hx.magnitude_eq_of_alike hy heq h
  | short hs hm hn => exact hcancel hs fun heq => hx.magnitude_eq_of_short hy heq hm hn

/-! ## Printing -/

/-- The digits of a number that has few of them. -/
theorem FewDigits.exists_positional {count : ℕ} {q : ℚ} (h : FewDigits count q)
    (hcount : 0 < count) (hq : q ≠ 0) : ∃ digits point, Decimal.Trimmed digits ∧
      digits.length ≤ count ∧ Decimal.positional digits point = |q| := by
  obtain ⟨c, hc, e, hvalue⟩ := h
  have hpos : 0 < c := by
    rw [Nat.pos_iff_ne_zero]
    rintro rfl
    rw [Nat.cast_zero, zero_mul, abs_eq_zero] at hvalue
    exact hq hvalue
  obtain ⟨htrimmed, hle, hsame⟩ :=
    (Decimal.leading_digitChars hpos).trimmed (e + (digitChars c).length)
  refine ⟨_, e + (digitChars c).length, htrimmed,
    hle.trans ((length_digitChars_le_iff hcount).2 hc), ?_⟩
  rw [hsame, Decimal.positional, digitsValue_digitChars, add_sub_cancel_right, hvalue]

namespace NumberSystem.Decimal

open Abacus.Decimal

/-- A number of few digits has a text that everything much closer to it than half of the last
digit is printed as. -/
theorem exists_text {s : ℚ} (hfew : FewDigits digits s) (hs : s ≠ 0) :
    ∃ text, IsCanonical digits text ∧ Denotes text s ∧ ∀ z : Finite Format.decimal,
      z.negative = decide (s < 0) → |z.magnitude - (|s|)| ≤ |s| * (2 / 5 / 10 ^ digits) →
      render (.finite z) = text := by
  obtain ⟨ds, point, htrimmed, hlength, hvalue⟩ := hfew.exists_positional (by decide) hs
  obtain ⟨body, hlayout, hbody⟩ := canonical_layout htrimmed hlength point (decide (s < 0))
  obtain ⟨n, hread, hnegative, hmagnitude⟩ :=
    read?_layout htrimmed.toLeading point (decide (s < 0)) digits
  refine ⟨String.ofList (layout ds point (decide (s < 0)) digits),
    .inr ⟨decide (s < 0), body, ?_, hbody⟩,
    ⟨n, by rw [String.toList_ofList]; exact hread, ?_⟩, fun z hsign hclose => ?_⟩
  · rw [String.toList_ofList, hlayout]
  · rw [Numeral.value, hnegative, hmagnitude, hvalue]
    rcases lt_or_ge s 0 with hlt | hge
    · rw [if_pos (decide_eq_true hlt), abs_of_neg hlt, neg_neg]
    · rw [if_neg (by simpa using hge), abs_of_nonneg hge]
  · rw [← hvalue] at hclose
    rw [render_of_close htrimmed hlength hclose, hsign]

/-- A number much closer than half of the last digit to one of few digits is printed as this. -/
theorem render_denotes {z : Finite Format.decimal} {s : ℚ} (hfew : FewDigits digits s)
    (hs : s ≠ 0) (hsign : z.negative = decide (s < 0))
    (hclose : |z.magnitude - (|s|)| ≤ |s| * (2 / 5 / 10 ^ digits)) :
    Denotes (render (.finite z)) s := by
  obtain ⟨text, -, hdenotes, hprinted⟩ := exists_text hfew hs
  rwa [hprinted z hsign hclose]

theorem render_zero_denotes {z : Finite Format.decimal} (hz : z.isZero = true) :
    Denotes (render (.finite z)) 0 := by
  rw [render_of_isZero hz]
  exact_mod_cast denotes_toString 0

/-- A sum of few digits is printed exactly. -/
theorem render_add_denotes {m n : Numeral} {x y : Finite Format.decimal} (hm : m.InRange)
    (hn : n.InRange) (hx : Reads m x) (hy : Reads n y) (hfew : FewDigits digits (m.value + n.value))
    (hguarded : Numeral.Guarded m n (m.value + n.value)) :
    ∃ z : Finite Format.decimal, x.add y = .finite z ∧
      Denotes (render (.finite z)) (m.value + n.value) := by
  have hclose := hx.add_close hy hguarded
  have hlow := hm.ten_zpow_le_abs_add hn
  have hhigh := hm.abs_add_lt hn
  set s := m.value + n.value
  set t := x.value + y.value
  by_cases hs : s = 0
  · rw [hs, sub_zero, abs_zero, zero_mul, abs_nonpos_iff] at hclose
    obtain ⟨z, hz, hzero⟩ := Finite.add_of_value_add_eq_zero hclose
    rw [hs]
    exact ⟨z, hz, render_zero_denotes hzero⟩
  · have hpos : 0 < |s| := abs_pos.2 hs
    have hsmall : |s| * (7 / 20 / 10 ^ 50) ≤ |s| / 2 := by
      rw [div_eq_mul_inv |s|]
      exact mul_le_mul_of_nonneg_left (by norm_num) hpos.le
    have hsize := (abs_abs_sub_abs_le t s).trans hclose
    obtain ⟨hbelow, habove⟩ := abs_le.1 (hsize.trans hsmall)
    obtain ⟨hlow, hhigh⟩ := inRange_of_places (v := |t|)
      (by rw [zpow_sub_one₀ (by norm_num)]; linarith [hlow hs])
      (by rw [zpow_add_one₀ (by norm_num)]; linarith)
    obtain ⟨z, hz, hsign, hnear⟩ := Finite.add_of_inRange hlow hhigh
    refine ⟨z, hz, render_denotes hfew hs ?_ ?_⟩
    · rw [hsign]
      exact decide_eq_decide.2 (neg_iff_of_close hs (hclose.trans hsmall)).2
    · have hround : (2 : ℚ) / 2 ^ Format.decimal.precision ≤ 1 / 30 / 10 ^ digits := by
        change (2 : ℚ) / 2 ^ 256 ≤ 1 / 30 / 10 ^ 50
        norm_num
      calc
        |z.magnitude - (|s|)| ≤ |z.magnitude - (|t|)| + |(|t|) - (|s|)| := abs_sub_le _ _ _
        _ ≤ 3 / 2 * |s| * (1 / 30 / 10 ^ digits) + |s| * (7 / 20 / 10 ^ digits) :=
          add_le_add (hnear.trans (mul_le_mul (by linarith) hround (by positivity) (by positivity)))
            hsize
        _ = |s| * (2 / 5 / 10 ^ digits) := by ring

end NumberSystem.Decimal

/-! ## Lines -/

namespace Calculator

/-- The line is a literal, possibly between blanks, and denotes the numeral. -/
def IsNumeral (line : String) (n : Numeral) : Prop :=
  ∃ text, tokenize .all line = .ok [.number text] ∧ Numeral.read? text.toList = some n

/-- Whatever the variables are, the line is printed in fifty digits as this number. -/
def Prints (line : String) (q : ℚ) : Prop :=
  ∀ environment, ∃ text, (evaluate .decimal environment line).value = .ok text ∧ Denotes text q

/-- A line with the tokens of an expression has its value. -/
theorem evaluateIn_of_postorder {V : Type} {system : NumberSystem V} {line : String}
    {ts : List Token} {e : Expression} (ht : tokenize system.capabilities line = .ok ts)
    (hrpn : toPostfix ts = .ok e.postorder) (environment : Environment) {z : V} :
    (evaluateIn system environment line).value = .ok z ↔
      e.evaluate system environment = .ok z := by
  rw [evaluateIn_of_tokenize ht, evaluateTokens_eq_ok_iff]
  simp only [hrpn, Except.ok.injEq, exists_eq_left', Evaluation.evaluate_postorder]

/-- A line with an operator between two literals has the value of the operation. -/
theorem evaluateIn_between_eq_ok_iff {V : Type} {system : NumberSystem V} {a b t u : String}
    {c : Char} {op : BinaryOperator} (hop : Operator.ofChar? c = some op.operator)
    (hpow : op.operator = .pow → system.capabilities.power = true)
    (hliteral : Lexer.startsLiteral c = false) (hname : Lexer.isNameChar c = false)
    (ha : tokenize system.capabilities a = .ok [.number t])
    (hb : tokenize system.capabilities b = .ok [.number u]) (environment : Environment) {z : V} :
    (evaluateIn system environment (a ++ String.singleton c ++ b)).value = .ok z ↔
      ∃ x, system.readLiteral t = .ok x ∧ ∃ y, system.readLiteral u = .ok y ∧
        system.binary op x y = .ok z := by
  have hpostfix : toPostfix ([.number t] ++ .operator op.operator :: [.number u]) =
      .ok (Expression.binary op (.number t) (.number u)).postorder := by
    cases op <;> rfl
  rw [evaluateIn_of_postorder (tokenize_between hop hpow hliteral hname ha hb) hpostfix]
  simp only [Expression.evaluate, bind_eq_ok_iff]

/-- A line that is a numeral has one token, which is read as the numeral is. -/
theorem IsNumeral.exists_token {line : String} {n : Numeral} (h : IsNumeral line n) :
    ∃ text, tokenize .all line = .ok [.number text] ∧
      NumberSystem.decimal.readLiteral text = (Format.decimal.readNumeral n).checked .literal := by
  obtain ⟨text, htokens, hread⟩ := h
  cases alternates_of_tokenize htokens with
  | number hliteral _ =>
    refine ⟨text, htokens, ?_⟩
    change NumberSystem.Decimal.readLiteral text = _
    rw [NumberSystem.Decimal.readLiteral, Decimal.read_literal hliteral hread]
    have hnumber := Format.decimal.readsNumerals.ne_nan n
    cases hvalue : Format.decimal.readNumeral n with
    | nan => exact absurd hvalue hnumber
    | infinite negative => rfl
    | finite x => rfl

section Lines

variable {a b : String} {m n : Numeral} (ha : IsNumeral a m) (hb : IsNumeral b n)
include ha hb

/-- A difference is printed only if its first term is read as a number. -/
theorem exists_finite_of_evaluate_sub {environment : Environment} {text : String}
    (h : (evaluate .decimal environment (a ++ "-" ++ b)).value = .ok text) :
    ∃ x, Format.decimal.readNumeral m = .finite x := by
  obtain ⟨t, hta, hread⟩ := ha.exists_token
  obtain ⟨u, htb, -⟩ := hb.exists_token
  obtain ⟨z, hz, -⟩ := evaluate_eq_ok_iff.1 h
  have hop : Operator.ofChar? '-' = some BinaryOperator.sub.operator := rfl
  obtain ⟨x, hx, -⟩ := (evaluateIn_between_eq_ok_iff hop nofun rfl rfl hta htb _).1 hz
  have hchecked := hread.symm.trans hx
  cases hvalue : Format.decimal.readNumeral m with
  | nan =>
    rw [hvalue] at hchecked
    cases hchecked
  | infinite negative =>
    rw [hvalue] at hchecked
    cases hchecked
  | finite x => exact ⟨x, rfl⟩

variable (environment : Environment) {x y z : Finite Format.decimal}
  (hx : Format.decimal.readNumeral m = .finite x) (hy : Format.decimal.readNumeral n = .finite y)
include hx hy

/-- An operation on two literals is done on what they are read as. -/
theorem evaluate_between {c : Char} {op : BinaryOperator}
    (hop : Operator.ofChar? c = some op.operator) (hliteral : Lexer.startsLiteral c = false)
    (hname : Lexer.isNameChar c = false)
    (hz : NumberSystem.decimal.binary op (.finite x) (.finite y) = .ok (.finite z)) :
    (evaluate .decimal environment (a ++ String.singleton c ++ b)).value =
      .ok (NumberSystem.Decimal.render (.finite z)) := by
  obtain ⟨t, hta, hxread⟩ := ha.exists_token
  obtain ⟨u, htb, hyread⟩ := hb.exists_token
  rw [hx] at hxread
  rw [hy] at hyread
  have hvalue := (evaluateIn_between_eq_ok_iff hop (fun _ => rfl) hliteral hname hta htb
    environment).2 ⟨_, hxread, _, hyread, hz⟩
  exact evaluate_eq_ok_iff.2 ⟨.finite z, hvalue, rfl⟩

theorem evaluate_add (hz : x.add y = .finite z) :
    (evaluate .decimal environment (a ++ "+" ++ b)).value =
      .ok (NumberSystem.Decimal.render (.finite z)) := by
  have hsum : NumberSystem.decimal.binary .add (.finite x) (.finite y) = .ok (.finite z) := by
    change (x.add y).checked _ = _
    rw [hz]
    rfl
  exact evaluate_between (c := '+') ha hb environment hx hy rfl rfl rfl hsum

/-- A difference is the sum with the opposite. -/
theorem evaluate_sub (hz : x.add y.neg = .finite z) :
    (evaluate .decimal environment (a ++ "-" ++ b)).value =
      .ok (NumberSystem.Decimal.render (.finite z)) := by
  have hdifference : NumberSystem.decimal.binary .sub (.finite x) (.finite y) =
      .ok (.finite z) := by
    change (x.add y.neg).checked _ = _
    rw [hz]
    rfl
  exact evaluate_between (c := '-') ha hb environment hx hy rfl rfl rfl hdifference

end Lines

end Calculator

/-- Sums and differences of literals in range are printed exactly, if they have fifty digits at
most and their terms are guarded. -/
theorem sums_are_exact {a b : String} {m n : Numeral} (ha : Calculator.IsNumeral a m)
    (hb : Calculator.IsNumeral b n) (hm : m.InRange) (hn : n.InRange) :
    (FewDigits 50 (m.value + n.value) → Numeral.Guarded m n (m.value + n.value) →
      Calculator.Prints (a ++ "+" ++ b) (m.value + n.value)) ∧
    (FewDigits 50 (m.value - n.value) → Numeral.Guarded m n (m.value - n.value) →
      Calculator.Prints (a ++ "-" ++ b) (m.value - n.value)) := by
  obtain ⟨x, hx⟩ := hm.exists_reads
  obtain ⟨y, hy⟩ := hn.exists_reads
  constructor
  · intro hfew hguarded environment
    obtain ⟨z, hz, hdenotes⟩ :=
      NumberSystem.Decimal.render_add_denotes hm hn hx hy hfew hguarded
    exact ⟨_, Calculator.evaluate_add ha hb environment hx.readNumeral hy.readNumeral hz, hdenotes⟩
  · intro hfew hguarded environment
    rw [sub_eq_add_neg, ← n.value_neg] at hfew hguarded ⊢
    obtain ⟨z, hz, hdenotes⟩ :=
      NumberSystem.Decimal.render_add_denotes hm hn.neg hx hy.neg hfew hguarded.neg
    exact ⟨_, Calculator.evaluate_sub ha hb environment hx.readNumeral hy.readNumeral hz, hdenotes⟩

/-- Tenths are added without a rest, and large numbers that are whole cancel without one. -/
theorem sums_are_exact_tenths : Calculator.Prints "0.1 + 0.2" (3 / 10) ∧
    Calculator.Prints "100000000000000000000000000001 - 100000000000000000000000000000" 1 := by
  have hsum := (sums_are_exact (a := "0.1 ") (b := " 0.2") (m := ⟨false, 1, -1⟩)
    (n := ⟨false, 2, -1⟩) ⟨"0.1", by decide +kernel⟩ ⟨"0.2", by decide +kernel⟩
    (.of_coefficient_lt (k := 1) (by decide) (by decide) (by decide))
    (.of_coefficient_lt (k := 1) (by decide) (by decide) (by decide))).1
  have hdifference := (sums_are_exact (a := "100000000000000000000000000001 ")
    (b := " 100000000000000000000000000000") (m := ⟨false, 10 ^ 29 + 1, 0⟩)
    (n := ⟨false, 10 ^ 29, 0⟩) ⟨"100000000000000000000000000001", by decide +kernel⟩
    ⟨"100000000000000000000000000000", by decide +kernel⟩
    (.of_coefficient_lt (k := 30) (by decide) (by decide) (by decide))
    (.of_coefficient_lt (k := 30) (by decide) (by decide) (by decide))).2
  have hthree : Numeral.value ⟨false, 1, -1⟩ + Numeral.value ⟨false, 2, -1⟩ = 3 / 10 := by
    norm_num [Numeral.value, Numeral.magnitude]
  have hone : Numeral.value ⟨false, 10 ^ 29 + 1, 0⟩ - Numeral.value ⟨false, 10 ^ 29, 0⟩ = 1 := by
    norm_num [Numeral.value, Numeral.magnitude]
  rw [hthree] at hsum
  rw [hone] at hdifference
  constructor
  · refine hsum ⟨3, by norm_num, -1, by norm_num⟩ (.few ?_ ?_) <;>
      norm_num [Numeral.magnitude]
  · refine hdifference ⟨1, by norm_num, 0, by norm_num⟩ (.exact ?_ ?_)
    · refine Numeral.isExact_of_nat (k := 10 ^ 29 + 1) (by norm_num) ?_
      norm_num [Numeral.magnitude]
    · refine Numeral.isExact_of_nat (k := 10 ^ 29) (by norm_num) ?_
      norm_num [Numeral.magnitude]

/-! ## Differences that are not exact -/

/-- A text denotes one number. -/
theorem Denotes.unique {text : String} {p q : ℚ} (hp : Denotes text p) (hq : Denotes text q) :
    p = q := by
  obtain ⟨m, hm, rfl⟩ := hp
  obtain ⟨n, hn, rfl⟩ := hq
  rw [hm, Option.some.injEq] at hn
  rw [hn]

theorem Calculator.not_prints {line text : String} {environment : Environment} {p q : ℚ}
    (h : (evaluate .decimal environment line).value = .ok text) (hp : Denotes text p)
    (hne : p ≠ q) : ¬Prints line q := by
  intro hprints
  obtain ⟨text', htext, hq⟩ := hprints environment
  rw [h, Except.ok.injEq] at htext
  exact hne (hp.unique (htext ▸ hq))

/-- Digits denote their number. -/
theorem Calculator.isNumeral_whole {whole : List Char} (h : IsDigits whole) :
    IsNumeral (String.ofList whole) ⟨false, digitsValue whole, 0⟩ := by
  have hf : ∀ c ∈ ([] : List Char), c.isDigit = true := List.forall_mem_nil _
  have hliteral := isLiteral_signed false h hf fun _ => (rfl : true = true)
  have hread := Numeral.read?_signed false h hf (.inl rfl)
  rw [pointed_nil, List.append_nil] at hliteral
  rw [pointed_nil, List.append_nil, List.append_nil] at hread
  refine ⟨String.ofList whole, tokenize_literal hliteral, ?_⟩
  rw [String.toList_ofList]
  refine hread.trans (congrArg some ?_)
  rw [NumeralParts.value, List.append_nil]
  rfl

/-- Digits behind a zero and the point denote their number with as many places. -/
theorem Calculator.isNumeral_fraction {fraction : List Char} (h : IsDigits fraction) :
    IsNumeral (String.ofList ('0' :: '.' :: fraction))
      ⟨false, digitsValue fraction, -fraction.length⟩ := by
  have hw : IsDigits ['0'] := ⟨by simp, by simp⟩
  have hliteral := isLiteral_signed false hw h.2 fun _ => (rfl : true = true)
  have hread := Numeral.read?_signed false hw h.2 (.inl rfl)
  rw [pointed_of_ne_nil h.1] at hliteral
  rw [List.append_nil, pointed_of_ne_nil h.1] at hread
  refine ⟨_, tokenize_literal hliteral, ?_⟩
  rw [String.toList_ofList]
  refine hread.trans (congrArg some ?_)
  rw [NumeralParts.value, List.singleton_append, digitsValue_cons, scanExponent_nil, zero_sub]
  simp

theorem isDigits_zeros_append (k : ℕ) {digits : List Char} (h : IsDigits digits) :
    IsDigits (zeros k ++ digits) :=
  ⟨by simp [h.1], List.forall_mem_append.2 ⟨fun _ => isDigit_of_mem_zeros, h.2⟩⟩

/-- Two literals of fifty digits at most have a difference of fifty digits at most, and this is
not what is printed. -/
structure Misprints (a b : String) (m n : Numeral) : Prop where
  left : Calculator.IsNumeral a m
  right : Calculator.IsNumeral b n
  few_left : FewDigits 50 m.value
  few_right : FewDigits 50 n.value
  few : FewDigits 50 (m.value - n.value)
  not_prints : ¬Calculator.Prints (a ++ "-" ++ b) (m.value - n.value)

/-- Terms that are larger than their difference by 26 places and a half. -/
theorem misprints_cancelled : Misprints "0.000063 " " 0.0000629999999999999999999999999"
    ⟨false, 63, -6⟩ ⟨false, 629999999999999999999999999, -31⟩ := by
  have hvalue : Numeral.value ⟨false, 63, -6⟩ -
      Numeral.value ⟨false, 629999999999999999999999999, -31⟩ = 10 ^ (-31 : ℤ) := by
    norm_num [Numeral.value, Numeral.magnitude]
  have hprinted : (Calculator.evaluate .decimal (fun _ => none)
      ("0.000063 " ++ "-" ++ " 0.0000629999999999999999999999999")).value =
      .ok "9.9999999999999999999999999999999999999999999999999E-32" := by
    decide +kernel
  have hdenotes : Denotes "9.9999999999999999999999999999999999999999999999999E-32"
      (Numeral.value ⟨false, 10 ^ 50 - 1, -81⟩) := ⟨_, by decide +kernel, rfl⟩
  refine ⟨⟨"0.000063", by decide +kernel⟩, ⟨"0.0000629999999999999999999999999", by decide +kernel⟩,
    Numeral.fewDigits (by norm_num), Numeral.fewDigits (by norm_num), ?_,
    Calculator.not_prints hprinted hdenotes ?_⟩
  · rw [hvalue]
    exact ⟨1, by norm_num, -31, by rw [Nat.cast_one, one_mul, abs_of_pos (ten_zpow_pos _)]⟩
  · rw [hvalue]
    norm_num [Numeral.value, Numeral.magnitude]

/-- `10 ^ (-156)` times this number is so close to the middle between two numbers of the format
that the working precision is too low for it. -/
def nearMiddle : ℕ :=
  1922618667416777356135609884640712685065119440043

/-- One number with and without zeros at the end. -/
theorem misprints_opposites : Misprints
    (String.ofList ('0' :: '.' :: (zeros 107 ++ digitChars nearMiddle)))
    (String.ofList ('0' :: '.' :: (zeros 107 ++ digitChars (nearMiddle * 10 ^ 40))))
    ⟨false, nearMiddle, -156⟩ ⟨false, nearMiddle * 10 ^ 40, -196⟩ := by
  have hleft := Calculator.isNumeral_fraction
    (isDigits_zeros_append 107 (isDigits_digitChars nearMiddle))
  have hright := Calculator.isNumeral_fraction
    (isDigits_zeros_append 107 (isDigits_digitChars (nearMiddle * 10 ^ 40)))
  rw [show Numeral.mk false _ _ = ⟨false, nearMiddle, -156⟩ by decide +kernel] at hleft
  rw [show Numeral.mk false _ _ = ⟨false, nearMiddle * 10 ^ 40, -196⟩ by decide +kernel] at hright
  -- the terms are read as neighbours
  have hx : Format.decimal.readNumeral ⟨false, nearMiddle, -156⟩ = .finite ⟨false,
      65355252477682855866968337296297408276320154728019361779764133244685156442073, -613,
      by decide +kernel⟩ := by
    decide +kernel
  have hy : Format.decimal.readNumeral ⟨false, nearMiddle * 10 ^ 40, -196⟩ = .finite ⟨false,
      65355252477682855866968337296297408276320154728019361779764133244685156442074, -613,
      by decide +kernel⟩ := by
    decide +kernel
  have hprinted := Calculator.evaluate_sub hleft hright (fun _ => none) hx hy
    (z := ⟨true, 2 ^ 255, -868, by decide +kernel⟩) (by decide +kernel)
  have hdenotes : Denotes
      (NumberSystem.Decimal.render (.finite ⟨true, 2 ^ 255, -868, by decide +kernel⟩))
      (Numeral.value ⟨true, 29417967103306690890390015072174181352917540948607, -234⟩) :=
    ⟨_, by decide +kernel, rfl⟩
  have hfew : nearMiddle < 10 ^ 50 := by decide
  have hvalue : Numeral.value ⟨false, nearMiddle * 10 ^ 40, -196⟩ =
      Numeral.value ⟨false, nearMiddle, -156⟩ := by
    change ((nearMiddle * 10 ^ 40 : ℕ) : ℚ) * 10 ^ (-196 : ℤ) = nearMiddle * 10 ^ (-156 : ℤ)
    push_cast
    rw [show (-156 : ℤ) = 40 + -196 by norm_num, ten_zpow_add, ← mul_assoc]
    rfl
  refine ⟨hleft, hright, Numeral.fewDigits hfew, ?_, ?_,
    Calculator.not_prints hprinted hdenotes ?_⟩
  · rw [hvalue]
    exact Numeral.fewDigits hfew
  · rw [hvalue, sub_self]
    exact ⟨0, by norm_num, 0, by simp⟩
  · rw [hvalue, sub_self]
    norm_num [Numeral.value, Numeral.magnitude]

/-! ## Beyond the range -/

theorem Calculator.isNumeral_zero : IsNumeral "0" ⟨false, 0, 0⟩ :=
  ⟨"0", by decide +kernel⟩

@[simp] theorem Numeral.value_zero (negative : Bool) (e : ℤ) : value ⟨negative, 0, e⟩ = 0 := by
  simp [value, magnitude]

section

variable {k : ℕ} (hk : 650000000 ≤ k)
include hk

theorem misprints_large :
    Misprints (String.ofList ('1' :: zeros k)) "0" ⟨false, 10 ^ k, 0⟩ ⟨false, 0, 0⟩ := by
  have hdigits : IsDigits ('1' :: zeros k) :=
    ⟨by simp, List.forall_mem_cons.2 ⟨rfl, fun _ => isDigit_of_mem_zeros⟩⟩
  have hleft := Calculator.isNumeral_whole hdigits
  have hvalue : digitsValue ('1' :: zeros k) = 10 ^ k := by simp [digitsValue_cons]
  rw [hvalue] at hleft
  have hmagnitude : Numeral.magnitude ⟨false, 10 ^ k, 0⟩ = 10 ^ (k : ℤ) := by
    simp [Numeral.magnitude]
  have hfew : FewDigits 50 (Numeral.value ⟨false, 10 ^ k, 0⟩) :=
    ⟨1, by norm_num, k, by rw [Numeral.abs_value, hmagnitude, Nat.cast_one, one_mul]⟩
  refine ⟨hleft, Calculator.isNumeral_zero, hfew, Numeral.fewDigits (by norm_num),
    by rwa [Numeral.value_zero, sub_zero], ?_⟩
  intro hprints
  obtain ⟨text, htext, -⟩ := hprints fun _ => none
  obtain ⟨x, hx⟩ := Calculator.exists_finite_of_evaluate_sub hleft Calculator.isNumeral_zero htext
  refine not_finite_of_large (Nat.zero_le _) ?_ x hx
  have hmax : Format.decimal.maxExponent = 0x7fffffff := rfl
  rw [hmagnitude]
  exact Decimal.two_zpow_le_ten_zpow (by omega) (by omega)

theorem misprints_small : Misprints (String.ofList ('0' :: '.' :: (zeros k ++ ['1']))) "0"
    ⟨false, 1, -(k + 1)⟩ ⟨false, 0, 0⟩ := by
  have hdigits : IsDigits ['1'] := ⟨by simp, by simp⟩
  have hleft := Calculator.isNumeral_fraction (isDigits_zeros_append k hdigits)
  have hvalue : digitsValue (zeros k ++ ['1']) = 1 := by
    simp [digitsValue_append, digitsValue_singleton]
  have hlength : ((zeros k ++ ['1']).length : ℤ) = k + 1 := by simp
  rw [hvalue, hlength] at hleft
  have hmagnitude : Numeral.magnitude ⟨false, 1, -(k + 1)⟩ = 10 ^ (-(k + 1) : ℤ) := by
    rw [Numeral.magnitude, Nat.cast_one, one_mul]
  have hsmall : Numeral.magnitude ⟨false, 1, -(k + 1)⟩ <
      2 ^ (Format.decimal.minExponent - 1) := by
    have hmin : Format.decimal.minExponent = -0x80000000 - 256 := rfl
    have htwo : (2 : ℚ) ^ (Format.decimal.minExponent - 2) < 2 ^ (Format.decimal.minExponent - 1) :=
      zpow_lt_zpow_right₀ one_lt_two (by omega)
    rw [hmagnitude]
    exact (Decimal.ten_zpow_le_two_zpow (by omega) (by omega)).trans_lt htwo
  obtain ⟨x, hx, hxvalue⟩ := exists_zero_of_small (by norm_num) hsmall
  have hy : Format.decimal.readNumeral ⟨false, 0, 0⟩ = .finite (.zero false) :=
    Format.decimal.readsNumerals.of_coefficient_eq_zero rfl
  have hcancel : x.value + (Finite.zero false : Finite Format.decimal).neg.value = 0 := by
    rw [hxvalue, Finite.value_neg, Finite.value_zero, neg_zero, add_zero]
  obtain ⟨z, hz, hzero⟩ := Finite.add_of_value_add_eq_zero hcancel
  have hprinted := Calculator.evaluate_sub hleft Calculator.isNumeral_zero (fun _ => none) hx hy hz
  have hfew : FewDigits 50 (Numeral.value ⟨false, 1, -(k + 1)⟩) :=
    Numeral.fewDigits (by norm_num)
  refine ⟨hleft, Calculator.isNumeral_zero, hfew, Numeral.fewDigits (by norm_num),
    by rwa [Numeral.value_zero, sub_zero],
    Calculator.not_prints hprinted (NumberSystem.Decimal.render_zero_denotes hzero) ?_⟩
  have habs : 0 < |Numeral.value ⟨false, 1, -(k + 1)⟩| := by
    rw [Numeral.abs_value, hmagnitude]
    exact ten_zpow_pos _
  rw [Numeral.value_zero, sub_zero]
  exact (abs_pos.1 habs).symm

end

/-- There are differences of few digits that are not printed exactly: of terms that cancel each
other, of opposites that are read as two numbers, and of terms that are out of range. -/
theorem differences_are_not_exact :
    Misprints "0.000063 " " 0.0000629999999999999999999999999" ⟨false, 63, -6⟩
      ⟨false, 629999999999999999999999999, -31⟩ ∧
    Misprints (String.ofList ('0' :: '.' :: (zeros 107 ++ digitChars nearMiddle)))
      (String.ofList ('0' :: '.' :: (zeros 107 ++ digitChars (nearMiddle * 10 ^ 40))))
      ⟨false, nearMiddle, -156⟩ ⟨false, nearMiddle * 10 ^ 40, -196⟩ ∧
    ∀ k : ℕ, 650000000 ≤ k →
      Misprints (String.ofList ('1' :: zeros k)) "0" ⟨false, 10 ^ k, 0⟩ ⟨false, 0, 0⟩ ∧
      Misprints (String.ofList ('0' :: '.' :: (zeros k ++ ['1']))) "0" ⟨false, 1, -(k + 1)⟩
        ⟨false, 0, 0⟩ :=
  ⟨misprints_cancelled, misprints_opposites, fun _ hk => ⟨misprints_large hk, misprints_small hk⟩⟩

end Abacus
