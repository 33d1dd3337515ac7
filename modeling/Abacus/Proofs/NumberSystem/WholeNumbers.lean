/-
Abacus.Proofs.NumberSystem.WholeNumbers — whole numbers in every number system.

As long as no value needs more bits than a format has, a number system of
rounded arithmetic follows the exact integers: it reads the same literals and
variables, its operations are exact, and it prints the same text.  So a line
that has a value among the integers has the same value in double precision
and in decimals.
-/
import Abacus.Proofs.Decimal.Rendering
import Abacus.Proofs.Evaluation.Simulation
import Abacus.Proofs.Floating.NearestInteger
import Abacus.Proofs.Libraries

namespace Abacus

theorem Floating.IsInt.checked {f : Format} {x : Floating f} {n : ℤ} (h : x.IsInt n)
    (origin : Origin) : x.checked origin = .ok x := by
  obtain ⟨y, rfl, -⟩ := h
  rfl

theorem hasWholeNumbers_binary64 : Format.binary64.HasWholeNumbers := ⟨by decide, by decide⟩

theorem hasWholeNumbers_decimal : Format.decimal.HasWholeNumbers := ⟨by decide, by decide⟩

namespace NumberSystem

/-! ## Arithmetic -/

/-- The arithmetic of a number system is that of its format, with its results
checked. -/
structure Rounded {f : Format} (system : NumberSystem (Floating f)) : Prop where
  add : ∀ x y, system.add x y = (x.add y).checked .addition
  sub : ∀ x y, system.sub x y = (x.sub y).checked .subtraction
  mul : ∀ x y, system.mul x y = (x.mul y).checked .multiplication
  div : ∀ x y, system.div x y =
    if y.isZero then .error .divisionByZero else (x.div y).checked .division
  neg : ∀ x, system.neg x = x.neg

theorem rounded_float : float.Rounded where
  add _ _ := rfl
  sub _ _ := rfl
  mul _ _ := rfl
  div _ _ := rfl
  neg _ := rfl

theorem rounded_decimal : decimal.Rounded where
  add _ _ := rfl
  sub _ _ := rfl
  mul _ _ := rfl
  div _ _ := rfl
  neg _ := rfl

/-- A quotient of integers is the factor that is left. -/
theorem Integer.div_eq_ok {m n q : ℤ} (h : Integer.div m n = .ok q) : n ≠ 0 ∧ m = q * n := by
  unfold Integer.div at h
  split_ifs at h with hzero hrem
  cases h
  exact ⟨hzero, (Int.ediv_mul_cancel (Int.dvd_of_emod_eq_zero (not_not.1 hrem))).symm⟩

/-- The operations of integers are exact in a format with enough bits. -/
theorem Rounded.binary {f : Format} (hf : f.HasWholeNumbers) {system : NumberSystem (Floating f)}
    (h : system.Rounded) {op : BinaryOperator} {m n r : ℤ} {x y : Floating f}
    (hm : m.natAbs ≤ 2 ^ f.precision) (hn : n.natAbs ≤ 2 ^ f.precision)
    (hx : x.IsInt m) (hy : y.IsInt n) (hop : integer.binary op m n = .ok r)
    (hr : r.natAbs ≤ 2 ^ f.precision) : ∃ z, system.binary op x y = .ok z ∧ z.IsInt r := by
  cases op with
  | add =>
    obtain rfl : m + n = r := Except.ok.inj hop
    have hsum := hx.add hf hy hm hn hr
    exact ⟨_, (h.add x y).trans (hsum.checked _), hsum⟩
  | sub =>
    obtain rfl : m - n = r := Except.ok.inj hop
    have hdifference := hx.sub hf hy hm hn hr
    exact ⟨_, (h.sub x y).trans (hdifference.checked _), hdifference⟩
  | mul =>
    obtain rfl : m * n = r := Except.ok.inj hop
    have hproduct := hx.mul hf hy hr
    exact ⟨_, (h.mul x y).trans (hproduct.checked _), hproduct⟩
  | div =>
    obtain ⟨hzero, rfl⟩ := Integer.div_eq_ok hop
    have hquotient := hx.div hf hy hzero hr
    have hy0 : y.isZero ≠ true := fun hy0 => hzero (hy.isZero_iff.1 hy0)
    exact ⟨_, (h.div x y).trans ((if_neg hy0).trans (hquotient.checked _)), hquotient⟩
  | pow => cases hop

theorem productUpTo_eq (acc n : ℕ) : productUpTo acc n = acc * n.factorial := by
  induction n generalizing acc with
  | zero => rw [productUpTo, Nat.factorial_zero, mul_one]
  | succ n ih => rw [productUpTo, ih, Nat.factorial_succ, mul_assoc]

theorem Integer.factorial_eq_ok {m r : ℤ} (h : Integer.factorial m = .ok r) :
    0 ≤ m ∧ r = (m.toNat.factorial : ℕ) := by
  unfold Integer.factorial at h
  split_ifs at h with hneg
  cases h
  exact ⟨not_lt.1 hneg, by rw [productUpTo_eq, one_mul]⟩

/-- What is known of a number system beyond its arithmetic makes it follow the
integers. -/
theorem Rounded.follows_integer {f : Format} (hf : f.HasWholeNumbers)
    {system : NumberSystem (Floating f)} (h : system.Rounded) {environment : Environment}
    {bound : ℕ} (hbound : bound ≤ 2 ^ f.precision)
    (hliteral : ∀ {text n}, IsLiteral false text → Integer.readLiteral text = .ok n →
      n.natAbs ≤ bound → ∃ x, system.readLiteral text = .ok x ∧ x.IsInt n)
    (hvariable : ∀ {name value n}, environment name = some value →
      Integer.ofVariable name value = .ok n → n.natAbs ≤ bound →
      ∃ x, system.ofVariable name value = .ok x ∧ x.IsInt n)
    (hfactorial : ∀ {n : ℕ} {x : Floating f}, x.IsInt n → n.factorial ≤ bound →
      ∃ y, system.factorial x = .ok y ∧ y.IsInt n.factorial) :
    system.Follows integer environment (fun n => n.natAbs ≤ bound) (fun n x => x.IsInt n) where
  readLiteral := hliteral
  ofVariable := hvariable
  unary {op m x r} _ hx hop hr := by
    cases op with
    | neg =>
      obtain rfl : -m = r := Except.ok.inj hop
      exact ⟨x.neg, congrArg Except.ok (h.neg x), hx.neg⟩
    | factorial =>
      obtain ⟨hpos, rfl⟩ := Integer.factorial_eq_ok hop
      obtain ⟨n, rfl⟩ := Int.eq_ofNat_of_zero_le hpos
      exact hfactorial hx hr
  binary hm hn hx hy hop hr :=
    h.binary hf (hm.trans hbound) (hn.trans hbound) hx hy hop (hr.trans hbound)
  apply _ _ hop := by cases hop

/-! ## Literals and variables -/

/-- The integer of a sign and a magnitude. -/
def ofSign (negative : Bool) (n : ℕ) : ℤ :=
  if negative then -n else n

theorem natAbs_ofSign (negative : Bool) (n : ℕ) : (ofSign negative n).natAbs = n := by
  unfold ofSign
  split_ifs <;> omega

theorem isInt_ofSign {f : Format} (hf : f.HasWholeNumbers) {negative : Bool} {n : ℕ}
    {x : Floating f} (h : x.StandsFor negative (f.nearest n)) (hn : n ≤ 2 ^ f.precision) :
    x.IsInt (ofSign negative n) := by
  refine Floating.StandsFor.isInt hf (by rwa [natAbs_ofSign]) (by rwa [natAbs_ofSign]) fun h0 => ?_
  unfold ofSign at h0 ⊢
  cases negative
  · simp
  · simp only [if_true] at h0 ⊢
    symm
    rw [decide_eq_true_eq]
    omega

/-- A literal of the integers is a sign and digits. -/
theorem Integer.exists_of_readLiteral {text : String} {n : ℤ} (htext : IsLiteral false text)
    (h : Integer.readLiteral text = .ok n) :
    ∃ negative whole, IsDigits whole ∧ text = String.ofList (signed negative whole) ∧
      n = ofSign negative (digitsValue whole) := by
  obtain ⟨negative, whole, fraction, hw, -, hd, rfl⟩ := htext.exists_signed
  obtain rfl : fraction = [] := by
    by_contra hne
    cases hd hne
  rw [pointed_nil, List.append_nil] at h ⊢
  rw [Integer.readLiteral_signed negative hw] at h
  exact ⟨negative, whole, hw, rfl, (Except.ok.inj h).symm⟩

theorem Integer.exists_of_ofVariable {name : String} {value : Binary64} {n : ℤ}
    (h : Integer.ofVariable name value = .ok n) : value.IsInt n := by
  unfold Integer.ofVariable at h
  split at h
  · next x =>
    split_ifs at h with hintegral
    cases h
    obtain ⟨n, hn⟩ := Finite.isIntegral_iff.1 hintegral
    exact ⟨x, rfl, by rw [Finite.floor_of_value hn, hn]⟩
  · cases h

/-! ## Double precision -/

namespace Float

theorem readLiteral_isInt {text : String} {n : ℤ} (htext : IsLiteral false text)
    (h : Integer.readLiteral text = .ok n) (hn : n.natAbs ≤ 2 ^ 53) :
    ∃ x, readLiteral text = .ok x ∧ x.IsInt n := by
  obtain ⟨negative, whole, hw, rfl, rfl⟩ := Integer.exists_of_readLiteral htext h
  rw [natAbs_ofSign] at hn
  have hempty : ∀ c ∈ ([] : List Char), c.isDigit := List.forall_mem_nil _
  have hread := Binary64.read?_signed negative hw hempty
  rw [pointed_nil, List.append_nil] at hread
  have hint : (Binary64.ofNumeral (NumeralParts.value ⟨negative, whole, [], 0⟩)).IsInt
      (ofSign negative (digitsValue whole)) := by
    have hvalue : (NumeralParts.value ⟨negative, whole, [], 0⟩).magnitude = digitsValue whole := by
      rw [NumeralParts.magnitude_value]
      simp
    have hstands := Format.binary64.ofNumeral_standsFor
      (NumeralParts.value ⟨negative, whole, [], 0⟩)
    rw [hvalue] at hstands
    exact isInt_ofSign hasWholeNumbers_binary64 hstands hn
  refine ⟨_, ?_, hint⟩
  obtain ⟨y, hy, -⟩ := hint
  rw [readLiteral, hread, hy]
  rfl

/-- The tolerance for integers is not below zero. -/
theorem lt_tolerance_of_isInt_zero {x : Binary64} (h : x.IsInt 0) :
    lt tolerance (abs x) = false := by
  obtain ⟨y, rfl, hy⟩ := h
  have hstands := Format.binary64.ofNumeral_standsFor ⟨false, 1, -10⟩
  change tolerance.StandsFor false _ at hstands
  cases ht : tolerance with
  | nan => rfl
  | infinite negative => rfl
  | finite t =>
    rw [ht] at hstands
    have hzero : y.abs.neg.isZero = true :=
      (Finite.value_eq_zero_iff.1 (by simpa using hy) : y.isZero = true)
    have hmant : y.abs.neg.mantissa = 0 := by simpa [Finite.isZero] using hzero
    have hexp : y.abs.neg.exponent = Format.binary64.minExponent :=
      y.abs.neg.canonical.2.2.2.resolve_left (by rw [hmant]; decide)
    have hle : y.abs.neg.exponent ≤ t.exponent := hexp.le.trans t.canonical.2.1
    have hsum := Finite.sumParts_value (.inl hzero) (.inr (by omega) :
      t.isZero = true ∨ y.abs.neg.exponent - t.exponent ≤ Format.binary64.precision + 3)
    rw [Finite.value_eq_zero_iff.2 hzero, add_zero, Finite.value_eq, hstands.1,
      if_neg Bool.false_ne_true] at hsum
    change decide ((t.sumParts y.abs.neg).1 < 0) = false
    rw [decide_eq_false_iff_not, not_lt]
    have hnonneg := t.magnitude_nonneg
    rw [← hsum] at hnonneg
    exact_mod_cast nonneg_of_mul_nonneg_left hnonneg (two_zpow_pos _)

/-- The partial products of a factorial are exact while they fit. -/
theorem foldl_mul_isInt {n : ℕ} (h : n.factorial ≤ 2 ^ 53) :
    ((List.range' 2 (n - 1)).foldl (fun acc (i : ℕ) => acc.mul (ofInt i)) (ofInt 1)).IsInt
      n.factorial := by
  have hone : (ofInt 1).IsInt 1 := Floating.isInt_ofInt hasWholeNumbers_binary64 (by decide)
  cases n with
  | zero => exact hone
  | succ k =>
    rw [Nat.add_sub_cancel]
    induction k with
    | zero => exact hone
    | succ k ih =>
      have hle : (k + 1).factorial ≤ (k + 1 + 1).factorial := Nat.factorial_le (Nat.le_succ _)
      have hself : k + 2 ≤ (k + 1 + 1).factorial := Nat.self_le_factorial _
      have hfactor : (ofInt (2 + 1 * k : ℕ)).IsInt (2 + 1 * k : ℕ) :=
        Floating.isInt_ofInt hasWholeNumbers_binary64
          (by rw [Int.natAbs_natCast]; change _ ≤ 2 ^ 53; omega)
      have hproduct : ((k + 1).factorial : ℤ) * (2 + 1 * k : ℕ) = (k + 1 + 1).factorial := by
        rw [Nat.factorial_succ (k + 1)]
        push_cast
        ring
      rw [List.range'_concat, List.foldl_append, List.foldl_cons, List.foldl_nil, ← hproduct]
      refine (ih (hle.trans h)).mul hasWholeNumbers_binary64 hfactor ?_
      rw [hproduct, Int.natAbs_natCast]
      exact h

theorem factorial_isInt {n : ℕ} {x : Binary64} (hx : x.IsInt n) (h : n.factorial ≤ 2 ^ 53) :
    ∃ y, factorial x = .ok y ∧ y.IsInt n.factorial := by
  have hsmall : n < 19 := by
    by_contra hge
    have hle : (19).factorial ≤ n.factorial := Nat.factorial_le (not_lt.1 hge)
    exact absurd (hle.trans h) (by decide)
  obtain ⟨z, rfl, hz⟩ := hx
  have hnearest : z.nearestInteger = n := Finite.nearestInteger_of_value hz
  have hint : (ofInt n).IsInt n :=
    Floating.isInt_ofInt hasWholeNumbers_binary64
      (by rw [Int.natAbs_natCast]; change n ≤ 2 ^ 53; omega)
  have hzero : ((Floating.finite z).sub (ofInt n)).IsInt 0 := by
    have hsub := Floating.IsInt.sub hasWholeNumbers_binary64 (x := .finite z) ⟨z, rfl, hz⟩ hint
      (by rw [Int.natAbs_natCast]; change n ≤ 2 ^ 53; omega)
      (by rw [Int.natAbs_natCast]; change n ≤ 2 ^ 53; omega) (by rw [sub_self]; decide)
    rwa [sub_self] at hsub
  refine ⟨_, ?_, foldl_mul_isInt h⟩
  unfold factorial
  dsimp only
  rw [hnearest, lt_tolerance_of_isInt_zero hzero, if_neg Bool.false_ne_true,
    if_neg (by omega), if_neg (by unfold factorialLimit; omega), Int.toNat_natCast]

theorem follows_integer (environment : Environment) :
    float.Follows integer environment (fun n => n.natAbs ≤ 2 ^ 53) (fun n x => x.IsInt n) := by
  refine rounded_float.follows_integer hasWholeNumbers_binary64 le_rfl readLiteral_isInt ?_
    factorial_isInt
  intro name value n _ h _
  have hint := Integer.exists_of_ofVariable h
  refine ⟨value, ?_, hint⟩
  obtain ⟨y, rfl, -⟩ := hint
  rfl

/-- The shortest digits of a whole number are its own. -/
theorem text_isInt {x : Binary64} {n : ℤ} (hx : x.IsInt n) (hne : n ≠ 0) (hn : n.natAbs ≤ 2 ^ 53) :
    x.text = toString n := by
  obtain ⟨y, rfl, hy⟩ := hx
  rw [Binary64.text_of_nat hn (Finite.magnitude_of_value hy), Finite.negative_of_value hy hne,
    toString_int]

/-- A whole number is printed as its digits. -/
theorem format_isInt {x : Binary64} {n : ℤ} (hx : x.IsInt n) (hn : n.natAbs ≤ 2 ^ 53) :
    x.format = toString n := by
  have htext := text_isInt hx
  obtain ⟨y, rfl, hy⟩ := hx
  unfold Binary64.format
  dsimp only
  split_ifs with hzero hsmall
  · have hn0 : n = 0 := by
      have hvalue := Finite.value_eq_zero_iff.2 hzero
      rw [hy] at hvalue
      exact_mod_cast hvalue
    rw [hn0]
    rfl
  · rw [Finite.floor_of_value hy]
  · refine htext ?_ hn
    rintro rfl
    exact hzero (Finite.value_eq_zero_iff.1 (by simpa using hy))

end Float

/-! ## Decimals -/

namespace Decimal

/-- Zeros alone denote zero. -/
theorem coefficient_of_isBare {parts : NumeralParts} (h : parts.isBare = true) :
    parts.value.coefficient = 0 := by
  rw [NumeralParts.isBare, Bool.and_eq_true, List.isEmpty_iff] at h
  have hzeros : parts.whole = zeros parts.whole.length := by
    rw [zeros, List.eq_replicate_iff]
    exact ⟨rfl, fun c hc => by simpa using List.all_eq_true.1 h.1 c hc⟩
  change digitsValue (parts.whole ++ parts.fraction) = 0
  rw [h.2, List.append_nil, hzeros, digitsValue_zeros]

/-- Digits are read as the number nearest to what they denote, however many they are. -/
theorem ofParts_standsFor (negative : Bool) (whole : List Char) :
    (Decimal.ofParts ⟨negative, whole, [], 0⟩).StandsFor negative
      (Format.decimal.nearest (digitsValue whole)) := by
  have hvalue : (NumeralParts.value ⟨negative, whole, [], 0⟩).magnitude = digitsValue whole := by
    rw [NumeralParts.magnitude_value]
    simp
  unfold Decimal.ofParts
  split_ifs with hbare hrange
  · have hzero : digitsValue whole = 0 := by
      have hcoeff := coefficient_of_isBare hbare
      rwa [NumeralParts.value, List.append_nil] at hcoeff
    rw [hzero, Nat.cast_zero, Format.nearest_zero]
    exact ⟨rfl, Finite.magnitude_eq_zero_iff.2 rfl⟩
  · have hnonneg : ¬Format.decimal.maxExponent < 0 := by decide
    exact absurd hrange hnonneg
  · rw [← hvalue]
    exact Format.decimal.readsNumerals.nearest (.inr rfl)

theorem read_standsFor (negative : Bool) {whole : List Char} (hw : IsDigits whole) :
    (Decimal.read (String.ofList (signed negative whole))).StandsFor negative
      (Format.decimal.nearest (digitsValue whole)) := by
  have hempty : ∀ c ∈ ([] : List Char), c.isDigit := List.forall_mem_nil _
  have hread := Decimal.read_signed negative hw hempty (stops_nil _)
  rw [pointed_nil, List.append_nil, List.append_nil] at hread
  rw [hread]
  exact ofParts_standsFor negative whole

/-- A natural number is read back from its text as the number nearest to it. -/
theorem read_toString_standsFor (n : ℕ) :
    (Decimal.read (toString n)).StandsFor false (Format.decimal.nearest n) := by
  have h := read_standsFor false (isDigits_digitChars n)
  rwa [digitsValue_digitChars] at h

theorem read_isInt (negative : Bool) {whole : List Char} (hw : IsDigits whole)
    (h : digitsValue whole < 2 ^ 256) :
    (Decimal.read (String.ofList (signed negative whole))).IsInt
      (ofSign negative (digitsValue whole)) :=
  isInt_ofSign hasWholeNumbers_decimal (read_standsFor negative hw) h.le

theorem readLiteral_isInt {text : String} {n : ℤ} (htext : IsLiteral false text)
    (h : Integer.readLiteral text = .ok n) (hn : n.natAbs ≤ 2 ^ 256 - 1) :
    ∃ x, readLiteral text = .ok x ∧ x.IsInt n := by
  obtain ⟨negative, whole, hw, rfl, rfl⟩ := Integer.exists_of_readLiteral htext h
  rw [natAbs_ofSign] at hn
  have hint := read_isInt negative hw (by omega)
  refine ⟨_, ?_, hint⟩
  obtain ⟨y, hy, -⟩ := hint
  rw [readLiteral, hy]
  rfl

/-- A variable that is a whole number of at most 53 bits stands for it. -/
theorem ofVariable_isInt {name : String} {value : Binary64} {n : ℤ} (hvalue : value.IsInt n)
    (hn : n.natAbs ≤ 2 ^ 53) : ∃ x, ofVariable name value = .ok x ∧ x.IsInt n := by
  obtain ⟨y, rfl, hy⟩ := hvalue
  have hlarge : digitsValue (digitChars n.natAbs) < 2 ^ 256 := by
    rw [digitsValue_digitChars]
    exact hn.trans_lt (by norm_num)
  have hint := read_isInt y.negative (isDigits_digitChars n.natAbs) hlarge
  rw [digitsValue_digitChars, ← Binary64.text_of_nat hn (Finite.magnitude_of_value hy)] at hint
  have hsign : ofSign y.negative n.natAbs = n := by
    rcases eq_or_ne n 0 with rfl | hne
    · simp [ofSign]
    · rw [Finite.negative_of_value hy hne, ofSign]
      simp only [decide_eq_true_eq]
      split_ifs <;> omega
  rw [hsign] at hint
  exact ⟨_, hint.checked .lookup, hint⟩

/-- A whole number is near an integer, however few digits it may be off by. -/
theorem isNearInteger_of_value {x : Finite Format.decimal} {n : ℤ} (hx : x.value = n)
    (digits : ℕ) : x.isNearInteger digits = true := by
  rw [Finite.isNearInteger_iff, Finite.nearestInteger_of_value hx, hx, sub_self, abs_zero]
  positivity

/-- A small whole number has few bits before the point. -/
theorem binaryExponent_le_of_value {x : Finite Format.decimal} {n : ℤ} (hx : x.value = n)
    (hn : n.natAbs < 2 ^ 64) : x.binaryExponent ≤ 64 := by
  rw [← not_lt, Finite.lt_binaryExponent_iff (by decide), not_le, Finite.magnitude_of_value hx]
  exact_mod_cast hn

theorem factorial_isInt {n : ℕ} {x : Decimal} (hx : x.IsInt n)
    (h : n.factorial ≤ 2 ^ 256 - 1) : ∃ y, factorial x = .ok y ∧ y.IsInt n.factorial := by
  have hsmall : n < 58 := by
    by_contra hge
    have hle : (58).factorial ≤ n.factorial := Nat.factorial_le (not_lt.1 hge)
    exact absurd (hle.trans h) (by decide)
  obtain ⟨z, rfl, hz⟩ := hx
  have hint : (Decimal.read (toString n.factorial)).IsInt n.factorial :=
    isInt_ofSign hasWholeNumbers_decimal (read_toString_standsFor n.factorial)
      (h.trans (Nat.sub_le _ 1))
  have hbits := binaryExponent_le_of_value hz
    (by rw [Int.natAbs_natCast]; exact hsmall.trans (by norm_num))
  refine ⟨_, ?_, hint⟩
  unfold factorial
  dsimp only
  rw [Finite.nearestInteger_of_value hz, isNearInteger_of_value hz, if_neg (by omega),
    if_neg (by simp), if_neg (by omega), if_neg (by unfold factorialLimit; omega),
    Int.toNat_natCast, productUpTo_eq, one_mul]
  exact hint.checked .factorial

/-- A value that the integers accept for a variable is the same whole number to the decimals. -/
theorem ofVariable_of_integer {name : String} {value : Binary64} {n : ℤ}
    (hvalue : ∃ m : ℤ, value.IsInt m ∧ m.natAbs ≤ 2 ^ 53)
    (h : Integer.ofVariable name value = .ok n) :
    ∃ x, ofVariable name value = .ok x ∧ x.IsInt n := by
  obtain ⟨m, hm, hbound⟩ := hvalue
  obtain rfl : m = n := hm.unique (Integer.exists_of_ofVariable h)
  exact ofVariable_isInt hm hbound

theorem follows_integer {environment : Environment}
    (hvariables : ∀ name value, environment name = some value →
      ∃ n : ℤ, value.IsInt n ∧ n.natAbs ≤ 2 ^ 53) :
    decimal.Follows integer environment (fun n => n.natAbs ≤ 2 ^ 256 - 1)
      (fun n x => x.IsInt n) := by
  have hbound : 2 ^ 256 - 1 ≤ 2 ^ Format.decimal.precision := by
    change 2 ^ 256 - 1 ≤ 2 ^ 256
    omega
  refine rounded_decimal.follows_integer hasWholeNumbers_decimal hbound
    readLiteral_isInt ?_ factorial_isInt
  intro name value n hname h _
  exact ofVariable_of_integer (hvariables name value hname) h

theorem render_of_isZero {x : Finite Format.decimal} (h : x.isZero = true) :
    render (.finite x) = toString (0 : ℤ) := by
  rw [render, Floating.render, Abacus.Decimal.render?_of_isZero h]
  rfl

theorem render_of_renderFinite? {x : Finite Format.decimal} (h : x.isZero = false) {text : String}
    (htext : Abacus.Decimal.renderFinite? x digits = some text) : render (.finite x) = text := by
  rw [render, Floating.render, Abacus.Decimal.render?_of_isZero_eq_false h, htext]
  rfl

/-- A number close enough to a magnitude of fifty digits at most is printed as it. -/
theorem render_of_close {x : Finite Format.decimal} {ds : List Char} {point : ℤ}
    (h : Abacus.Decimal.Trimmed ds) (hlength : ds.length ≤ digits)
    (hclose : |x.magnitude - Abacus.Decimal.positional ds point| ≤
      Abacus.Decimal.positional ds point * (2 / 5 / 10 ^ digits)) :
    render (.finite x) = String.ofList (Abacus.Decimal.layout ds point x.negative digits) := by
  have hnonzero := Abacus.Decimal.isZero_of_close (h.positional_pos point) hclose
  exact render_of_renderFinite? hnonzero (Abacus.Decimal.renderFinite?_of_close
    Abacus.Decimal.hasSmallExponents_decimal (by decide) (by decide) h hlength hclose)

/-- A whole number of at most fifty digits is printed as its digits. -/
theorem render_isInt {x : Decimal} {n : ℤ} (hx : x.IsInt n) (hn : n.natAbs < 10 ^ 50) :
    render x = toString n := by
  obtain ⟨y, rfl, hy⟩ := hx
  cases hzero : y.isZero with
  | true =>
    have hvalue := Finite.value_eq_zero_iff.2 hzero
    rw [hy] at hvalue
    obtain rfl : n = 0 := by exact_mod_cast hvalue
    exact render_of_isZero hzero
  | false =>
    have hne : n ≠ 0 := by
      rintro rfl
      rw [Finite.value_eq_zero_iff.1 (by simpa using hy)] at hzero
      cases hzero
    have hpos : 0 < n.natAbs := Int.natAbs_pos.2 hne
    have hlength : (digitChars n.natAbs).length ≤ digits :=
      (length_digitChars_le_iff (by decide)).2 hn
    obtain ⟨htrimmed, hle, hvalue⟩ :=
      (Abacus.Decimal.leading_digitChars hpos).trimmed (digitChars n.natAbs).length
    have hexact : y.magnitude = Abacus.Decimal.positional
        (Abacus.Decimal.dropTrailingZeros (digitChars n.natAbs)) (digitChars n.natAbs).length := by
      rw [hvalue, Abacus.Decimal.positional, sub_self, zpow_zero, mul_one,
        digitsValue_digitChars, Finite.magnitude_of_value hy]
    have hclose : |y.magnitude - Abacus.Decimal.positional
        (Abacus.Decimal.dropTrailingZeros (digitChars n.natAbs)) (digitChars n.natAbs).length| ≤
        Abacus.Decimal.positional (Abacus.Decimal.dropTrailingZeros (digitChars n.natAbs))
          (digitChars n.natAbs).length * (2 / 5 / 10 ^ digits) := by
      rw [hexact, sub_self, abs_zero]
      exact mul_nonneg (htrimmed.positional_pos _).le (by positivity)
    rw [render_of_close htrimmed (hle.trans hlength) hclose,
      Abacus.Decimal.layout_of_nat _ _ hlength, Finite.negative_of_value hy hne, toString_int]

end Decimal

end NumberSystem

end Abacus
