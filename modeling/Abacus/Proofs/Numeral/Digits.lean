/-
Abacus.Proofs.Numeral.Digits — digit strings and the numbers they denote.

A digit string denotes a natural number (`digitsValue`), and a natural number
has one digit string that does not begin with a zero (`digitChars`).  Strings
of one length are determined by their numbers, so two ways of writing a number
can be compared through what they denote.
-/
import Abacus.Numeral.Plain
import Abacus.Proofs.Syntax.Shape
import Mathlib

namespace Abacus

/-! ## The number of a digit string -/

@[simp] theorem digitsValue_nil : digitsValue [] = 0 := rfl

theorem digitsValue_append (cs ds : List Char) :
    digitsValue (cs ++ ds) = digitsValue cs * 10 ^ ds.length + digitsValue ds := by
  unfold digitsValue
  rw [Nat.ofDigitChars_append, Nat.ofDigitChars_eq_ofDigitChars_zero, Nat.mul_comm]

theorem digitsValue_singleton (c : Char) : digitsValue [c] = c.toNat - 48 := by
  simp [digitsValue, Nat.ofDigitChars_cons]

theorem digitsValue_cons (c : Char) (cs : List Char) :
    digitsValue (c :: cs) = (c.toNat - 48) * 10 ^ cs.length + digitsValue cs := by
  rw [← List.singleton_append, digitsValue_append, digitsValue_singleton]

@[simp] theorem length_zeros (n : ℕ) : (zeros n).length = n :=
  List.length_replicate

@[simp] theorem digitsValue_zeros (n : ℕ) : digitsValue (zeros n) = 0 := by
  simp [digitsValue, zeros]

theorem isDigit_of_mem_zeros {n : ℕ} {c : Char} (h : c ∈ zeros n) : c.isDigit = true := by
  rw [List.eq_of_mem_replicate h]
  rfl

/-- A string of digits denotes less than the power of ten with as many zeros. -/
theorem digitsValue_lt {cs : List Char} (h : ∀ c ∈ cs, c.isDigit = true) :
    digitsValue cs < 10 ^ cs.length := by
  induction cs with
  | nil => simp
  | cons c cs ih =>
    obtain ⟨hc, hcs⟩ := List.forall_mem_cons.1 h
    have hdigit : c.toNat - 48 + 1 ≤ 10 := by
      have := isDigit_iff.1 hc
      omega
    calc
      digitsValue (c :: cs) < (c.toNat - 48) * 10 ^ cs.length + 10 ^ cs.length := by
        rw [digitsValue_cons]
        exact Nat.add_lt_add_left (ih hcs) _
      _ = (c.toNat - 48 + 1) * 10 ^ cs.length := by ring
      _ ≤ 10 * 10 ^ cs.length := Nat.mul_le_mul_right _ hdigit
      _ = 10 ^ (c :: cs).length := by rw [List.length_cons, pow_succ, mul_comm]

/-- Strings of one length that denote one number are the same. -/
theorem eq_of_digitsValue_eq {cs ds : List Char} (hcs : ∀ c ∈ cs, c.isDigit = true)
    (hds : ∀ d ∈ ds, d.isDigit = true) (hlength : cs.length = ds.length)
    (h : digitsValue cs = digitsValue ds) : cs = ds := by
  induction cs generalizing ds with
  | nil => exact (List.length_eq_zero_iff.1 hlength.symm).symm
  | cons c cs ih =>
    obtain ⟨d, ds, rfl⟩ := List.exists_cons_of_length_eq_add_one hlength.symm
    obtain ⟨hc, hcs⟩ := List.forall_mem_cons.1 hcs
    obtain ⟨hd, hds⟩ := List.forall_mem_cons.1 hds
    have htail : cs.length = ds.length := Nat.succ.inj hlength
    rw [digitsValue_cons, digitsValue_cons, htail] at h
    have hltc := digitsValue_lt hcs
    have hltd := digitsValue_lt hds
    rw [htail] at hltc
    -- first digit and rest are quotient and remainder
    have hdiv := congrArg (· / 10 ^ ds.length) h
    have hmod := congrArg (· % 10 ^ ds.length) h
    have hpos : 0 < 10 ^ ds.length := by positivity
    simp only [Nat.mul_comm _ (10 ^ ds.length), Nat.mul_add_div hpos,
      Nat.div_eq_of_lt hltc, Nat.div_eq_of_lt hltd, Nat.mul_add_mod, Nat.mod_eq_of_lt hltc,
      Nat.mod_eq_of_lt hltd, Nat.add_zero] at hdiv hmod
    have hc' := isDigit_iff.1 hc
    have hd' := isDigit_iff.1 hd
    have hcd : c = d := Char.toNat_inj.1 (by omega)
    rw [hcd, ih hcs hds htail hmod]

/-! ## The digits of a number -/

@[simp] theorem digitsValue_digitChars (n : ℕ) : digitsValue (digitChars n) = n :=
  Nat.ofDigitChars_ten_toDigits

theorem isDigits_digitChars (n : ℕ) : IsDigits (digitChars n) :=
  ⟨Nat.toDigits_ne_nil, fun _ hc => Nat.isDigit_of_mem_toDigits (by norm_num) (by norm_num) hc⟩

theorem length_digitChars_le_iff {n k : ℕ} (hk : 0 < k) :
    (digitChars n).length ≤ k ↔ n < 10 ^ k :=
  Nat.length_toDigits_le_iff (by norm_num) hk

theorem length_digitChars_pos (n : ℕ) : 0 < (digitChars n).length :=
  List.length_pos_iff.2 (isDigits_digitChars n).1

/-- A string of digits that does not begin with a zero is that of its number. -/
theorem digitChars_digitsValue {cs : List Char} (h : IsDigits cs) (hhead : cs.head? ≠ some '0') :
    digitChars (digitsValue cs) = cs := by
  obtain ⟨hne, hcs⟩ := h
  refine eq_of_digitsValue_eq (isDigits_digitChars _).2 hcs (le_antisymm ?_ ?_)
    (digitsValue_digitChars _)
  · exact (length_digitChars_le_iff (List.length_pos_iff.2 hne)).2 (digitsValue_lt hcs)
  · obtain ⟨c, cs, rfl⟩ := List.exists_cons_of_ne_nil hne
    have hc := isDigit_iff.1 (hcs c List.mem_cons_self)
    have hzero : c ≠ '0' := by simpa using hhead
    have hfirst : 1 ≤ c.toNat - 48 := by
      have hne' : c.toNat ≠ 48 := fun heq => hzero (Char.toNat_inj.1 heq)
      omega
    have hle : 10 ^ cs.length ≤ digitsValue (c :: cs) := by
      rw [digitsValue_cons]
      calc
        10 ^ cs.length = 1 * 10 ^ cs.length := (one_mul _).symm
        _ ≤ (c.toNat - 48) * 10 ^ cs.length := Nat.mul_le_mul_right _ hfirst
        _ ≤ _ := Nat.le_add_right _ _
    rw [List.length_cons, Nat.succ_le_iff]
    rcases Nat.eq_zero_or_pos cs.length with hnil | hpos
    · rw [hnil]
      exact length_digitChars_pos _
    · exact not_le.1 fun hlen => not_lt.2 hle ((length_digitChars_le_iff hpos).1 hlen)

theorem head?_digitChars {n : ℕ} (hn : 0 < n) : (digitChars n).head? ≠ some '0' := by
  intro hhead
  obtain ⟨hne, hdigits⟩ := isDigits_digitChars n
  obtain ⟨c, cs, hcons⟩ := List.exists_cons_of_ne_nil hne
  rw [hcons] at hhead hdigits
  obtain rfl : c = '0' := by simpa using hhead
  have hvalue : digitsValue cs = n := by
    have := digitsValue_digitChars n
    rw [hcons, digitsValue_cons] at this
    simpa using this
  have hlt := digitsValue_lt (List.forall_mem_cons.1 hdigits).2
  rw [hvalue] at hlt
  rcases Nat.eq_zero_or_pos cs.length with hnil | hpos
  · rw [hnil] at hlt
    omega
  · have hlen := (length_digitChars_le_iff hpos).2 hlt
    rw [hcons, List.length_cons] at hlen
    omega

/-- A factor of a power of ten is written as zeros. -/
theorem digitChars_mul_pow {n : ℕ} (hn : 0 < n) (k : ℕ) :
    digitChars (n * 10 ^ k) = digitChars n ++ zeros k := by
  have hvalue : digitsValue (digitChars n ++ zeros k) = n * 10 ^ k := by
    rw [digitsValue_append, digitsValue_digitChars, digitsValue_zeros, length_zeros, add_zero]
  rw [← hvalue]
  obtain ⟨hne, hdigits⟩ := isDigits_digitChars n
  refine digitChars_digitsValue ⟨by simp [hne], ?_⟩ ?_
  · exact List.forall_mem_append.2 ⟨hdigits, fun _ => isDigit_of_mem_zeros⟩
  · rw [List.head?_append_of_ne_nil _ hne]
    exact head?_digitChars hn

/-- The length of a number is where its leading digit stands. -/
theorem length_digitChars_eq {n : ℕ} (hn : 0 < n) :
    ((digitChars n).length : ℤ) = Int.log 10 (n : ℚ) + 1 := by
  rw [Int.log_natCast]
  have hpos := length_digitChars_pos n
  have hlt : n < 10 ^ (digitChars n).length := (length_digitChars_le_iff hpos).1 le_rfl
  have hle : 10 ^ ((digitChars n).length - 1) ≤ n := by
    rcases Nat.eq_zero_or_pos ((digitChars n).length - 1) with hone | hpos'
    · rw [hone]
      exact hn
    · exact not_lt.1 fun h => absurd ((length_digitChars_le_iff hpos').2 h) (by omega)
  have hlog : Nat.log 10 n = (digitChars n).length - 1 := by
    rw [Nat.log_eq_iff (.inr ⟨by norm_num, hn.ne'⟩), Nat.sub_add_cancel hpos]
    exact ⟨hle, hlt⟩
  omega

/-! ## Signs -/

/-- A text, with a minus sign in front if it is negative. -/
def signed (negative : Bool) (cs : List Char) : List Char :=
  if negative then '-' :: cs else cs

/-- The text of an integer is that of its magnitude behind its sign. -/
theorem toString_int (n : ℤ) :
    toString n = String.ofList (signed (n < 0) (digitChars n.natAbs)) := by
  match n with
  | .ofNat n => simp only [signed, Int.ofNat_eq_natCast]; rfl
  | .negSucc n =>
    have hneg : Int.negSucc n < 0 := Int.negSucc_lt_zero n
    rw [signed, decide_eq_true hneg, if_pos rfl]
    change "-" ++ Nat.repr (n + 1) = _
    rw [← String.toList_inj]
    simp [digitChars]

end Abacus
