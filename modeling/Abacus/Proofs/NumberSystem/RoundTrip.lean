/-
Abacus.Proofs.NumberSystem.RoundTrip — printing in double precision without loss.

A finite number is encoded in 64 bits (`Binary64.toBits_ofBits`), and its text is
read as the number itself, apart from the sign of zero
(`Binary64.read?_format_eq`).  So no bit is lost in a text that the lexer takes
for one literal (`Binary64.format_is_lossless`).  Whole numbers of up to fifteen
digits are printed in a way of their own, but no differently.
-/
import Abacus.Proofs.NumberSystem.Storing

namespace Abacus

theorem Format.pack_of_canonical {f : Format} (negative : Bool) {m : ℕ} {e : ℤ}
    (h : f.Canonical m e) : f.pack negative m e = .finite ⟨negative, m, e, h⟩ := by
  have hcarry : m ≠ 2 ^ f.precision := h.1.ne
  unfold pack
  simp only [hcarry, if_false]
  exact dif_pos h

namespace Binary64

/-! ## Bits -/

/-- A sign and two fields are all of the 64 bits. -/
theorem join_fields {bits : ℕ} (h : bits < 2 ^ 64) :
    join (bits / 2 ^ (exponentBits + fractionBits) % 2 == 1)
      (bits / 2 ^ fractionBits % 2 ^ exponentBits) (bits % 2 ^ fractionBits) = bits := by
  unfold join exponentBits fractionBits
  simp only [beq_iff_eq]
  split_ifs <;> omega

theorem toBits_pack_subnormal (negative : Bool) {fraction : ℕ}
    (hfraction : fraction < 2 ^ fractionBits) :
    toBits (Format.binary64.pack negative fraction Format.binary64.minExponent) =
      join negative 0 fraction := by
  have hcanonical : Format.binary64.Canonical fraction Format.binary64.minExponent :=
    ⟨hfraction.trans (by decide), by decide, by decide, .inr rfl⟩
  rw [Format.pack_of_canonical negative hcanonical, toBits, if_pos hfraction]

theorem toBits_pack_normal (negative : Bool) {field fraction : ℕ} (hzero : field ≠ 0)
    (hfield : field < specialField) (hfraction : fraction < 2 ^ fractionBits) :
    toBits (Format.binary64.pack negative (2 ^ fractionBits + fraction) (field - fieldBias)) =
      join negative field fraction := by
  have hmantissa : 2 ^ fractionBits + fraction < 2 ^ Format.binary64.precision :=
    calc
      2 ^ fractionBits + fraction < 2 ^ fractionBits + 2 ^ fractionBits := by omega
      _ = 2 ^ Format.binary64.precision := by decide
  have hlow : Format.binary64.minExponent ≤ field - fieldBias := by
    unfold Format.binary64 fieldBias
    dsimp only
    omega
  have hhigh : field - fieldBias + Format.binary64.precision ≤ Format.binary64.maxExponent := by
    unfold specialField at hfield
    unfold Format.binary64 fieldBias
    dsimp only
    omega
  have hcanonical : Format.binary64.Canonical (2 ^ fractionBits + fraction) (field - fieldBias) :=
    ⟨hmantissa, hlow, hhigh, .inl (Nat.le_add_right _ _)⟩
  have hnormal : ¬2 ^ fractionBits + fraction < 2 ^ fractionBits := by omega
  rw [Format.pack_of_canonical negative hcanonical, toBits, if_neg hnormal, sub_add_cancel,
    Int.toNat_natCast, Nat.add_sub_cancel_left]

/-- The bits of a finite number are kept. -/
theorem toBits_ofBits {bits : ℕ} (h : bits < 2 ^ 64) (hfinite : (ofBits bits).isFinite = true) :
    toBits (ofBits bits) = bits := by
  have hfraction : bits % 2 ^ fractionBits < 2 ^ fractionBits := Nat.mod_lt _ (by decide)
  have hfield : bits / 2 ^ fractionBits % 2 ^ exponentBits ≤ specialField :=
    Nat.le_of_lt_succ (Nat.mod_lt _ (by decide))
  have hjoin := join_fields h
  rw [ofBits] at hfinite ⊢
  split_ifs at hfinite ⊢ with hspecial hinfinite hzero
  · cases hfinite
  · cases hfinite
  · rw [hzero] at hjoin
    rw [toBits_pack_subnormal _ hfraction, hjoin]
  · rw [toBits_pack_normal _ hzero (lt_of_le_of_ne hfield hspecial) hfraction, hjoin]

/-! ## Texts -/

/-- The text of a finite number is read as the number, without the sign of a zero. -/
theorem read?_format_eq {x : Binary64} (hx : x.isFinite = true) :
    read? x.format = some (if x.isZero then .finite (.zero false) else x) := by
  split_ifs with hzero
  · cases x with
    | nan => cases hx
    | infinite negative => cases hx
    | finite y =>
      have hformat : format (.finite y) = "0" := if_pos hzero
      rw [hformat]
      decide +kernel
  · obtain ⟨y, hread, hsame⟩ := read?_format hx
    rw [hread, hsame.symm.eq_of_isZero (Bool.eq_false_iff.2 hzero)]

/-- The text of a finite number is read as the same bits, except that a zero loses its sign, and
the lexer takes it for one literal.  A whole number of up to fifteen digits is written as an
integer, which is also its shortest text. -/
theorem format_is_lossless {bits : ℕ} (hbits : bits < 2 ^ 64)
    (hfinite : (ofBits bits).isFinite = true) :
    (read? (ofBits bits).format).map toBits =
        some (if (ofBits bits).isZero then 0 else bits) ∧
      (∀ caps : Capabilities, caps.decimals = true →
        tokenize caps (ofBits bits).format = .ok [.number (ofBits bits).format]) ∧
      ∀ n : ℤ, (ofBits bits).IsInt n → n ≠ 0 → n.natAbs < 10 ^ 15 →
        (ofBits bits).format = toString n ∧ (ofBits bits).text = toString n := by
  refine ⟨?bits, ?token, ?whole⟩
  case bits =>
    rw [read?_format_eq hfinite, Option.map_some]
    split_ifs with hzero
    · rfl
    · rw [toBits_ofBits hbits hfinite]
  case token =>
    intro caps hdecimals
    refine tokenize_literal ?_
    rw [hdecimals]
    exact (NumberSystem.Float.format_readsBack hfinite).1
  case whole =>
    intro n hn hne hsmall
    have hle : n.natAbs ≤ 2 ^ 53 := by omega
    exact ⟨NumberSystem.Float.format_isInt hn hle, NumberSystem.Float.text_isInt hn hne hle⟩

/-- The number `-5`. -/
theorem format_is_lossless_negative :
    (read? (ofBits 13840687554816376832).format).map toBits = some 13840687554816376832 ∧
      tokenize .all (ofBits 13840687554816376832).format =
        .ok [.number (ofBits 13840687554816376832).format] ∧
      (ofBits 13840687554816376832).format = "-5" ∧
      (ofBits 13840687554816376832).text = "-5" := by
  have hfinite : (ofBits 13840687554816376832).isFinite = true := by decide +kernel
  have hnumber : ofBits 13840687554816376832 = Format.binary64.ofInt (-5) := by decide +kernel
  have hint : (ofBits 13840687554816376832).IsInt (-5) := by
    rw [hnumber]
    exact Floating.isInt_ofInt hasWholeNumbers_binary64 (by decide)
  obtain ⟨hbits, htoken, hwhole⟩ := format_is_lossless (by decide) hfinite
  rw [if_neg (by decide +kernel)] at hbits
  obtain ⟨hformat, htext⟩ := hwhole (-5) hint (by decide) (by decide)
  exact ⟨hbits, htoken .all rfl, hformat, htext⟩

end Binary64

end Abacus
