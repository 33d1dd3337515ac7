/-
Abacus.Proofs.Decimal.ReadBack — reading back the digits that were laid out.

Whichever notation is chosen, the text is a numeral in one way only, and its value
is that of the digits at their point, with their sign (`layouts_read_back`).  Digits
without zeros at their ends are therefore the only ones with their text, for any
count that decides between the notations.
-/
import Abacus.Proofs.Decimal.Digits

namespace Abacus.Decimal

/-- The text is a numeral in one way, and this is its value. -/
def ReadsAs (text : List Char) (q : ℚ) : Prop :=
  ∃ n, Written text n ∧ n.value = q ∧ ∀ m, Written text m → m = n

/-- The number `± 0.d₁d₂… * 10 ^ point`. -/
def signedPositional (digits : List Char) (point : ℤ) (negative : Bool) : ℚ :=
  if negative then -positional digits point else positional digits point

variable {digits digits' : List Char} {point point' : ℤ} {negative negative' : Bool} {count : ℕ}

theorem readsAs_layout (h : Leading digits) (point : ℤ) (negative : Bool) (count : ℕ) :
    ReadsAs (layout digits point negative count) (signedPositional digits point negative) := by
  obtain ⟨n, hwritten, hnegative, hmagnitude⟩ := written_layout h point negative count
  refine ⟨n, hwritten, ?_, fun m hm => hm.unique hwritten⟩
  rw [Numeral.value, hnegative, hmagnitude, signedPositional]

/-- Different digits, points or signs are laid out differently. -/
theorem layout_injective (h : Trimmed digits) (h' : Trimmed digits')
    (htext : layout digits point negative count = layout digits' point' negative' count) :
    digits = digits' ∧ point = point' ∧ negative = negative' := by
  obtain ⟨n, hwritten, hnegative, hmagnitude⟩ := written_layout h.toLeading point negative count
  obtain ⟨m, hwritten', hnegative', hmagnitude'⟩ :=
    written_layout h'.toLeading point' negative' count
  rw [htext] at hwritten
  obtain rfl := hwritten.unique hwritten'
  obtain ⟨hdigits, hpoint⟩ := h.unique h' (hmagnitude.symm.trans hmagnitude')
  exact ⟨hdigits, hpoint, hnegative.symm.trans hnegative'⟩

/-- Digits at a point in range have a text, which is read as their number and which no other
digits, points or signs have. -/
theorem layouts_read_back (h : Trimmed digits) (hpoint : |point| < 2 ^ 62) (negative : Bool)
    (count : ℕ) :
    ∃ text, layout? digits point negative count = some text ∧
      ReadsAs text (signedPositional digits point negative) ∧
      ∀ digits' point' negative', Trimmed digits' → |point'| < 2 ^ 62 →
        layout? digits' point' negative' count = some text →
        digits' = digits ∧ point' = point ∧ negative' = negative := by
  obtain ⟨hlow, hhigh⟩ := abs_lt.1 hpoint
  refine ⟨_, layout?_eq h.toLeading negative count hlow hhigh.le,
    readsAs_layout h.toLeading point negative _,
    fun digits' point' negative' h' hpoint' htext => ?_⟩
  obtain ⟨hlow', hhigh'⟩ := abs_lt.1 hpoint'
  rw [layout?_eq h'.toLeading negative' count hlow' hhigh'.le, Option.some.injEq] at htext
  exact layout_injective h' h htext

/-- Far behind the point the digits are read back from scientific notation. -/
theorem layouts_read_back_far_below :
    Trimmed ['1', '2', '5'] ∧ |(-2 ^ 61 : ℤ)| < 2 ^ 62 ∧
      layout? ['1', '2', '5'] (-2 ^ 61) true 50 = some "-1.25E-2305843009213693953".toList ∧
      ReadsAs "-1.25E-2305843009213693953".toList
        (signedPositional ['1', '2', '5'] (-2 ^ 61) true) := by
  have htrimmed : Trimmed ['1', '2', '5'] := ⟨⟨⟨by simp, by simp⟩, by simp⟩, by simp⟩
  have hpoint : |(-2 ^ 61 : ℤ)| < 2 ^ 62 := by norm_num
  have hlayout : layout? ['1', '2', '5'] (-2 ^ 61) true 50 =
      some "-1.25E-2305843009213693953".toList := by decide +kernel
  obtain ⟨text, htext, hreads, -⟩ := layouts_read_back htrimmed hpoint true 50
  obtain rfl := Option.some.inj (htext.symm.trans hlayout)
  exact ⟨htrimmed, hpoint, hlayout, hreads⟩

end Abacus.Decimal
