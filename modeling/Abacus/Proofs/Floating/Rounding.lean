/-
Abacus.Proofs.Floating.Rounding — rounding never gives NaN.

An exact value that is rounded gives a finite number or an infinity, whichever
way it is rounded.
-/
import Abacus.Floating.Scaling

namespace Abacus.Format

variable (f : Format)

theorem pack_ne_nan (negative : Bool) (mantissa : Nat) (exponent : Int) :
    f.pack negative mantissa exponent ≠ .nan := by
  unfold pack
  dsimp only
  split <;> split <;> nofun

theorem round_ne_nan (negative : Bool) (num den : Nat) (scale : Int) :
    f.round negative num den scale ≠ .nan := by
  unfold round
  dsimp only
  split
  · nofun
  · exact f.pack_ne_nan negative _ _

theorem refine_ne_nan {attempt : Nat → Option (Floating f)} {final : Unit → Floating f}
    (hattempt : ∀ bits, attempt bits ≠ some .nan) (hfinal : final () ≠ .nan) (fuel bits : Nat) :
    f.refine attempt final fuel bits ≠ .nan := by
  induction fuel generalizing bits with
  | zero => exact hfinal
  | succ fuel ih =>
    rw [refine]
    split
    · next x hx =>
      rintro rfl
      exact hattempt bits hx
    · exact ih (2 * bits)

theorem common?_ne_nan {lower upper : Floating f} (h : lower ≠ .nan) :
    Floating.common? lower upper ≠ some .nan := by
  unfold Floating.common?
  split
  · exact fun heq => h (Option.some.inj heq)
  · nofun

theorem roundTimesPower_ne_nan (negative : Bool) (num base n : Nat) (scale : Int) :
    f.roundTimesPower negative num base n scale ≠ .nan := by
  unfold roundTimesPower
  dsimp only
  split
  · exact f.round_ne_nan _ _ _ _
  · exact f.refine_ne_nan (fun bits => f.common?_ne_nan (f.round_ne_nan _ _ _ _))
      (f.round_ne_nan _ _ _ _) _ _

theorem roundOverPower_ne_nan (negative : Bool) (num base n : Nat) (scale : Int) :
    f.roundOverPower negative num base n scale ≠ .nan := by
  unfold roundOverPower
  dsimp only
  split
  · exact f.round_ne_nan _ _ _ _
  · refine f.refine_ne_nan (fun bits => ?_) (f.round_ne_nan _ _ _ _) _ _
    split
    · nofun
    · exact f.common?_ne_nan (f.round_ne_nan _ _ _ _)

theorem roundNumeral_ne_nan (n : Numeral) : f.roundNumeral n ≠ .nan := by
  unfold roundNumeral
  split
  · exact f.roundTimesPower_ne_nan _ _ _ _ _
  · exact f.roundOverPower_ne_nan _ _ _ _ _

theorem roundInRange_ne_nan {round : Numeral → Floating f} {n : Numeral} (h : round n ≠ .nan) :
    f.roundInRange round n ≠ .nan := by
  unfold roundInRange
  dsimp only
  split
  · nofun
  · split
    · nofun
    · split
      · nofun
      · exact h

theorem ofNumeral_ne_nan (n : Numeral) : f.ofNumeral n ≠ .nan :=
  f.roundInRange_ne_nan (f.roundNumeral_ne_nan n)

theorem settleNumeral_ne_nan (n : Numeral) (fuel precision step : Nat) :
    f.settleNumeral n fuel precision step ≠ .nan := by
  induction fuel generalizing precision step with
  | zero => exact f.roundNumeral_ne_nan n
  | succ fuel ih =>
    rw [settleNumeral]
    split
    · exact ih _ _
    · exact f.round_ne_nan _ _ _ _

theorem readNumeral_ne_nan (n : Numeral) : f.readNumeral n ≠ .nan := by
  unfold readNumeral
  split
  · exact f.ofNumeral_ne_nan n
  · exact f.roundInRange_ne_nan (f.settleNumeral_ne_nan n _ _ _)

end Abacus.Format
