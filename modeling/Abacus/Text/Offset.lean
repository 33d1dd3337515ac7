/-
Abacus.Text.Offset — cutting a line at a byte offset.

Cursors count the bytes of the UTF-8 form of a line, so an offset can lie
inside a character; there the line cannot be cut.
-/
import Abacus.Text.Blank

namespace Abacus

/-- The characters before and behind a byte offset; `none` if the offset lies
inside a character or beyond the end. -/
def splitAtByte? : Nat → List Char → Option (List Char × List Char)
  | 0, cs => some ([], cs)
  | _ + 1, [] => none
  | n + 1, c :: cs =>
    if c.utf8Size ≤ n + 1 then
      (splitAtByte? (n + 1 - c.utf8Size) cs).map fun (before, behind) => (c :: before, behind)
    else none

theorem byteLength_reverse (cs : List Char) : byteLength cs.reverse = byteLength cs := by
  induction cs with
  | nil => rfl
  | cons c cs ih => simp [byteLength, ih, Nat.add_comm]

theorem splitAtByte?_cons (c : Char) (n : Nat) (cs : List Char) :
    splitAtByte? (c.utf8Size + n) (c :: cs) =
      (splitAtByte? n cs).map fun (before, behind) => (c :: before, behind) := by
  obtain ⟨size, hsize⟩ := Nat.exists_eq_add_one.2 c.utf8Size_pos
  rw [hsize, Nat.add_right_comm, splitAtByte?, hsize, if_pos (by omega)]
  rw [Nat.add_right_comm, Nat.add_sub_cancel_left]

/-- A line can be cut behind any of its characters. -/
theorem splitAtByte?_append (before behind : List Char) :
    splitAtByte? (byteLength before) (before ++ behind) = some (before, behind) := by
  induction before with
  | nil => simp [byteLength, splitAtByte?]
  | cons c cs ih => rw [byteLength, List.cons_append, splitAtByte?_cons, ih]; rfl

/-- A line cannot be cut inside a character. -/
theorem splitAtByte?_inside {c : Char} {n : Nat} (hpos : 0 < n) (hlt : n < c.utf8Size)
    (before behind : List Char) :
    splitAtByte? (byteLength before + n) (before ++ c :: behind) = none := by
  induction before with
  | nil =>
    obtain ⟨k, rfl⟩ := Nat.exists_eq_add_one.2 hpos
    rw [byteLength, Nat.zero_add, List.nil_append, splitAtByte?, if_neg (Nat.not_le.2 hlt)]
  | cons d ds ih =>
    rw [byteLength, Nat.add_assoc, List.cons_append, splitAtByte?_cons, ih]
    rfl

end Abacus
