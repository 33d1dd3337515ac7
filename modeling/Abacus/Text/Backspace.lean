/-
Abacus.Text.Backspace — lines in which backspaces were typed.

A backspace takes back the grapheme before it.  How much a grapheme takes up
is remembered in one byte, so of a grapheme of 256 bytes or more only the
remainder is taken back.  A line without backspaces stays as it is.
-/
import Abacus.Text.Blank
import Abacus.Text.Grapheme

namespace Abacus

/-- The backspace. -/
def backspace : Char := '\x08'

/-- Drop characters from the front until at least `n` bytes are gone. -/
def dropBytes : Nat → List Char → List Char
  | 0, cs => cs
  | _ + 1, [] => []
  | n + 1, c :: cs => dropBytes (n + 1 - c.utf8Size) cs

/-- A line while it is typed. -/
structure TypedLine where
  /-- What was typed, the last character first. -/
  reversed : List Char
  /-- The bytes that each backspace takes back. -/
  sizes : List Nat

namespace TypedLine

/-- Sizes of graphemes are remembered up to multiples of this. -/
def sizeModulus : Nat := 256

/-- Take back the last grapheme, if there is one. -/
def takeBack (line : TypedLine) : TypedLine :=
  match line.sizes with
  | [] => line
  | n :: sizes => ⟨dropBytes n line.reversed, sizes⟩

/-- Type a grapheme. -/
def push (line : TypedLine) (grapheme : List Char) : TypedLine :=
  if grapheme = [backspace] then line.takeBack
  else ⟨grapheme.reverse ++ line.reversed, byteLength grapheme % sizeModulus :: line.sizes⟩

/-- What was typed. -/
def text (line : TypedLine) : List Char :=
  line.reversed.reverse

theorem text_foldl_push (line : TypedLine) (graphemes : List (List Char))
    (h : ∀ g ∈ graphemes, g ≠ [backspace]) :
    (graphemes.foldl push line).text = line.text ++ graphemes.flatten := by
  induction graphemes generalizing line with
  | nil => simp
  | cons g gs ih =>
    have hg : g ≠ [backspace] := h g (by simp)
    have hgs : ∀ g ∈ gs, g ≠ [backspace] := fun g m => h g (by simp [m])
    rw [List.foldl_cons, ih _ hgs]
    simp [push, hg, text]

end TypedLine

/-- What is left of a line when its backspaces have done their work. -/
def applyBackspaces (line : List Char) : List Char :=
  ((Grapheme.cut line).foldl TypedLine.push ⟨[], []⟩).text

/-- A line without backspaces stays as it is. -/
theorem applyBackspaces_of_notMem {line : List Char} (h : backspace ∉ line) :
    applyBackspaces line = line := by
  have hg : ∀ g ∈ Grapheme.cut line, g ≠ [backspace] := by
    rintro g hm rfl
    refine h ?_
    rw [← Grapheme.flatten_cut line]
    exact List.mem_flatten.2 ⟨_, hm, by simp⟩
  rw [applyBackspaces, TypedLine.text_foldl_push _ _ hg]
  simp [TypedLine.text]

end Abacus
