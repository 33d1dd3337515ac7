/-
Abacus.Text.Escape — control characters made visible.

A text that is shown on a terminal must not steer it.  The controls by which it
could do so, the escape character, those that ring, move or erase, and the
controls beyond ASCII, are replaced by their code; line ends and tabs stay.
-/

namespace Abacus

/-- Hexadecimal digits, padded with zeros to a width. -/
def paddedHex (width n : Nat) : List Char :=
  let digits := Nat.toDigits 16 n
  List.replicate (width - digits.length) '0' ++ digits

/-- The controls of ASCII that are replaced. -/
def steeringControls : List Char :=
  ['\x1b', '\x07', '\x08', '\x0c', '\x7f']

/-- The controls beyond ASCII. -/
def isWideControl (c : Char) : Bool :=
  0x80 ≤ c.toNat && c.toNat ≤ 0x9F

/-- A character as it is shown. -/
def escapeChar (c : Char) : List Char :=
  if steeringControls.contains c then '\\' :: 'x' :: paddedHex 2 c.toNat
  else if isWideControl c then '\\' :: 'u' :: '\x7b' :: (paddedHex 1 c.toNat ++ ['\x7d'])
  else [c]

/-- A text as it is shown. -/
def escapeControls (cs : List Char) : List Char :=
  cs.flatMap escapeChar

end Abacus
