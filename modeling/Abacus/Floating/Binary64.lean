/-
Abacus.Floating.Binary64 — double-precision numbers.

The format with 53 significant bits: its interchange encoding in 64 bits, its
text, and the elementary functions of the machine's mathematical library.
-/
import Abacus.Floating.Arithmetic
import Abacus.Floating.Integers
import Abacus.Numeral.Shortest
import Abacus.Text.Blank

namespace Abacus

attribute [local instance (2000)] instPowNat

/-- Double precision. -/
def Format.binary64 : Format where
  precision := 53
  minExponent := -1074
  maxExponent := 1024

/-- A double-precision number. -/
abbrev Binary64 := Floating Format.binary64

namespace Binary64

/-! ## Encoding -/

/-- Bits of the fraction field; a normal mantissa has one more. -/
def fractionBits : Nat := 52

/-- Bits of the exponent field. -/
def exponentBits : Nat := 11

/-- The exponent field of infinities and NaN. -/
def specialField : Nat := 2047

/-- The exponent field of a normal number is its exponent plus this. -/
def fieldBias : Int := 1075

/-- The bits with a sign and two fields. -/
def join (negative : Bool) (field fraction : Nat) : Nat :=
  ((if negative then 1 else 0) * 2 ^ exponentBits + field) * 2 ^ fractionBits + fraction

/-- The 64 bits of a number; every NaN has the same. -/
def toBits : Binary64 → Nat
  | .nan => join false specialField (2 ^ (fractionBits - 1))
  | .infinite negative => join negative specialField 0
  | .finite x =>
    if x.mantissa < 2 ^ fractionBits then join x.negative 0 x.mantissa
    else join x.negative (x.exponent + fieldBias).toNat (x.mantissa - 2 ^ fractionBits)

/-- The number that 64 bits encode. -/
def ofBits (bits : Nat) : Binary64 :=
  let negative := bits / 2 ^ (exponentBits + fractionBits) % 2 == 1
  let field := bits / 2 ^ fractionBits % 2 ^ exponentBits
  let fraction := bits % 2 ^ fractionBits
  if field = specialField then
    if fraction = 0 then .infinite negative else .nan
  else if field = 0 then Format.binary64.pack negative fraction Format.binary64.minExponent
  else Format.binary64.pack negative (2 ^ fractionBits + fraction) (field - fieldBias)

/-! ## Text -/

/-- The number nearest to a numeral. -/
def ofNumeral (n : Numeral) : Binary64 :=
  Format.binary64.ofNumeral n

/-- The number a text names: a numeral, or `inf`, `infinity` or `nan` in any
case, with or without a sign. -/
def read? (text : String) : Option Binary64 :=
  let (negative, rest) := Numeral.scanSign text.toList
  let word := String.ofList (lowercase rest)
  if word = "inf" || word = "infinity" then some (.infinite negative)
  else if word = "nan" then some .nan
  else (Numeral.read? text.toList).map ofNumeral

/-- The shortest digits that read back, in plain notation. -/
def text : Binary64 → String
  | .nan => "NaN"
  | .infinite negative => if negative then "-inf" else "inf"
  | .finite x => String.ofList (x.shortestNumeral 17).plain

/-- Whole numbers of up to this many digits are written as integers. -/
def integerDigits : Nat := 15

/-- The text of a result: zero has no sign, and not too large whole numbers are
written as integers. -/
def format (x : Binary64) : String :=
  match x with
  | .finite y =>
    if y.isZero then "0"
    else if y.isIntegral && y.abs.floor < 10 ^ integerDigits then toString y.floor
    else x.text
  | _ => x.text

/-! ## Functions of the machine's mathematical library -/

/-- Let the machine compute. -/
def viaMachine (function : Float → Float) (x : Binary64) : Binary64 :=
  ofBits (function (Float.ofBits (UInt64.ofNat x.toBits))).toBits.toNat

/-- The machine's power. -/
def pow (x y : Binary64) : Binary64 :=
  ofBits ((Float.ofBits (UInt64.ofNat x.toBits)).pow
    (Float.ofBits (UInt64.ofNat y.toBits))).toBits.toNat

end Binary64

end Abacus
