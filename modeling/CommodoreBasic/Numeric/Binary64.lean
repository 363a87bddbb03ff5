import CommodoreBasic.Numeric.Numeral

/-!
# Double-precision numbers

`Binary64` holds the numbers of a program: a sign and a magnitude, or the value that is no number.
No machine arithmetic is involved, so that what is read from a numeral can be reasoned about.

`Binary64.ofText` reads a number: a numeral with a sign or without, or a name for infinity or for
no number.
-/

namespace CommodoreBasic

/-- A number of double precision. -/
inductive Binary64 where
  | nan
  | signed (negative : Bool) (magnitude : Magnitude)
deriving DecidableEq

namespace Binary64

/-- The sign bit, the exponent and the fraction as one 64-bit word, if it is a number. -/
def bits : Binary64 → Option Nat
  | nan => none
  | signed negative x => some ((if negative then 0x8000000000000000 else 0) + x.ordinal)

/-- Reads a number. Case does not matter in a name. -/
def ofText (s : Text) : Option Binary64 :=
  let (negative, s) := splitSign s
  if s.sameLetters "nan".toList then some .nan
  else if s.sameLetters "inf".toList || s.sameLetters "infinity".toList then
    some (.signed negative .infinity)
  else (Magnitude.ofNumeral s).map (.signed negative)

end Binary64

end CommodoreBasic
