import CommodoreBasic.Numeric.Decimal
import CommodoreBasic.Numeric.Magnitude

/-!
# Numerals

Decimal numerals with a point anywhere among their digits and an exponent of ten after `e`. A
numeral denotes a quotient of whole numbers, and is read as the magnitude nearest to it; nothing is
rounded on the way there.
-/

namespace CommodoreBasic

/-- A sign that may stand before a numeral, and what follows it. -/
def splitSign : Text → Bool × Text
  | '-' :: s => (true, s)
  | '+' :: s => (false, s)
  | s => (false, s)

namespace Magnitude

/-- The value of exponent digits. It stops growing once it has passed 2^16, far beyond the scale of
every finite magnitude. -/
def exponentValue (digits : Text) : Nat :=
  digits.foldl (fun n c => if n < 0x10000 then 10 * n + (c.toNat - '0'.toNat) else n) 0

/-- Reads the exponent of ten with which a numeral may end. -/
def readExponent : Text → Option Int
  | [] => some 0
  | c :: s =>
    let (negative, digits) := splitSign s
    if (c = 'e' || c = 'E') && !digits.isEmpty && digits.all Char.isDigit then
      some (if negative then -(exponentValue digits : Int) else exponentValue digits)
    else none

/-- The fraction digits, after a point if there is one, and what follows them. -/
def splitFraction : Text → Text × Text
  | '.' :: s => s.span Char.isDigit
  | s => ([], s)

/-- Reads a decimal numeral without a sign. There is at least one digit, before or after the
point. -/
def ofNumeral (s : Text) : Option Magnitude :=
  let (whole, rest) := s.span Char.isDigit
  let (fraction, rest) := splitFraction rest
  let digits := whole ++ fraction
  if digits.isEmpty then none
  else
    (readExponent rest).map fun exponent =>
      ofScaled (Nat.ofDigitChars 10 digits 0) (exponent - fraction.length)

end Magnitude

end CommodoreBasic
