/-!
# Magnitudes of double precision

The non-negative double-precision numbers, infinity included, without the sign and without the
special case of what is no number. They are counted upwards from zero, so a magnitude is its place
in that order: zero has ordinal 0, the least positive number ordinal 1, infinity the last. The
ordinal is at the same time the bit pattern.

Every finite magnitude is a whole number of units, the unit being the least positive number
2^-1074: the significand, shifted left by the scale. `Magnitude.ofRatio` takes a quotient
to the nearest magnitude, and of two that are equally near to the even one.
-/

namespace CommodoreBasic

/-- A non-negative number of double precision, by its place in ascending order. The last one is
infinity. -/
structure Magnitude where
  ordinal : Nat
  ordinal_le : ordinal ≤ 0x7FF0000000000000
deriving DecidableEq

/-- The whole number nearest to a quotient; a half goes to the even neighbour. -/
def roundQuotient (num den : Nat) : Nat :=
  let q := num / den
  let r := num % den
  if 2 * r < den then q else if den < 2 * r then q + 1 else q + q % 2

namespace Magnitude

/-- The magnitude with that ordinal, or infinity if there is none. -/
def ofOrdinal (n : Nat) : Magnitude := ⟨min n 0x7FF0000000000000, Nat.min_le_right ..⟩

def zero : Magnitude := ofOrdinal 0

def infinity : Magnitude := ofOrdinal 0x7FF0000000000000

/-- The number of magnitudes that share a scale, which is 2^52: they differ in their fraction
bits. -/
def fractionCount : Nat := 0x10000000000000

/-- What is multiplied by a power of two: the fraction bits, with a leading bit unless the number
is too small for one. -/
def significand (x : Magnitude) : Nat :=
  if x.ordinal < fractionCount then x.ordinal else x.ordinal % fractionCount + fractionCount

/-- The power of two. -/
def scale (x : Magnitude) : Nat := x.ordinal / fractionCount - 1

/-- The magnitude nearest to `num / den`. A quotient beyond the finite magnitudes goes to
infinity. -/
def ofRatio (num den : Nat) : Magnitude :=
  let units := num <<< 1074
  let scale := (units / den).log2 - 52
  ofOrdinal (scale * fractionCount + roundQuotient units (den <<< scale))

/-- The magnitude nearest to `digits * 10 ^ exponent`. -/
def ofScaled (digits : Nat) : Int → Magnitude
  | .ofNat k => ofRatio (digits * Nat.pow 10 k) 1
  | .negSucc k => ofRatio digits (Nat.pow 10 (k + 1))

end Magnitude

end CommodoreBasic
