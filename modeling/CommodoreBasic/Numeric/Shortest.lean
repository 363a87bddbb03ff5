import CommodoreBasic.Numeric.Binary64

/-!
# Shortest decimal text

A number is written with the fewest digits that read back as the same number, always in positional
notation. A finite magnitude has an exact decimal expansion; `Magnitude.shorten` looks for the
coarsest power of ten of which a multiple next to the exact value reads back, and of two such
multiples takes the nearer one. The exact value itself is a multiple of the finest power, so the
search always ends.
-/

namespace CommodoreBasic

namespace Magnitude

/-- The number of places after the point in the exact expansion. -/
def places (x : Magnitude) : Nat := 1074 - x.scale

/-- The digits of the exact expansion, the point left out: the value is
the expansion over ten to the number of places. -/
def expansion (x : Magnitude) : Nat :=
  (x.significand <<< (x.scale - 1074)) * Nat.pow 5 x.places

/-- Whether `digits`, with as many places as the exact expansion has, reads as `x`. -/
def readsFrom (x : Magnitude) (digits : Nat) : Bool := ofRatio digits (Nat.pow 10 x.places) = x

/-- Of two candidates around the exact expansion the one that was found to read back, or of both
the nearer one, and the one above if both are equally near. -/
def nearer (exact below above : Nat) : Bool → Bool → Option Nat
  | true, true => some (if exact - below < above - exact then below else above)
  | true, false => some below
  | false, true => some above
  | false, false => none

/-- The multiple of `step` next to the exact expansion that reads as `x`, if there is one: below
it or above it. -/
def neighbour? (x : Magnitude) (step : Nat) : Option Nat :=
  let below := x.expansion / step * step
  let above := below + step
  nearer x.expansion below above (x.readsFrom below) (x.readsFrom above)

/-- The digits to write: a neighbour among the multiples of the greatest power of ten that has one,
from the `n`-th power down, or all digits. -/
def shorten (x : Magnitude) : Nat → Nat
  | 0 => x.expansion
  | n + 1 => (x.neighbour? (Nat.pow 10 (n + 1))).getD (x.shorten n)

/-- The fewest digits that read as `x`, the point left out. -/
def shortest (x : Magnitude) : Nat := x.shorten ((decimal x.expansion).length - 1)

end Magnitude

/-- Digits with a point before the last `places` of them, in positional notation. Zeros at the end
of the fraction are left out, and the point with them if nothing else follows it. -/
def positional (digits places : Nat) : Text :=
  let fraction := decimal (digits % Nat.pow 10 places)
  let padded := List.replicate (places - fraction.length) '0' ++ fraction
  let kept := (padded.reverse.dropWhile (· = '0')).reverse
  decimal (digits / Nat.pow 10 places) ++ if kept.isEmpty then [] else '.' :: kept

/-- A magnitude as a text. -/
def Magnitude.text (x : Magnitude) : Text :=
  if x = .infinity then "inf".toList else positional x.shortest x.places

/-- A number as a text. -/
def Binary64.text : Binary64 → Text
  | .nan => "NaN".toList
  | .signed negative x => if negative then '-' :: x.text else x.text

end CommodoreBasic
