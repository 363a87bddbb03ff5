import CommodoreBasic.Numeric.Decimal
import CommodoreBasic.Text.Blank

/-!
# Editor coordinates

A line and a character, both counted from 0, written with a colon between them.
-/

namespace CommodoreBasic

/-- A place as an editor names it. -/
structure Coordinate where
  line : Nat
  character : Nat
deriving DecidableEq, Repr

/-- What is wrong with a text that should be a coordinate. -/
inductive CoordinateError where
  | missingColon
  | line (error : WordError)
  | character (error : WordError)
deriving DecidableEq

/-- The wording of each cause. -/
def CoordinateError.message : CoordinateError → Text
  | missingColon => "expected LINE:CHARACTER".toList
  | line e => "line: ".toList ++ e.message
  | character e => "character: ".toList ++ e.message

/-- Reads a coordinate. The first colon divides it, and blanks around either number are left
out. -/
def Coordinate.ofText (s : Text) : Except CoordinateError Coordinate :=
  match s.dropWhile (· ≠ ':') with
  | [] => .error .missingColon
  | _ :: after =>
    match readWord (Text.trim (s.takeWhile (· ≠ ':'))), readWord (Text.trim after) with
    | .error e, _ => .error (.line e)
    | .ok _, .error e => .error (.character e)
    | .ok line, .ok character => .ok ⟨line, character⟩

end CommodoreBasic
