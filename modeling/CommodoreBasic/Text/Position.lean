import CommodoreBasic.Text.Encoding
import CommodoreBasic.Numeric.Decimal

/-!
# Positions

A position names the place of a character by line and column, both counted from 1. What a column
counts is the business of an `Encoding`.
-/

namespace CommodoreBasic

/-- A place in a text. -/
structure Position where
  line : Nat
  column : Nat
deriving DecidableEq, Repr

namespace Position

/-- The place of the first character. -/
def start : Position := ⟨1, 1⟩

instance : Inhabited Position := ⟨start⟩

/-- The written form: line and column in decimal, a colon between them. -/
def text (p : Position) : Text := decimal p.line ++ ':' :: decimal p.column

end Position

end CommodoreBasic
