import CommodoreBasic.Text.Basic

/-!
# Blank characters

The characters with the Unicode property White_Space, and the removal of them from both ends of a
text.
-/

namespace CommodoreBasic

/-- The character is white space: a blank, a control that moves the carriage, or one of the spaces
and separators beyond ASCII. -/
def isBlank (c : Char) : Bool :=
  let n := c.toNat
  (0x9 ≤ n && n ≤ 0xD) || (0x2000 ≤ n && n ≤ 0x200A) ||
    n ∈ [0x20, 0x85, 0xA0, 0x1680, 0x2028, 0x2029, 0x202F, 0x205F, 0x3000]

namespace Text

/-- The text without blanks at its end. -/
def trimEnd (s : Text) : Text := (s.reverse.dropWhile isBlank).reverse

/-- The text without blanks at either end. -/
def trim (s : Text) : Text := trimEnd (s.dropWhile isBlank)

end Text

end CommodoreBasic
