import CommodoreBasic.Text.Basic
import CommodoreBasic.Text.Printable

/-!
# Quoted text

A text in double quotes, for a log: every character that would not show, or would end the
quotation, is replaced by an escape that says which it is.
-/

namespace CommodoreBasic

/-- How a character is written between quotes. -/
def quotedChar (c : Char) : Text :=
  if c = '\x00' then ['\\', '0']
  else if c = '\t' then ['\\', 't']
  else if c = '\n' then ['\\', 'n']
  else if c = '\r' then ['\\', 'r']
  else if c = '"' || c = '\\' then ['\\', c]
  else if isPrintable c then [c]
  else "\\u\x7b".toList ++ Nat.toDigits 16 c.toNat ++ "\x7d".toList

/-- The text in quotes. -/
def quoted (s : Text) : Text := '"' :: s.flatMap quotedChar ++ ['"']

end CommodoreBasic
