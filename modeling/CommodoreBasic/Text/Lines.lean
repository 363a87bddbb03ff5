import CommodoreBasic.Text.Basic

/-!
# Physical lines

A line of text ends at a line feed, at a carriage return, or at the pair of both, which ends one
line and not two. `lineBreaks` counts the ends; `sourceLine` picks a line out by its number, as an
error report quotes it. `firstLine` is for texts where a carriage return on its own ends no line.
-/

namespace CommodoreBasic

/-- A character that can end a line. -/
def isLineBreak (c : Char) : Bool := c = '\n' || c = '\r'

namespace Text

/-- The number of line ends: each line feed, and each carriage return that no line feed follows. -/
def lineBreaks : Text → Nat
  | [] => 0
  | c :: s => (if c = '\n' ∨ (c = '\r' ∧ s.head? ≠ some '\n') then 1 else 0) + lineBreaks s

/-- The pieces between the occurrences of `sep`, of which there is always one more than of
separators. -/
def split (sep : Char) : Text → List Text
  | [] => [[]]
  | c :: s => if c = sep then [] :: split sep s else (split sep s).modifyHead (c :: ·)

theorem split_ne_nil (sep : Char) (s : Text) : split sep s ≠ [] := by
  induction s with
  | nil => simp [split]
  | cons c s ih => simp only [split]; split <;> simp [ih]

/-- The text without one carriage return at its end, if there is one there. -/
def dropFinalReturn (s : Text) : Text :=
  if s.getLast? = some '\r' then s.dropLast else s

/-- The lines of a text: it is cut at line feeds, and each piece, less one carriage return at its
end, is cut at the carriage returns that are left. -/
def lines (s : Text) : List Text :=
  (s.split '\n').flatMap fun piece => (dropFinalReturn piece).split '\r'

/-- What comes before the first line feed, less one carriage return at its end. -/
def firstLine (s : Text) : Text := dropFinalReturn (s.takeWhile (· ≠ '\n'))

/-- The line with that number, counted from 1. -/
def sourceLine (s : Text) : Nat → Option Text
  | 0 => none
  | n + 1 => s.lines[n]?

end Text

end CommodoreBasic
