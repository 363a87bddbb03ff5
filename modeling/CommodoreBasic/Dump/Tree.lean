import CommodoreBasic.Dump.Style
import CommodoreBasic.Grammar.Tree
import CommodoreBasic.Numeric.Shortest

/-!
# Tree dump

The tree of a program line as rows of text: one for the line, one for each statement, and one for
each item with the column where it stands. What belongs to a row is indented by two more blanks
below it.
-/

namespace CommodoreBasic

namespace Palette

/-- An item of one token: what it is and what it says. -/
def atom (p : Palette) : Atom → Text
  | .keyword k => "BASIC '".toList ++ p.keyword.paint k.spelling ++ ['\'']
  | .number x => "number ".toList ++ p.literal.paint x.text
  | .name s => "var ".toList ++ p.name.paint s
  | .string s => "string '".toList ++ p.literal.paint s ++ ['\'']

/-- The row of an item: its column, the item, and the mark that trails it. -/
def row (p : Palette) (indent : Nat) (position : Position) (item : Text)
    (trailing : Option Char) : Text :=
  List.replicate indent ' ' ++ p.position.paint ('@' :: decimal position.column) ++ ' ' :: item ++
    (match trailing with
     | some c => [' ', c]
     | none => []) ++ ['\n']

/-- The row above the items of a statement. -/
def heading (indent : Nat) : Text := List.replicate indent ' ' ++ "stmt\n".toList

mutual

/-- The rows of an item. -/
def item (p : Palette) (indent : Nat) : Item → Text
  | .atom position a trailing => p.row indent position (p.atom a) trailing
  | .group position _ inner trailing =>
    p.row indent position ['('] trailing ++ heading (indent + 2) ++ p.items (indent + 4) inner

/-- The rows of items, one after the other. -/
def items (p : Palette) (indent : Nat) : List Item → Text
  | [] => []
  | i :: is => p.item indent i ++ p.items indent is

end

/-- The rows of a statement. -/
def statement (p : Palette) (indent : Nat) (s : Statement) : Text :=
  heading indent ++ p.items (indent + 2) s.items

/-- The rows of a program line. -/
def line (p : Palette) (l : Line) : Text :=
  p.label.paint "BASIC line".toList ++ ' ' :: p.label.paint (decimal l.label) ++
    ' ' :: p.position.paint ('@' :: l.position.text) ++ '\n' ::
    match l.body with
    | .comment s => "  comment '".toList ++ p.comment.paint s ++ "'\n".toList
    | .statements ss => ss.flatMap (p.statement 2)

/-- The rows of program lines, one after the other. -/
def lines (p : Palette) (ls : List Line) : Text := ls.flatMap p.line

end Palette

end CommodoreBasic
