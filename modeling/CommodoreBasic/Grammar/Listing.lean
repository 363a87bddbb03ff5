import CommodoreBasic.Grammar.Tree
import CommodoreBasic.Lexical.Token
import CommodoreBasic.Numeric.Shortest

/-!
# Listing

The canonical text of a program line: keywords in upper case, one blank between items, a blank on
either side of a colon, and nothing between an item and the mark that trails it. Positions play no
part in it.
-/

namespace CommodoreBasic

/-- An item of one token as program text. -/
def Atom.text : Atom → Text
  | keyword k => k.spelling
  | number x => x.text
  | name s => s
  | string s => quote s

mutual

/-- An item as program text. -/
def Item.text : Item → Text
  | .atom _ a trailing => a.text ++ trailing.toList
  | .group _ _ inner trailing => '(' :: Item.listText inner ++ ')' :: trailing.toList

/-- Items as program text, a blank between them. -/
def Item.listText : List Item → Text
  | [] => []
  | [i] => i.text
  | i :: j :: is => i.text ++ ' ' :: Item.listText (j :: is)

end

/-- A statement as program text. -/
def Statement.text (s : Statement) : Text := Item.listText s.items

/-- Statements as program text: a blank before each of them, and another one and a colon between
them. -/
def Statement.listText (ss : List Statement) : Text :=
  " :".toList.intercalate (ss.map fun s => ' ' :: s.text)

/-- What follows the label of a line: nothing, not even a blank, where there are no statements. -/
def Body.text : Body → Text
  | comment s => ' ' :: s
  | statements ss => Statement.listText ss

/-- A line as program text. -/
def Line.text (line : Line) : Text := decimal line.label ++ line.body.text

/-- Lines as program text, each with its end. -/
def Line.listText (lines : List Line) : Text := lines.flatMap fun line => line.text ++ ['\n']

end CommodoreBasic
