import CommodoreBasic.Dump.Style
import CommodoreBasic.Program.Source

/-!
# Error reports

An error is reported with the line of the document that it stands on, and the character at its
column is underlined. Where the line has ended by then, a blank after it is underlined instead.
-/

namespace CommodoreBasic

/-- Underlines the character that begins at `column` in the rest of a line, of which the first
character begins at `here`; a blank after the line if it ends before. -/
def underlineFrom (e : Encoding) (column : Nat) : Nat → Text → Text
  | here, [] => if here ≤ column then Style.underlined.paint [' '] else []
  | here, c :: s =>
    (if here = column then Style.underlined.paint [c] else [c]) ++
      underlineFrom e column (here + e.charWidth c) s

/-- The line with the character at `column` underlined. A column inside a character underlines
nothing. -/
def underlineColumn (e : Encoding) (column : Nat) (line : Text) : Text :=
  underlineFrom e column 1 line

/-- The report of an error in the text of the document `source`. -/
def Palette.report (p : Palette) (e : Encoding) (source text : Text) (error : SourceError) : Text :=
  source ++ ':' :: p.error.paint error.message ++
    match text.sourceLine error.position.line with
    | some line => '\n' :: underlineColumn e error.position.column line
    | none => []

end CommodoreBasic
