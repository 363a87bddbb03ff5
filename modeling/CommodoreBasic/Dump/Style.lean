import CommodoreBasic.Text.Basic

/-!
# Terminal styles

A style is the code that switches a terminal over to it, or nothing for text as it is. A `Palette`
assigns a style to each part of a dump; in the plain one no part has any.
-/

namespace CommodoreBasic

/-- A style by its terminal code; without a code, text stays as it is. -/
abbrev Style := Option Text

namespace Style

/-- An escape sequence: the code between the introducer and the letter that asks for a style. -/
def sequence (code : Text) : Text := '\x1b' :: '[' :: code ++ ['m']

/-- A text in a style, and back to no style after it. -/
def paint : Style → Text → Text
  | none, s => s
  | some code, s => sequence code ++ s ++ sequence ['0']

def bold : Style := some "1".toList

def dimmed : Style := some "2".toList

def underlined : Style := some "4".toList

def green : Style := some "32".toList

def yellow : Style := some "33".toList

def boldRed : Style := some "1;31".toList

def boldBlue : Style := some "1;34".toList

def italicGrey : Style := some "3;38;5;244".toList

end Style

/-- The styles of the parts of a dump. -/
structure Palette where
  label : Style
  keyword : Style
  literal : Style
  name : Style
  comment : Style
  position : Style
  error : Style

namespace Palette

def plain : Palette := ⟨none, none, none, none, none, none, none⟩

def coloured : Palette where
  label := .bold
  keyword := .boldBlue
  literal := .green
  name := .yellow
  comment := .italicGrey
  position := .dimmed
  error := .bold

end Palette

end CommodoreBasic
