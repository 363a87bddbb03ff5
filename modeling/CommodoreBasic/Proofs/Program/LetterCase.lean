import CommodoreBasic.Program.Basic
import CommodoreBasic.Proofs.Lexical.LetterCase

/-!
# The case of letters does not matter

The lexemes of a text in upper case are those of the text but for the texts of remarks, strings and
names (`lex_upper`), and the grammar does not look at these (`parse_remap`). So a text in upper case
is a program if the text is: `Program.parse_upper`.
-/

namespace CommodoreBasic

/-- The line with its remark, or the strings and names in its statements, in upper case. -/
def Line.upper (line : Line) : Line := line.remap id Text.upper

/-- The error in the text in upper case: the lexeme that does not fit is shown as it is there. -/
def SourceError.upper : SourceError → SourceError
  | lexical e => lexical e
  | grammatical e => grammatical (e.remap id Text.upper)

/-- The program with all of its lines in upper case. Labels, keywords, numbers, trailing marks and
positions stay as they are. -/
def Program.upper (p : Program) : Program := ofLines p.source (p.lines.map Line.upper)

theorem readLines_upper (e : Encoding) (s : Text) :
    readLines e s.upper =
      ((readLines e s).map (List.map Line.upper)).mapError SourceError.upper := by
  rw [readLines, readLines, lex_upper]
  cases lex e s with
  | error fault => rfl
  | ok ls =>
    show (parse (ls.map Lexeme.upper)).mapError SourceError.grammatical =
      (((parse ls).mapError SourceError.grammatical).map _).mapError _
    rw [Lexeme.upper_eq_remap, parse_remap]
    cases parse ls with
    | error wrong => rfl
    | ok lines => rfl

/-- A text in upper case has the lexemes of the text, with remarks, strings and names in upper case
and all else as it is, or it has the same lexical error. It is the program that the text is, with
these in upper case, or it has the same grammatical error. -/
theorem Program.parse_upper (e : Encoding) (source s : Text) :
    lex e s.upper = (lex e s).map (List.map Lexeme.upper) ∧
      parse e source s.upper =
        ((parse e source s).map Program.upper).mapError SourceError.upper := by
  refine ⟨lex_upper e s, ?_⟩
  rw [parse, parse, readLines_upper]
  cases readLines e s with
  | error error => rfl
  | ok lines => rfl

end CommodoreBasic
