import CommodoreBasic.Grammar.Parse

/-!
# From text to lines

A text is cut into lexemes, all of it, before the grammar sees the first of them. So a character
that belongs to no token is reported even if the grammar would have stopped earlier.
-/

namespace CommodoreBasic

/-- What is wrong with a program text. -/
inductive SourceError where
  | lexical (error : LexicalError)
  | grammatical (error : GrammarError)
deriving DecidableEq

namespace SourceError

/-- Where it is wrong. -/
def position : SourceError → Position
  | lexical e => e.position
  | grammatical e => e.position

/-- The error as it is reported. -/
def message : SourceError → Text
  | lexical e => e.message
  | grammatical e => e.message

end SourceError

/-- The program lines of a text, their columns in the units of the encoding. -/
def readLines (e : Encoding) (s : Text) : Except SourceError (List Line) :=
  match lex e s with
  | .error error => .error (.lexical error)
  | .ok ls => (parse ls).mapError .grammatical

/-- A text is read if it can be lexed and its lexemes can be parsed. -/
theorem readLines_eq_ok_iff {e : Encoding} {s : Text} {lines : List Line} :
    readLines e s = .ok lines ↔ ∃ ls, lex e s = .ok ls ∧ parse ls = .ok lines := by
  unfold readLines
  cases lex e s with
  | error error => simp
  | ok ls =>
    show (parse ls).mapError SourceError.grammatical = .ok lines ↔ _
    constructor
    · intro h
      cases parsed : parse ls <;> rw [parsed] at h <;> cases h
      exact ⟨ls, rfl, parsed⟩
    · rintro ⟨ls', lexed, parsed⟩
      cases lexed
      rw [parsed]
      rfl

/-- It is not read if there is a fault in it, or else an error among its lexemes. -/
theorem readLines_eq_error_iff {e : Encoding} {s : Text} {error : SourceError} :
    readLines e s = .error error ↔
      (∃ fault, lex e s = .error fault ∧ error = .lexical fault) ∨
        ∃ ls wrong, lex e s = .ok ls ∧ parse ls = .error wrong ∧ error = .grammatical wrong := by
  unfold readLines
  cases lex e s with
  | error fault => simp [eq_comm]
  | ok ls =>
    show (parse ls).mapError SourceError.grammatical = .error error ↔ _
    constructor
    · intro h
      cases parsed : parse ls <;> rw [parsed] at h <;> cases h
      exact Or.inr ⟨ls, _, rfl, parsed, rfl⟩
    · rintro (⟨fault, lexed, -⟩ | ⟨ls', wrong, lexed, failed, rfl⟩)
      · contradiction
      · cases lexed
        rw [failed]
        rfl

end CommodoreBasic
