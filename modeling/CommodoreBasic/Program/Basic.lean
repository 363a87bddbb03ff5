import CommodoreBasic.Grammar.Listing
import CommodoreBasic.Program.Index
import CommodoreBasic.Program.Source

/-!
# Programs

A program is a list of lines in the order of its text, under the name of the document that it came
from. An editor asks it what stands where, and counts lines and characters from 0, where positions
in the tree count from 1. `keywordAt?` compares the editor's character with columns as they are, so
a keyword is in reach from its second character to the second one after its end.
-/

namespace CommodoreBasic

/-- The bytes of a keyword, with which its end is reckoned. -/
def Keyword.size (k : Keyword) : Nat := Encoding.utf8.width k.spelling

/-- A program and the index of its lines. -/
structure Program where
  source : Text
  lines : List Line
  index : Index
  index_eq : index = .ofLines lines

namespace Program

/-- The program of the given lines. -/
def ofLines (source : Text) (lines : List Line) : Program :=
  ⟨source, lines, .ofLines lines, rfl⟩

/-- The program of no lines and no document. -/
def empty : Program := ofLines [] []

instance : Inhabited Program := ⟨empty⟩

/-- Reads a program from its text. -/
def parse (e : Encoding) (source text : Text) : Except SourceError Program :=
  (readLines e text).map (ofLines source)

theorem parse_eq_ok_iff {e : Encoding} {source s : Text} {p : Program} :
    parse e source s = .ok p ↔ ∃ lines, readLines e s = .ok lines ∧ ofLines source lines = p := by
  unfold parse
  cases readLines e s <;> simp [Except.map]

theorem parse_eq_error_iff {e : Encoding} {source s : Text} {error : SourceError} :
    parse e source s = .error error ↔ readLines e s = .error error := by
  unfold parse
  cases readLines e s <;> simp [Except.map]

/-- If there is an answer to what is asked of a reading, a program has been read and gives it. -/
theorem exists_parse_of_map {e : Encoding} {source s : Text} {α : Type} {f : Program → α} {a : α}
    (h : (parse e source s).toOption.map f = some a) :
    ∃ p, parse e source s = .ok p ∧ f p = a := by
  cases read : parse e source s with
  | error error =>
    rw [read] at h
    contradiction
  | ok p =>
    rw [read] at h
    exact ⟨p, rfl, Option.some.inj h⟩

/-- The program as a text, in canonical form. -/
def text (p : Program) : Text := Line.listText p.lines

/-- The line that begins on a physical line, counted from 0. The index counts from 1, and there is
no line if that makes its number no word any more. -/
def textLine? (p : Program) (line : Nat) : Option Line :=
  (addWord? line 1).bind fun physical => (p.index.physical? physical).bind (p.lines[·]?)

/-- Nothing is found under the last number that fits a word. -/
theorem textLine?_eq_none_of_le (p : Program) {line : Nat} (beyond : wordCount ≤ line + 1) :
    p.textLine? line = none := by
  rw [textLine?, addWord?_of_le beyond]
  rfl

/-- The line with that label. -/
def labelledLine? (p : Program) (label : Nat) : Option Line :=
  (p.index.label? label).bind (p.lines[·]?)

/-- The labels in ascending order, each with its line. -/
def labels (p : Program) : List (Nat × Line) :=
  p.index.toList.filterMap fun (label, n) => (p.lines[n]?).map (label, ·)

/-- The keyword that an item is, if the character is in its reach: from the number of its column on
to that of the column after it, both included. -/
def keywordOver? (character : Nat) (i : Item) : Option Keyword :=
  i.keyword?.filter fun k =>
    i.position.column ≤ character && character ≤ i.position.column + k.size

/-- The keyword at a character of a physical line, both counted from 0. The first one counts, and
only keywords outside of parentheses do. -/
def keywordAt? (p : Program) (line character : Nat) : Option Keyword :=
  (p.textLine? line).bind fun l =>
    (l.statements.flatMap Statement.items).findSome? (keywordOver? character)

end Program

end CommodoreBasic
