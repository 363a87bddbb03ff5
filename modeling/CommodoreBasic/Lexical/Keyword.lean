import CommodoreBasic.Text.Basic

/-!
# Keywords

The reserved words of Commodore BASIC V2, operators included. `REM` is not among them: a remark is
a token of its own. A token or an item that is made by hand may hold any text in the place of a
keyword, so a `Keyword` is no more than its spelling, and a `ReservedWord` is one from the table.

Several reserved words begin with another one, as `GOTO` does with `GO`. `Keyword.atStart` reads the
longest; `Keyword.ofText` wants the word and nothing after it.
-/

namespace CommodoreBasic

/-- What stands in the place of a keyword. -/
structure Keyword where
  spelling : Text
deriving DecidableEq

namespace Keyword

/-- The spellings, in upper case. -/
def table : List Text :=
  ["END", "FOR", "NEXT", "DATA", "INPUT#", "INPUT", "DIM", "READ", "LET", "GOTO", "GO", "RUN",
    "IF", "RESTORE", "GOSUB", "RETURN", "STOP", "ON", "WAIT", "LOAD", "SAVE", "VERIFY", "DEF",
    "POKE", "PRINT#", "PRINT", "CONT", "LIST", "CLR", "CMD", "SYS", "OPEN", "CLOSE", "GET#",
    "GET", "NEW", "TAB", "SPC", "TO", "FN", "THEN", "NOT", "STEP", "+", "-", "*", "/", "^",
    "AND", "OR", ">", "=", "<", "SGN", "INT", "ABS", "USR", "FRE", "POS", "SQR", "RND", "LOG",
    "EXP", "COS", "SIN", "TAN", "ATN", "PEEK", "LEN", "STR$", "VAL", "ASC", "CHR$", "LEFT$",
    "RIGHT$", "MID$"].map String.toList

end Keyword

/-- A keyword of the language. -/
structure ReservedWord extends Keyword where
  mem_table : spelling ∈ Keyword.table
deriving DecidableEq

instance : Coe ReservedWord Keyword := ⟨ReservedWord.toKeyword⟩

/-- No reserved word is empty, and each is written in upper case. -/
theorem ReservedWord.spelling_plain (k : ReservedWord) :
    k.spelling ≠ [] ∧ k.spelling.upper = k.spelling := by
  have plain : ∀ s ∈ Keyword.table, s ≠ [] ∧ Text.upper s = s := by decide +kernel
  exact plain k.spelling k.mem_table

namespace Keyword

/-- Every reserved word once, in the order of the table. -/
def all : List ReservedWord := table.attach.map fun k => ⟨⟨k.val⟩, k.property⟩

theorem mem_all (k : ReservedWord) : k ∈ all := by
  simp only [all, List.mem_map, List.mem_attach, true_and, Subtype.exists]
  exact ⟨k.spelling, k.mem_table, rfl⟩

/-- The longest reserved word with which a text begins, up to the case of letters. The text may go
on in any way: `TOTAL` begins with `TO`. -/
def atStart (s : Text) : Option ReservedWord :=
  (all.filter fun k => Text.beginsWith k.spelling s).maxOn? fun k => k.spelling.length

/-- The reserved word that the whole text spells, up to the case of letters. -/
def ofText (s : Text) : Option ReservedWord :=
  all.find? fun k => Text.sameLetters k.spelling s

/-- What is read at the start of a text is a beginning of it. -/
theorem beginsWith_of_atStart {s : Text} {k : ReservedWord} (h : atStart s = some k) :
    Text.beginsWith k.spelling s = true :=
  (List.mem_filter.mp (List.maxOn?_mem h)).2

/-- A reserved word is no longer than the text that it is read from. -/
theorem length_le_of_atStart {s : Text} {k : ReservedWord} (h : atStart s = some k) :
    k.spelling.length ≤ s.length := by
  have begins := (Text.beginsWith_iff _ _).mp (beginsWith_of_atStart h)
  simpa using begins.length_le

end Keyword

end CommodoreBasic
