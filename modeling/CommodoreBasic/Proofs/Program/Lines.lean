import CommodoreBasic.Program.Basic
import CommodoreBasic.Proofs.Grammar.Acceptance
import CommodoreBasic.Proofs.Grammar.Nodes
import CommodoreBasic.Proofs.Lexical.Placement
import CommodoreBasic.Proofs.Program.Index

/-!
# The lines of a program

The lines of a text are derived from its lexemes (`derives_of_readLines`), each of them begins where
one of its lexemes does (`DerivesProgram.exists_position`), and of those that begin on a physical
line the last one is found there (`textLine?_ofLines`).
-/

namespace CommodoreBasic

/-- A text that is read has no fault, and its lines are derived from its lexemes. -/
theorem derives_of_readLines {e : Encoding} {s : Text} {lines : List Line}
    (h : readLines e s = .ok lines) :
    (cut s).fault = none ∧ Parse.DerivesProgram (place e .start (cut s).pieces) lines := by
  obtain ⟨ls, lexed, parsed⟩ := readLines_eq_ok_iff.mp h
  obtain ⟨clean, rfl⟩ := lex_eq_ok_iff.mp lexed
  have derived := Parse.derives_of_parse parsed
  rw [Parse.beforeEnd_append_cons
    (fun l member => ne_endOfInput_of_mem_place member) rfl] at derived
  exact ⟨clean, derived⟩

/-! ## The index -/

/-- The last line that begins on a physical line is the one found there. -/
theorem Program.textLine?_ofLines (source : Text) (lines : List Line) {line : Nat}
    (word : line + 1 < wordCount) :
    (ofLines source lines).textLine? line =
      lines.reverse.find? fun l => l.position.line = line + 1 := by
  ext found
  rw [find?_reverse_eq_some_iff, textLine?, addWord?_of_lt word, Option.bind_some,
    Option.bind_eq_some_iff]
  simp only [physical?_ofLines]
  exact Iff.rfl

/-! ## Places -/

namespace Parse

theorem DerivesLine.exists_position {ls : List Lexeme} {line : Line} (h : DerivesLine ls line) :
    ∃ l ∈ ls, l.position = line.position :=
  h.exists_place line.position List.mem_cons_self

/-- Each line begins with one of the lexemes that the program is derived from. -/
theorem DerivesProgram.exists_position {ls : List Lexeme} {lines : List Line}
    (h : DerivesProgram ls lines) : ∀ line ∈ lines, ∃ l ∈ ls, l.position = line.position := by
  intro line member
  have place : line.position ∈ lines.flatMap Line.places :=
    List.mem_flatMap.mpr ⟨line, member, List.mem_cons_self⟩
  exact h.exists_place line.position place

/-- No line begins before the lexemes do. -/
theorem DerivesProgram.le_of_rows {ls : List Lexeme} {lines : List Line} {k : Nat}
    (h : DerivesProgram ls lines) (rows : Rows k ls) : ∀ line ∈ lines, k ≤ line.position.line := by
  intro line member
  obtain ⟨l, hl, same⟩ := h.exists_position line member
  exact same ▸ rows.le l hl

end Parse

/-- A lexeme stands on no later line than there are characters before it. -/
theorem line_le_of_mem_place (e : Encoding) {pieces : List Piece} (chain : Chained [] pieces)
    {l : Lexeme} (h : l ∈ place e .start pieces) :
    l.position.line ≤ 1 + (Piece.textOf pieces).length := by
  obtain ⟨left, segment, right, split, position, -⟩ :=
    exists_segment_of_mem_place e chain (Text.apart_nil _) h
  have breaks := Text.lineBreaks_le_length left
  rw [position, split, List.length_append]
  show 1 + Text.lineBreaks ([] ++ left) ≤ _
  rw [List.nil_append]
  omega

/-- A line of a text has a word for a number, if the text has fewer characters than there are
words. -/
theorem Program.line_lt_wordCount {e : Encoding} {source s : Text} {p : Program}
    (h : parse e source s = .ok p) (short : s.length + 1 < wordCount) :
    ∀ l ∈ p.lines, l.position.line < wordCount := by
  obtain ⟨lines, read, rfl⟩ := parse_eq_ok_iff.mp h
  obtain ⟨clean, derived⟩ := derives_of_readLines read
  obtain ⟨whole, chain⟩ := chained_of_fault_eq_none clean
  intro line member
  obtain ⟨l, placed, same⟩ := derived.exists_position line member
  have le := line_le_of_mem_place e chain placed
  rw [← whole, same] at le
  omega

end CommodoreBasic
