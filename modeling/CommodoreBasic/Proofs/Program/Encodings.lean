import CommodoreBasic.Proofs.Grammar.Viability
import CommodoreBasic.Proofs.Program.LineByLine
import CommodoreBasic.Proofs.Program.Lines

/-!
# Encodings move columns and nothing else

A text is read in the same way in all encodings. Neither the lexer nor the parser looks at a column,
so what they give in one encoding is what they give in another, with the columns counted anew:
`Text.inUnits` counts the column of a place in other units, given its column in characters, and
`readLines_inUnits` reads a text in any units by way of reading it in characters.

All places in a tree and in an error are places of the text (`Text.IsPlace`). So both columns of a
place count the same part of its line (`SamePlace`). The main statement is
`Program.parse_encodings`.
-/

namespace CommodoreBasic

/-! ## Widths in different units -/

namespace Encoding

theorem utf32_charWidth_le (e : Encoding) (c : Char) : utf32.charWidth c ≤ e.charWidth c :=
  e.charWidth_pos c

theorem charWidth_le_utf8 (e : Encoding) (c : Char) : e.charWidth c ≤ utf8.charWidth c := by
  cases e with
  | utf8 => exact Nat.le_refl _
  | utf32 => exact utf8.charWidth_pos c
  | utf16 =>
    show (if c.toNat < 0x10000 then 1 else 2) ≤ c.utf8Size
    have positive := Char.utf8Size_pos c
    split
    · exact positive
    · next high =>
      -- such a character takes four bytes
      have above : ∀ n : UInt32, n.toNat < 0x10000 → ¬ c.val ≤ n := by
        intro n small le
        have le' := UInt32.le_iff_toNat_le.mp le
        have same : c.toNat = c.val.toNat := rfl
        omega
      rw [Char.utf8Size, if_neg (above _ (by decide)), if_neg (above _ (by decide)),
        if_neg (above _ (by decide))]
      decide

theorem width_le_width {e e' : Encoding} (le : ∀ c, e.charWidth c ≤ e'.charWidth c) (s : Text) :
    e.width s ≤ e'.width s := by
  induction s with
  | nil => exact Nat.le_refl 0
  | cons c s ih => exact Nat.add_le_add (le c) ih

theorem width_utf32 (s : Text) : utf32.width s = s.length := by
  induction s with
  | nil => rfl
  | cons c s ih =>
    show 1 + utf32.width s = s.length + 1
    omega

end Encoding

/-! ## Places of a text -/

namespace Text

/-- The places of a text: each is the one after a part of it that does not end inside a pair of
carriage return and line feed. -/
inductive IsPlace (e : Encoding) : Text → Position → Prop
  | after {before rest : Text} (unparted : before.getLast? = some '\r' → rest.head? ≠ some '\n') :
      IsPlace e (before ++ rest) (.after e before)

/-- The place in the units of `e` whose column is `p.column` in characters. -/
def inUnits (e : Encoding) (s : Text) (p : Position) : Position :=
  ⟨p.line, 1 + e.width ((s.physicalLines[p.line - 1]?.getD []).take (p.column - 1))⟩

/-- The place after a part of a text, in characters and in other units. -/
theorem inUnits_after (e : Encoding) {before rest : Text}
    (unparted : before.getLast? = some '\r' → rest.head? ≠ some '\n') :
    (before ++ rest).inUnits e (.after .utf32 before) = .after e before := by
  obtain ⟨i, number, found⟩ := (lineAt_append unparted).getElem?_physicalLines
  obtain rfl : before.lineBreaks = i := Nat.succ.inj number
  have left : (before.lastLine ++ rest.takeWhile fun c => !isLineBreak c).take
      (Encoding.utf32.width before.lastLine) = before.lastLine := by
    rw [Encoding.width_utf32, List.take_left]
  simp only [inUnits, Position.after, Nat.add_sub_cancel_left]
  rw [found, Option.getD_some, left]

end Text

/-- The places `p`, in the units of `e`, and `p'`, in those of `e'`, are one: both columns count the
same part of the line. A column counts the fewest units in UTF-32 and the most in UTF-8. -/
structure SamePlace (e e' : Encoding) (s : Text) (p p' : Position) : Prop where
  line : p'.line = p.line
  column : ∃ line left, Text.LineAt s p.line line ∧ left <+: line ∧
    p.column = 1 + e.width left ∧ p'.column = 1 + e'.width left ∧
    ((∀ c ∈ left, c.toNat < 128) → p'.column = p.column)
  utf32_le : e = .utf32 → p.column ≤ p'.column
  le_utf8 : e' = .utf8 → p.column ≤ p'.column

/-- A place of a text is the same in all units. -/
theorem Text.IsPlace.samePlace (e e' : Encoding) {s : Text} {p : Position}
    (h : s.IsPlace .utf32 p) : SamePlace e e' s (s.inUnits e p) (s.inUnits e' p) := by
  cases h with
  | @after before rest unparted =>
    rw [inUnits_after e unparted, inUnits_after e' unparted]
    constructor
    · rfl
    · have here := lineAt_append unparted
      rw [Nat.add_comm] at here
      refine ⟨_, before.lastLine, here, List.prefix_append .., rfl, rfl, ?_⟩
      intro ascii
      show 1 + e'.width before.lastLine = 1 + e.width before.lastLine
      rw [e.width_of_ascii ascii, e'.width_of_ascii ascii]
    · rintro rfl
      exact Nat.add_le_add_left (Encoding.width_le_width e'.utf32_charWidth_le _) 1
    · rintro rfl
      exact Nat.add_le_add_left (Encoding.width_le_width e.charWidth_le_utf8 _) 1

/-! ## Lexemes in different units -/

/-- But for their widths, the lexemes in the units of `e` are those in characters, moved. -/
theorem place_inUnits (e : Encoding) {pieces : List Piece} {before rest : Text}
    (chain : Chained rest pieces) (apart : Text.Apart before (Piece.textOf pieces ++ rest)) :
    (place e (.after e before) pieces).map Lexeme.unmeasured =
      ((place .utf32 (.after .utf32 before) pieces).map
        (Lexeme.relocate ((before ++ (Piece.textOf pieces ++ rest)).inUnits e))).map
          Lexeme.unmeasured := by
  induction chain generalizing before with
  | nil => rfl
  | @cons piece pieces reads _ ih =>
    have here := Text.inUnits_after e apart.unparted
    rw [Piece.textOf_cons, List.append_assoc] at apart here ⊢
    have later := ih (reads.apart before)
    rw [List.append_assoc] at later
    simp only [place]
    rw [next_after e reads apart, next_after .utf32 reads apart]
    split
    · exact later
    · -- the piece is kept, and both units place it after `before`
      rw [List.map_cons, List.map_cons, List.map_cons, later]
      simp only [Lexeme.unmeasured, Lexeme.relocate_eq, here]

/-- The place where the pieces of a text end is a place of the text. -/
theorem unparted_cut (s : Text) :
    ∃ rest, s = Piece.textOf (cut s).pieces ++ rest ∧ Chained rest (cut s).pieces ∧
      ((Piece.textOf (cut s).pieces).getLast? = some '\r' → rest.head? ≠ some '\n') := by
  obtain ⟨rest, whole, chain, stop⟩ := chained_cut s
  refine ⟨rest, whole, chain, ?_⟩
  rintro - feed
  rcases stop with ⟨-, rfl⟩ | ⟨c, t, fault, -, rfl, read⟩
  · contradiction
  · obtain rfl : c = '\n' := by simpa using feed
    have plain := isLineBreak_of_fault read
    contradiction

/-- So is the place where a text ends that has no fault. -/
theorem endOf_inUnits (e : Encoding) (s : Text) :
    endOf e .start (cut s).pieces = s.inUnits e (endOf .utf32 .start (cut s).pieces) := by
  obtain ⟨rest, whole, chain, unparted⟩ := unparted_cut s
  have moved := Text.inUnits_after e unparted
  rw [← whole] at moved
  rw [endOf_cut, endOf_cut, moved]

/-! ## Texts in different units -/

/-- An error with its place moved. -/
def SourceError.relocate (f : Position → Position) : SourceError → SourceError
  | lexical error => lexical ⟨f error.position, error.fault⟩
  | grammatical error => grammatical (error.relocate f)

/-- A text is read in any units as it is in characters, with all places moved. -/
theorem readLines_inUnits (e : Encoding) (s : Text) :
    readLines e s =
      ((readLines .utf32 s).map (List.map (Line.relocate (s.inUnits e)))).mapError
        (SourceError.relocate (s.inUnits e)) := by
  have stop := endOf_inUnits e s
  obtain ⟨rest, whole, chain, -⟩ := unparted_cut s
  have moved := place_inUnits e chain (Text.apart_nil _)
  rw [List.nil_append, ← whole] at moved
  rw [readLines_eq_readFrom, readLines_eq_readFrom]
  cases result : (cut s).fault with
  | some fault =>
    rw [readFrom_of_fault result, readFrom_of_fault result]
    show Except.error (SourceError.lexical ⟨endOf e .start _, fault⟩) = _
    rw [stop]
    rfl
  | none =>
    have same : (place e .start (cut s).pieces ++
          [Lexeme.mk .endOfInput (endOf e .start (cut s).pieces) 0]).map Lexeme.unmeasured =
        ((place .utf32 .start (cut s).pieces ++
          [Lexeme.mk .endOfInput (endOf .utf32 .start (cut s).pieces) 0]).map
            (Lexeme.relocate (s.inUnits e))).map Lexeme.unmeasured := by
      rw [List.map_append, List.map_append, List.map_append, stop]
      exact congrArg (· ++ _) moved
    -- the parser looks at neither places nor widths, and in nothing else the lexemes differ
    have run := Parse.run_relocate (s.inUnits e) (endOf .utf32 .start (cut s).pieces) .between
      (place .utf32 .start (cut s).pieces ++
        [⟨.endOfInput, endOf .utf32 .start (cut s).pieces, 0⟩])
    rw [← Parse.run_unmeasured, ← same, Parse.run_unmeasured, ← stop,
      show Parse.State.between.relocate (s.inUnits e) = .between from rfl] at run
    rw [readFrom_of_clean result, readFrom_of_clean result, show lineStart 1 = .start from rfl, run]
    cases Parse.run _ _ (place .utf32 .start (cut s).pieces ++ _) <;> rfl

/-! ## Where trees and errors have their places -/

theorem isPlace_of_mem_place (e : Encoding) (s : Text) {l : Lexeme}
    (h : l ∈ place e .start (cut s).pieces) : s.IsPlace e l.position := by
  obtain ⟨rest, whole, chain, -⟩ := unparted_cut s
  obtain ⟨left, segment, right, split, position, -, -, apart⟩ :=
    exists_segment_of_mem_place e chain (Text.apart_nil _) h
  rw [List.nil_append] at position apart
  rw [position, whole, split, List.append_assoc, List.append_assoc]
  exact .after apart.unparted

theorem isPlace_endOf (e : Encoding) (s : Text) :
    s.IsPlace e (endOf e .start (cut s).pieces) := by
  obtain ⟨rest, whole, chain, unparted⟩ := unparted_cut s
  have place := @Text.IsPlace.after e _ _ unparted
  rwa [← whole, ← endOf_cut] at place

/-- All positions in the lines of a text are places of it. -/
theorem isPlace_of_readLines {e : Encoding} {s : Text} {lines : List Line}
    (h : readLines e s = .ok lines) : ∀ p ∈ lines.flatMap Line.places, s.IsPlace e p := by
  obtain ⟨-, derived⟩ := derives_of_readLines h
  intro p member
  obtain ⟨l, placed, rfl⟩ := derived.exists_place p member
  exact isPlace_of_mem_place e s placed

/-- So is the position of an error. -/
theorem isPlace_of_error {e : Encoding} {s : Text} {error : SourceError}
    (h : readLines e s = .error error) : s.IsPlace e error.position := by
  rcases readLines_eq_error_iff.mp h with ⟨fault, lexed, rfl⟩ | ⟨ls, g, lexed, failed, rfl⟩
  · simp only [lex] at lexed
    split at lexed
    · cases lexed
      exact isPlace_endOf e s
    · contradiction
  · obtain ⟨-, rfl⟩ := lex_eq_ok_iff.mp lexed
    obtain ⟨before, l, after, lines, next, split, -, refuses⟩ := Parse.exists_refused_of_parse
      ⟨_, List.mem_append_right _ (List.mem_singleton.mpr rfl), rfl⟩ failed
    have member : l ∈ place e .start (cut s).pieces ++
        [⟨.endOfInput, endOf e .start (cut s).pieces, 0⟩] := split ▸ by simp
    show s.IsPlace e g.position
    rw [refuses.position]
    rcases List.mem_append.mp member with placed | final
    · exact isPlace_of_mem_place e s placed
    · obtain rfl := List.mem_singleton.mp final
      exact isPlace_endOf e s

/-! ## Programs -/

/-- The place without its column. -/
def Position.noColumn (p : Position) : Position := ⟨p.line, 0⟩

namespace Program

/-- A text is a program in all encodings or in none. The lines of the programs are the same but for
columns, and each position in the one tree is the same place as the one in its stead in the other.
Otherwise the errors are the same but for columns, and stand in the same place. -/
theorem parse_encodings (e e' : Encoding) (source s : Text) :
    (∃ p p', parse e source s = .ok p ∧ parse e' source s = .ok p' ∧
      p'.lines.map (Line.relocate Position.noColumn) =
        p.lines.map (Line.relocate Position.noColumn) ∧
      List.Forall₂ (SamePlace e e' s) (p.lines.flatMap Line.places)
        (p'.lines.flatMap Line.places)) ∨
    ∃ error error', parse e source s = .error error ∧ parse e' source s = .error error' ∧
      error'.relocate Position.noColumn = error.relocate Position.noColumn ∧
      SamePlace e e' s error.position error'.position := by
  have read := readLines_inUnits e s
  have read' := readLines_inUnits e' s
  have columns : ∀ e : Encoding, Position.noColumn ∘ s.inUnits e = Position.noColumn :=
    fun e => rfl
  cases base : readLines .utf32 s with
  | ok lines =>
    left
    rw [base] at read read'
    refine ⟨_, _, parse_eq_ok_iff.mpr ⟨_, read, rfl⟩, parse_eq_ok_iff.mpr ⟨_, read', rfl⟩, ?_, ?_⟩
    · show (lines.map _).map _ = (lines.map _).map _
      rw [List.map_map, List.map_map]
      refine List.map_congr_left fun line _ => ?_
      show (line.relocate _).relocate _ = (line.relocate _).relocate _
      rw [Line.relocate_relocate, Line.relocate_relocate, columns, columns]
    · have places : ∀ f : Position → Position, (lines.map (Line.relocate f)).flatMap Line.places =
          (lines.flatMap Line.places).map f := by
        intro f
        rw [List.flatMap_map, List.map_flatMap]
        exact congrArg (lines.flatMap ·) (funext (Line.places_relocate f))
      show List.Forall₂ _ ((lines.map _).flatMap _) ((lines.map _).flatMap _)
      rw [places, places, List.forall₂_map_left_iff, List.forall₂_map_right_iff, List.forall₂_same]
      intro p member
      exact (isPlace_of_readLines base p member).samePlace e e'
  | error error =>
    right
    rw [base] at read read'
    refine ⟨_, _, parse_eq_error_iff.mpr read, parse_eq_error_iff.mpr read', ?_, ?_⟩
    · cases error <;> rfl
    · have moved : ∀ f : Position → Position,
          (error.relocate f).position = f error.position := by
        intro f
        cases error <;> rfl
      rw [moved, moved]
      exact (isPlace_of_error base).samePlace e e'

-- A character of four bytes and two UTF-16 units stands before the parenthesis.
example : [Encoding.utf32, .utf16, .utf8].map (readLines · "1 print\"𝄞\")".toList) =
    [11, 12, 14].map fun column =>
      .error (.grammatical ⟨⟨1, column⟩, .colonOrEndOfLine, .punctuation ')'⟩) := by
  decide +kernel

end Program

end CommodoreBasic
