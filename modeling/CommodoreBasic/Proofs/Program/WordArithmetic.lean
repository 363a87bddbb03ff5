import CommodoreBasic.Proofs.Dump.Report
import CommodoreBasic.Proofs.Program.Encodings
import CommodoreBasic.Proofs.Program.KeywordSpan

/-!
# No place is beyond a word

Places are counted in 64-bit words, and no sum of the program is looked at for a carry. None is
needed: whoever is at a place has passed, for each line and each column beyond the first, at least
one byte of the text (`Position.Within`), and each piece that is passed keeps it so
(`Position.Within.next`). So a text of fewer than 2⁶³ bytes has no place beyond a word.

To say that no sum is too large, each of them is taken a second time by `addWord?`, which gives no
sum if there is a carry, and comes out the same. The main statement is
`Text.fitsWords_of_width_lt`.
-/

namespace CommodoreBasic

/-! ## Sums of words -/

/-- The line after a text, its line ends counted one at a time from `line` on. -/
def Text.countLines? (line : Nat) : Text → Option Nat
  | [] => some line
  | c :: s =>
    if c = '\n' ∨ (c = '\r' ∧ s.head? ≠ some '\n') then
      (addWord? line 1).bind fun next => countLines? next s
    else countLines? line s

/-- The byte and the place after a piece. -/
def Piece.advance? (e : Encoding) : Nat × Position → Piece → Option (Nat × Position)
  | (offset, p), piece =>
    (addWord? offset (Encoding.utf8.width piece.segment)).bind fun offset =>
      if piece.token = .endOfLine then
        (Text.countLines? p.line piece.segment).map fun line => (offset, ⟨line, 1⟩)
      else
        (addWord? p.column (e.width piece.segment)).map fun column => (offset, ⟨p.line, column⟩)

/-- The line with the character at `column` underlined, its first character at `here`. -/
def underlineFrom? (e : Encoding) (column : Nat) : Nat → Text → Option Text
  | here, [] => some (if here ≤ column then Style.underlined.paint [' '] else [])
  | here, c :: s =>
    (addWord? here (e.charWidth c)).bind fun next =>
      (underlineFrom? e column next s).map fun rest =>
        (if here = column then Style.underlined.paint [c] else [c]) ++ rest

theorem Text.countLines?_eq_some {line : Nat} {s : Text}
    (small : line + s.lineBreaks < wordCount) :
    countLines? line s = some (line + s.lineBreaks) := by
  induction s generalizing line with
  | nil => rfl
  | cons c s ih =>
    rw [countLines?]
    rw [lineBreaks] at small ⊢
    split
    · next ends =>
      rw [if_pos ends] at small
      rw [addWord?_of_lt (by omega), Option.bind_some, ih (by omega), Nat.add_assoc]
    · next other =>
      rw [if_neg other, Nat.zero_add] at small
      rw [Nat.zero_add, ih small]

theorem underlineFrom?_eq_some (e : Encoding) (column : Nat) {here : Nat} {s : Text}
    (small : here + e.width s < wordCount) :
    underlineFrom? e column here s = some (underlineFrom e column here s) := by
  induction s generalizing here with
  | nil => rfl
  | cons c s ih =>
    rw [Encoding.width_cons, ← Nat.add_assoc] at small
    rw [underlineFrom?, addWord?_of_lt (by omega), Option.bind_some, ih small, Option.map_some,
      underlineFrom]

/-! ## Bytes and places -/

namespace Encoding

theorem length_le_width (e : Encoding) (s : Text) : s.length ≤ e.width s := by
  rw [← width_utf32]
  exact width_le_width e.utf32_charWidth_le s

theorem width_le_utf8 (e : Encoding) (s : Text) : e.width s ≤ utf8.width s :=
  width_le_width e.charWidth_le_utf8 s

end Encoding

/-- The place can be reached with `n` bytes: there is one for each line and each column beyond the
first. -/
structure Position.Within (n : Nat) (p : Position) : Prop where
  line : 1 ≤ p.line
  column : 1 ≤ p.column
  sum : p.line + p.column ≤ n + 2

namespace Position.Within

theorem start : Position.start.Within 0 := ⟨Nat.le_refl 1, Nat.le_refl 1, Nat.le_refl 2⟩

theorem mono {n m : Nat} (le : n ≤ m) {p : Position} (h : p.Within n) : p.Within m :=
  ⟨h.line, h.column, Nat.le_trans h.sum (Nat.add_le_add_right le 2)⟩

theorem le {n : Nat} {p : Position} (h : p.Within n) : p.line ≤ n + 1 ∧ p.column ≤ n + 1 := by
  obtain ⟨line, column, sum⟩ := h
  omega

theorem column_lt {n : Nat} {p : Position} (h : p.Within n) (small : n < 0x8000000000000000) :
    p.column < wordCount := by
  have reached := h.le.2
  unfold wordCount
  omega

/-- Columns are no more than bytes. -/
theorem add_width {n : Nat} {p : Position} (h : p.Within n) (e : Encoding) (s : Text) :
    Within (n + Encoding.utf8.width s) ⟨p.line, p.column + e.width s⟩ := by
  have units := e.width_le_utf8 s
  obtain ⟨line, column, sum⟩ := h
  refine ⟨line, ?_, ?_⟩
  · show 1 ≤ p.column + e.width s
    omega
  · show p.line + (p.column + e.width s) ≤ n + Encoding.utf8.width s + 2
    omega

/-- Nor are line ends. -/
theorem add_lineBreaks {n : Nat} {p : Position} (h : p.Within n) (s : Text) :
    Within (n + Encoding.utf8.width s) ⟨p.line + s.lineBreaks, 1⟩ := by
  have breaks := s.lineBreaks_le_length
  have bytes := Encoding.utf8.length_le_width s
  obtain ⟨line, column, sum⟩ := h
  refine ⟨?_, Nat.le_refl 1, ?_⟩
  · show 1 ≤ p.line + s.lineBreaks
    omega
  · show p.line + s.lineBreaks + 1 ≤ n + Encoding.utf8.width s + 2
    omega

/-- A piece leads to no place that its bytes do not account for. -/
theorem next {n : Nat} {p : Position} (h : p.Within n) (e : Encoding) (piece : Piece) :
    (piece.next e p).Within (n + Encoding.utf8.width piece.segment) := by
  unfold Piece.next
  split
  · exact h.add_lineBreaks piece.segment
  · exact h.add_width e piece.segment

/-- All pieces lead to none. -/
theorem endOf {n : Nat} {p : Position} (h : p.Within n) (e : Encoding) (pieces : List Piece) :
    (endOf e p pieces).Within (n + Encoding.utf8.width (Piece.textOf pieces)) := by
  induction pieces generalizing n p with
  | nil => exact h
  | cons piece pieces ih =>
    rw [Piece.textOf_cons, Encoding.width_append, ← Nat.add_assoc]
    exact ih (h.next e piece)

end Position.Within

/-- The place after a lexeme on its line. -/
def Lexeme.stop (l : Lexeme) : Position := ⟨l.position.line, l.position.column + l.width⟩

/-- The lexemes of the pieces end within their bytes. -/
theorem Position.Within.stop_of_mem_place {n : Nat} {p : Position} (h : p.Within n) (e : Encoding)
    {pieces : List Piece} :
    ∀ l ∈ place e p pieces, l.stop.Within (n + Encoding.utf8.width (Piece.textOf pieces)) := by
  induction pieces generalizing n p with
  | nil => exact fun l member => absurd member List.not_mem_nil
  | cons piece pieces ih =>
    rw [Piece.textOf_cons, Encoding.width_append, ← Nat.add_assoc]
    have later := ih (h.next e piece)
    simp only [place]
    split
    · exact later
    · refine List.forall_mem_cons.mpr ⟨?_, later⟩
      exact (h.add_width e piece.segment).mono (Nat.le_add_right ..)

/-- Nothing is carried on the way through a piece. -/
theorem Piece.advance?_eq_some (e : Encoding) {n : Nat} {p : Position} (h : p.Within n)
    {piece : Piece} (small : n + Encoding.utf8.width piece.segment + 2 ≤ wordCount) :
    piece.advance? e (n, p) =
      some (n + Encoding.utf8.width piece.segment, piece.next e p) := by
  have le := (h.add_lineBreaks piece.segment).sum
  have le' := (h.add_width e piece.segment).sum
  have positive := h.line
  simp only at le le'
  rw [advance?, addWord?_of_lt (by omega), Option.bind_some, next]
  split
  · rw [Text.countLines?_eq_some (by omega), Option.map_some]
  · rw [addWord?_of_lt (by omega), Option.map_some]

/-- Nor on the way through all of them. -/
theorem foldlM_advance?_eq_some (e : Encoding) {n : Nat} {p : Position} (h : p.Within n)
    {pieces : List Piece}
    (small : n + Encoding.utf8.width (Piece.textOf pieces) + 2 ≤ wordCount) :
    pieces.foldlM (Piece.advance? e) (n, p) =
      some (n + Encoding.utf8.width (Piece.textOf pieces), endOf e p pieces) := by
  induction pieces generalizing n p with
  | nil => rfl
  | cons piece pieces ih =>
    rw [Piece.textOf_cons, Encoding.width_append, ← Nat.add_assoc] at small ⊢
    rw [List.foldlM_cons, Piece.advance?_eq_some e h (by omega), endOf_cons]
    exact ih (h.next e piece) small

/-! ## Texts -/

theorem width_textOf_cut_le (s : Text) :
    Encoding.utf8.width (Piece.textOf (cut s).pieces) ≤ Encoding.utf8.width s := by
  obtain ⟨rest, whole, -⟩ := chained_cut s
  have parts := congrArg Encoding.utf8.width whole
  rw [Encoding.width_append] at parts
  omega

/-- The pieces of a text end within its bytes. -/
theorem endOf_cut_within (e : Encoding) (s : Text) :
    (endOf e .start (cut s).pieces).Within (Encoding.utf8.width s) := by
  have reached := Position.Within.start.endOf e (cut s).pieces
  rw [Nat.zero_add] at reached
  exact reached.mono (width_textOf_cut_le s)

/-- So do its lexemes. -/
theorem stop_within_of_lex {e : Encoding} {s : Text} {ls : List Lexeme} (h : lex e s = .ok ls) :
    ∀ l ∈ ls, l.stop.Within (Encoding.utf8.width s) := by
  obtain ⟨-, rfl⟩ := lex_eq_ok_iff.mp h
  intro l member
  rcases List.mem_append.mp member with placed | final
  · have reached := Position.Within.start.stop_of_mem_place e l placed
    rw [Nat.zero_add] at reached
    exact reached.mono (width_textOf_cut_le s)
  · obtain rfl := List.mem_singleton.mp final
    exact endOf_cut_within e s

/-- So does what comes before a fault. -/
theorem fault_within_of_lex {e : Encoding} {s : Text} {error : LexicalError}
    (h : lex e s = .error error) : error.position.Within (Encoding.utf8.width s) := by
  simp only [lex] at h
  split at h
  · cases h
    exact endOf_cut_within e s
  · contradiction

/-- A keyword of a program ends where a lexeme of its text does. -/
theorem exists_stop_of_keyword {e : Encoding} {s : Text} {lines : List Line}
    (h : readLines e s = .ok lines) {line : Line} (member : line ∈ lines) {i : Item}
    (node : i ∈ line.nodes) {k : Keyword} (isKeyword : i.keyword? = some k) :
    ∃ ls, lex e s = .ok ls ∧
      ∃ l ∈ ls, l.stop = ⟨i.position.line, i.position.column + k.size⟩ := by
  obtain ⟨clean, derived⟩ := derives_of_readLines h
  obtain ⟨-, chain⟩ := chained_of_fault_eq_none clean
  obtain ⟨ms, among, content, -⟩ := derived.exists_row (rows_place e .start chain) line member
  obtain ⟨first, ns, listed, -, -, begins⟩ := content.exists_begins
  obtain ⟨l, inside, begin⟩ := Parse.exists_begins_of_mem begins i node
  have placed : l ∈ place e .start (cut s).pieces :=
    among.subset (listed.subset (List.mem_cons_of_mem first inside))
  have width := (fits_of_mem_place e chain placed).width k (begin.token_of_keyword isKeyword)
  refine ⟨_, lex_eq_ok_iff.mpr ⟨clean, rfl⟩, l, List.mem_append_left _ placed, ?_⟩
  rw [Lexeme.stop, begin.position, width]

/-- A line of a text has no more bytes than the text. -/
theorem Text.LineAt.width_le {s t : Text} {n : Nat} (h : LineAt s n t) (e : Encoding) :
    e.width t ≤ e.width s := by
  cases h
  simp only [Encoding.width_append]
  omega

/-- What is shown stands in its line, or right after it. -/
theorem Shown.exists_line {e : Encoding} {s : Text} {p : Position} {first : Option Char}
    (h : Shown e s p first) :
    ∃ line, s.sourceLine p.line = some line ∧ 1 ≤ p.column ∧ p.column ≤ 1 + e.width line := by
  cases h with
  | character line column =>
    refine ⟨_, line, ?_, ?_⟩
    · omega
    · rw [Encoding.width_append]
      omega
  | blank line column => exact ⟨_, line, by omega, by omega⟩

/-- The places and widths of a text, with columns in the units of an encoding, are bounded by its
bytes, and no sum of them is more than a word. -/
structure Text.FitsWords (e : Encoding) (s : Text) : Prop where
  /-- A text of `n` bytes has at most `n + 1` lines, and its lexemes end at most `n` columns after
  the first one. -/
  lexeme : ∀ ls, lex e s = .ok ls → ∀ l ∈ ls,
    l.position.line ≤ Encoding.utf8.width s + 1 ∧
      l.position.column + l.width ≤ Encoding.utf8.width s + 1
  /-- Nor is a fault beyond these bounds. -/
  fault : ∀ error, lex e s = .error error →
    error.position.line ≤ Encoding.utf8.width s + 1 ∧
      error.position.column ≤ Encoding.utf8.width s + 1
  /-- Neither bytes, lines nor columns carry on the way through the text. -/
  advance : (cut s).pieces.foldlM (Piece.advance? e) (0, .start) =
    some (Encoding.utf8.width (Piece.textOf (cut s).pieces), endOf e .start (cut s).pieces)
  /-- Nor does the column after the last lexeme. -/
  stop : ∀ ls l, lex e s = .ok ls → ls.getLast? = some l →
    addWord? l.position.column l.width = some (Parse.stopOf ls).column
  /-- Nor does the column after a keyword, at any depth. -/
  keyword : ∀ source p, Program.parse e source s = .ok p → ∀ line ∈ p.lines, ∀ i ∈ line.nodes,
    ∀ k, i.keyword? = some k → addWord? i.position.column k.size =
      some (i.position.column + k.size)
  /-- Nor does any column that is passed while a line is underlined. -/
  underline : ∀ n t, LineAt s n t → ∀ column,
    underlineFrom? e column 1 t = some (underlineColumn e column t)
  /-- An error stands in its line, or right after it. -/
  error : ∀ source error, Program.parse e source s = .error error →
    ∃ line, s.sourceLine error.position.line = some line ∧
      1 ≤ error.position.column ∧ error.position.column ≤ 1 + e.width line

section

variable (e : Encoding) {s : Text} (small : Encoding.utf8.width s < 0x8000000000000000)

include small

theorem advance_cut : (cut s).pieces.foldlM (Piece.advance? e) (0, .start) =
    some (Encoding.utf8.width (Piece.textOf (cut s).pieces), endOf e .start (cut s).pieces) := by
  have part := width_textOf_cut_le s
  have word : wordCount = 0x10000000000000000 := rfl
  have walked := @foldlM_advance?_eq_some e 0 .start Position.Within.start (cut s).pieces
  rw [Nat.zero_add] at walked
  exact walked (by omega)

theorem addWord?_stopOf {ls : List Lexeme} (lexed : lex e s = .ok ls) {l : Lexeme}
    (last : ls.getLast? = some l) :
    addWord? l.position.column l.width = some (Parse.stopOf ls).column := by
  have reached := stop_within_of_lex lexed l (List.mem_of_getLast? last)
  have sum : l.position.column + l.width < wordCount := reached.column_lt small
  rw [addWord?_of_lt sum, Parse.stopOf, last]
  simp only [Nat.mod_eq_of_lt sum]

theorem addWord?_keyword {lines : List Line} (read : readLines e s = .ok lines) {line : Line}
    (member : line ∈ lines) {i : Item} (node : i ∈ line.nodes) {k : Keyword}
    (isKeyword : i.keyword? = some k) :
    addWord? i.position.column k.size =
      some (i.position.column + k.size) := by
  obtain ⟨ls, lexed, l, listed, stop⟩ := exists_stop_of_keyword read member node isKeyword
  have reached := stop_within_of_lex lexed l listed
  rw [stop] at reached
  exact addWord?_of_lt (reached.column_lt small)

theorem underlineFrom?_of_lineAt {n : Nat} {t : Text} (line : Text.LineAt s n t) (column : Nat) :
    underlineFrom? e column 1 t = some (underlineColumn e column t) := by
  have part := line.width_le e
  have units := e.width_le_utf8 s
  have word : wordCount = 0x10000000000000000 := rfl
  exact underlineFrom?_eq_some e column (by omega)

end

/-- In a text of fewer than 2⁶³ bytes nothing is carried. -/
theorem Text.fitsWords_of_width_lt (e : Encoding) {s : Text}
    (small : Encoding.utf8.width s < 0x8000000000000000) : s.FitsWords e where
  lexeme _ lexed l member := (stop_within_of_lex lexed l member).le
  fault _ failed := (fault_within_of_lex failed).le
  advance := advance_cut e small
  stop _ _ lexed last := addWord?_stopOf e small lexed last
  keyword _ _ parsed line member i node k isKeyword := by
    obtain ⟨lines, read, rfl⟩ := Program.parse_eq_ok_iff.mp parsed
    exact addWord?_keyword e small read member node isKeyword
  underline _ _ line column := underlineFrom?_of_lineAt e small line column
  error _ _ failed := by
    obtain ⟨first, -, shown⟩ :=
      exists_shown_of_readLines e (Program.parse_eq_error_iff.mp failed)
    exact shown.exists_line

/-- A text of two lines, with a character of four bytes and an error after it. -/
theorem fitsWords_of_width_lt_lines :
    Encoding.utf8.width "10 print\"𝄞\";)\r\n20 end".toList = 24 ∧
      Text.FitsWords .utf16 "10 print\"𝄞\";)\r\n20 end".toList := by
  have bytes : Encoding.utf8.width "10 print\"𝄞\";)\r\n20 end".toList = 24 := by rfl
  exact ⟨bytes, Text.fitsWords_of_width_lt .utf16 (by rw [bytes]; decide)⟩

end CommodoreBasic
