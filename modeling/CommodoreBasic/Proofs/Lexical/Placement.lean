import CommodoreBasic.Proofs.Grammar.Relocation
import CommodoreBasic.Proofs.Text.PhysicalLines

/-!
# Where lexemes stand

A lexeme stands at the place of the segment that it is read from, and is as wide
(`exists_segment_of_mem_place`); on its line the segment begins there (`standsAt_of_mem_place`). A
keyword is as wide as its spelling in every encoding (`width_of_keyword`). The lexemes of a text
come line by line: `Rows` says that nothing comes after an end of line on its line, and that line
numbers grow from there. On a line they come column by column, and none reaches into the next one
(`pairwise_precedes_place`), so no two stand in one place (`eq_of_position_eq`).
-/

namespace CommodoreBasic

/-- A lexeme stands at the place of a segment, and is read from it. -/
theorem exists_segment_of_mem_place (e : Encoding) {pieces : List Piece} {before rest : Text}
    (chain : Chained rest pieces) (apart : Text.Apart before (Piece.textOf pieces ++ rest))
    {l : Lexeme} (h : l ∈ place e (.after e before) pieces) :
    ∃ left segment right, Piece.textOf pieces = left ++ (segment ++ right) ∧
      l.position = .after e (before ++ left) ∧ l.width = e.width segment ∧
      l.token.Reads segment (right ++ rest) ∧
      Text.Apart (before ++ left) (segment ++ (right ++ rest)) := by
  induction chain generalizing before with
  | nil => contradiction
  | @cons piece pieces reads _ ih =>
    rw [Piece.textOf_cons, List.append_assoc] at apart
    have later : l ∈ place e (.after e (before ++ piece.segment)) pieces →
        ∃ left segment right, Piece.textOf (piece :: pieces) = left ++ (segment ++ right) ∧
          l.position = .after e (before ++ left) ∧ l.width = e.width segment ∧
          l.token.Reads segment (right ++ rest) ∧
          Text.Apart (before ++ left) (segment ++ (right ++ rest)) := by
      intro member
      obtain ⟨left, segment, right, split, position, width, read, parted⟩ :=
        ih (reads.apart before) member
      rw [List.append_assoc] at position parted
      refine ⟨piece.segment ++ left, segment, right, ?_, position, width, read, parted⟩
      rw [Piece.textOf_cons, split, List.append_assoc]
    simp only [place] at h
    rw [next_after e reads apart] at h
    split at h
    · exact later h
    · rcases List.mem_cons.mp h with rfl | member
      · exact ⟨[], piece.segment, Piece.textOf pieces, rfl, by rw [List.append_nil], rfl, reads,
          by rwa [List.append_nil]⟩
      · exact later member

/-- The segment begins at the place, on the line of the text that has its number. -/
def Text.StandsAt (e : Encoding) (s : Text) (p : Position) (segment : Text) : Prop :=
  ∃ left right, LineAt s p.line (left ++ (segment ++ right)) ∧ p.column = 1 + e.width left

/-- What a lexeme is read from stands at its place. -/
theorem standsAt_of_mem_place (e : Encoding) {pieces : List Piece} (chain : Chained [] pieces)
    {l : Lexeme} (h : l ∈ place e .start pieces) (inner : l.token ≠ .endOfLine) :
    ∃ segment rest, l.token.Reads segment rest ∧
      (Piece.textOf pieces).StandsAt e l.position segment := by
  obtain ⟨left, segment, right, split, position, -, reads, apart⟩ :=
    exists_segment_of_mem_place e chain (Text.apart_nil _) h
  rw [List.nil_append] at position apart
  rw [List.append_nil] at reads apart
  have plain : ∀ c ∈ segment, (!isLineBreak c) = true := by
    intro c hc
    rw [reads.line inner c hc]
    rfl
  have line := Text.lineAt_append apart.unparted
  rw [List.takeWhile_append_of_pos plain, Nat.add_comm] at line
  rw [split, position]
  exact ⟨segment, right, reads, left.lastLine, _, line, rfl⟩

/-! ## Pieces after each other and elsewhere -/

theorem place_append (e : Encoding) (p : Position) (ps qs : List Piece) :
    place e p (ps ++ qs) = place e p ps ++ place e (endOf e p ps) qs := by
  induction ps generalizing p with
  | nil => rfl
  | cons piece ps ih =>
    simp only [List.cons_append, place]
    rw [ih]
    split <;> rfl

theorem endOf_append (e : Encoding) (p : Position) (ps qs : List Piece) :
    endOf e p (ps ++ qs) = endOf e (endOf e p ps) qs := List.foldl_append

theorem endOf_cons (e : Encoding) (p : Position) (piece : Piece) (pieces : List Piece) :
    endOf e p (piece :: pieces) = endOf e (piece.next e p) pieces := rfl

/-- On a line every place is as far from the start as it is from another start. -/
theorem place_relocate (e : Encoding) {f : Position → Position}
    (moves : ∀ p n, f ⟨p.line, p.column + n⟩ = ⟨(f p).line, (f p).column + n⟩)
    {pieces : List Piece}
    (other : ∀ piece ∈ pieces, piece.token ≠ .endOfLine) (p : Position) :
    place e (f p) pieces = (place e p pieces).map (Lexeme.relocate f) ∧
      endOf e (f p) pieces = f (endOf e p pieces) := by
  induction pieces generalizing p with
  | nil => exact ⟨rfl, rfl⟩
  | cons piece pieces ih =>
    have stays : ∀ q : Position, piece.next e q = ⟨q.line, q.column + e.width piece.segment⟩ :=
      fun q => if_neg (other piece List.mem_cons_self)
    have moved : piece.next e (f p) = f (piece.next e p) := by rw [stays, stays, moves]
    obtain ⟨places, stop⟩ :=
      ih (fun q member => other q (List.mem_cons_of_mem _ member)) (piece.next e p)
    constructor
    · simp only [place]
      rw [moved, places]
      split
      · rfl
      · rw [List.map_cons, Lexeme.relocate_eq]
    · rw [endOf_cons, endOf_cons, moved, stop]

/-! ## Widths -/

theorem Encoding.charWidth_of_ascii (e : Encoding) {c : Char} (ascii : c.toNat < 128) :
    e.charWidth c = 1 := by
  cases e with
  | utf8 =>
    have low : c.val ≤ 0x7f := by
      rw [UInt32.le_iff_toNat_le]
      exact Nat.le_of_lt_succ ascii
    simp [charWidth, Char.utf8Size, low]
  | utf16 => exact if_pos (by omega)
  | utf32 => rfl

theorem Encoding.width_of_ascii (e : Encoding) {s : Text} (ascii : ∀ c ∈ s, c.toNat < 128) :
    e.width s = s.length := by
  induction s with
  | nil => rfl
  | cons c s ih =>
    rw [width_cons, e.charWidth_of_ascii (ascii c List.mem_cons_self),
      ih fun d hd => ascii d (List.mem_cons_of_mem c hd), List.length_cons, Nat.add_comm]

/-- Only small letters are changed by upper case, and to letters. -/
theorem toNat_lt_of_toUpper {c : Char} (ascii : c.toUpper.toNat < 128) : c.toNat < 128 := by
  unfold Char.toUpper at ascii
  split at ascii
  · next small =>
    have high : c.toNat ≤ 122 := UInt32.le_iff_toNat_le.mp small.2
    omega
  · exact ascii

/-- A keyword is as wide as its spelling is long, in any case of letters. -/
theorem width_of_keyword (e : Encoding) {k : ReservedWord} {segment : Text}
    (same : segment.upper = k.spelling) : e.width segment = k.spelling.length := by
  have plain : (Keyword.table.all fun s => s.all fun c => decide (c.toNat < 128)) = true := by
    decide +kernel
  have spelled := List.all_eq_true.mp plain k.spelling k.mem_table
  have ascii : ∀ c ∈ segment, c.toNat < 128 := by
    intro c hc
    have member : c.toUpper ∈ k.spelling := same ▸ List.mem_map_of_mem hc
    exact toNat_lt_of_toUpper (by simpa using List.all_eq_true.mp spelled _ member)
  rw [e.width_of_ascii ascii, ← same, Text.length_upper]

/-- A reserved word has a byte for each of its characters. -/
theorem ReservedWord.width_spelling (k : ReservedWord) :
    Encoding.utf8.width k.spelling = k.spelling.length :=
  width_of_keyword .utf8 k.spelling_plain.2

/-! ## Rows -/

/-- The lexemes stand on line `k` and on later lines, each on the line of the one before it unless
that is an end of line. -/
inductive Rows : Nat → List Lexeme → Prop
  | nil {k : Nat} : Rows k []
  | inside {k : Nat} {l : Lexeme} {ls : List Lexeme} (line : l.position.line = k)
      (other : l.token ≠ .endOfLine) (later : Rows k ls) : Rows k (l :: ls)
  | ends {k next : Nat} {l : Lexeme} {ls : List Lexeme} (line : l.position.line = k)
      (isEnd : l.token = .endOfLine) (grows : k < next) (later : Rows next ls) : Rows k (l :: ls)

/-- Lexemes that end no line stand on one line. -/
theorem Rows.append {k : Nat} {ls ms : List Lexeme} (h : Rows k (ls ++ ms))
    (inner : ∀ l ∈ ls, l.token ≠ .endOfLine) :
    (∀ l ∈ ls, l.position.line = k) ∧ Rows k ms := by
  induction ls with
  | nil => exact ⟨by simp, h⟩
  | cons l ls ih =>
    rw [List.cons_append] at h
    cases h with
    | inside line other later =>
      obtain ⟨same, rest⟩ := ih later fun m hm => inner m (List.mem_cons_of_mem l hm)
      refine ⟨?_, rest⟩
      intro m hm
      rcases List.mem_cons.mp hm with rfl | hm
      · exact line
      · exact same m hm
    | ends line isEnd => exact absurd isEnd (inner l List.mem_cons_self)

theorem Rows.of_endOfLine {k : Nat} {l : Lexeme} {ls : List Lexeme} (h : Rows k (l :: ls))
    (isEnd : l.token = .endOfLine) : l.position.line = k ∧ ∃ next, k < next ∧ Rows next ls := by
  cases h with
  | inside line other => exact absurd isEnd other
  | ends line _ grows later => exact ⟨line, _, grows, later⟩

theorem Rows.le {k : Nat} {ls : List Lexeme} (h : Rows k ls) :
    ∀ l ∈ ls, k ≤ l.position.line := by
  induction h with
  | nil => simp
  | inside line _ _ ih =>
    intro m hm
    rcases List.mem_cons.mp hm with rfl | hm
    · exact Nat.le_of_eq line.symm
    · exact ih m hm
  | ends line _ grows _ ih =>
    intro m hm
    rcases List.mem_cons.mp hm with rfl | hm
    · exact Nat.le_of_eq line.symm
    · exact Nat.le_trans (Nat.le_of_lt grows) (ih m hm)

/-- After an end of line a later line begins. -/
theorem line_lt_next (e : Encoding) (p : Position) {piece : Piece} {rest : Text}
    (reads : piece.token.Reads piece.segment rest) (ends : piece.token = .endOfLine) :
    p.line < (piece.next e p).line := by
  rw [ends] at reads
  cases reads with
  | endOfLine nonempty breaks =>
    obtain ⟨c, t, segment⟩ := List.exists_cons_of_ne_nil nonempty
    have member : c ∈ piece.segment := segment ▸ List.mem_cons_self
    have more := Text.lineBreaks_pos member (breaks c member)
    rw [Piece.next, if_pos ends]
    show p.line < p.line + piece.segment.lineBreaks
    omega

/-- Consecutive pieces are placed row by row. -/
theorem rows_place (e : Encoding) (p : Position) {pieces : List Piece} {rest : Text}
    (chain : Chained rest pieces) : Rows p.line (place e p pieces) := by
  induction chain generalizing p with
  | nil => exact .nil
  | @cons piece pieces reads _ ih =>
    have later := ih (piece.next e p)
    by_cases ends : piece.token = .endOfLine
    · have grows := line_lt_next e p reads ends
      simp only [place, ends, Token.isSpace]
      exact .ends rfl rfl grows later
    · have stays : (piece.next e p).line = p.line := by rw [Piece.next, if_neg ends]
      rw [stays] at later
      simp only [place]
      split
      · exact later
      · exact .inside rfl ends later

/-! ## Columns -/

/-- The place comes before the other one: on an earlier line, or in an earlier column. -/
def Position.Before (p q : Position) : Prop :=
  p.line < q.line ∨ p.line = q.line ∧ p.column < q.column

theorem Position.Before.trans {p q r : Position} (first : p.Before q) (second : q.Before r) :
    p.Before r := by
  unfold Before at *
  omega

theorem Encoding.width_pos (e : Encoding) {s : Text} (nonempty : s ≠ []) : 0 < e.width s := by
  obtain ⟨c, t, rfl⟩ := List.exists_cons_of_ne_nil nonempty
  exact Nat.add_pos_left (e.charWidth_pos c) _

/-- No segment is passed without moving on. -/
theorem before_next (e : Encoding) (p : Position) {piece : Piece} {rest : Text}
    (reads : piece.token.Reads piece.segment rest) : p.Before (piece.next e p) := by
  by_cases ends : piece.token = .endOfLine
  · exact Or.inl (line_lt_next e p reads ends)
  · have wide := e.width_pos reads.nonempty
    rw [Piece.next, if_neg ends]
    exact Or.inr ⟨rfl, Nat.lt_add_of_pos_right wide⟩

/-- Pieces are placed from the given place on. -/
theorem before_of_mem_place (e : Encoding) (p : Position) {pieces : List Piece} {rest : Text}
    (chain : Chained rest pieces) :
    ∀ l ∈ place e p pieces, l.position = p ∨ p.Before l.position := by
  induction chain generalizing p with
  | nil => exact fun l member => absurd member List.not_mem_nil
  | @cons piece pieces reads _ ih =>
    have later : ∀ l ∈ place e (piece.next e p) pieces, l.position = p ∨ p.Before l.position := by
      intro l member
      have moved := before_next e p reads
      rcases ih (piece.next e p) l member with same | beyond
      · exact Or.inr (same ▸ moved)
      · exact Or.inr (moved.trans beyond)
    intro l member
    simp only [place] at member
    split at member
    · exact later l member
    · rcases List.mem_cons.mp member with rfl | member
      · exact Or.inl rfl
      · exact later l member

/-- The first lexeme is over where the second one begins: on an earlier line, or in a column that it
does not reach. -/
def Lexeme.Precedes (l m : Lexeme) : Prop :=
  l.position.line < m.position.line ∨
    l.position.line = m.position.line ∧ 0 < l.width ∧
      l.position.column + l.width ≤ m.position.column

theorem Lexeme.Precedes.before {l m : Lexeme} (h : l.Precedes m) :
    l.position.Before m.position := by
  unfold Precedes at h
  unfold Position.Before
  omega

/-- A lexeme is over where the next piece begins, and so it is from there on. -/
theorem precedes_of_next (e : Encoding) (p : Position) {piece : Piece} {rest : Text}
    (reads : piece.token.Reads piece.segment rest) {m : Lexeme}
    (later : m.position = piece.next e p ∨ (piece.next e p).Before m.position) :
    Lexeme.Precedes ⟨piece.token, p, e.width piece.segment⟩ m := by
  by_cases ends : piece.token = .endOfLine
  · have grows := line_lt_next e p reads ends
    refine Or.inl (Nat.lt_of_lt_of_le grows ?_)
    rcases later with same | line | ⟨line, -⟩
    · exact Nat.le_of_eq (congrArg Position.line same.symm)
    · exact Nat.le_of_lt line
    · exact Nat.le_of_eq line
  · have wide := e.width_pos reads.nonempty
    rw [Piece.next, if_neg ends] at later
    rcases later with same | line | ⟨line, column⟩
    · unfold Lexeme.Precedes
      rw [same]
      exact Or.inr ⟨rfl, wide, Nat.le_refl _⟩
    · exact Or.inl line
    · exact Or.inr ⟨line, wide, Nat.le_of_lt column⟩

/-- Lexemes do not overlap: each one is over where any later one begins. -/
theorem pairwise_precedes_place (e : Encoding) (p : Position) {pieces : List Piece} {rest : Text}
    (chain : Chained rest pieces) : (place e p pieces).Pairwise Lexeme.Precedes := by
  induction chain generalizing p with
  | nil => exact .nil
  | @cons piece pieces reads chain ih =>
    have later := ih (piece.next e p)
    simp only [place]
    split
    · exact later
    · refine List.pairwise_cons.mpr ⟨?_, later⟩
      intro m member
      exact precedes_of_next e p reads (before_of_mem_place e (piece.next e p) chain m member)

/-- Each lexeme is placed before the ones after it. -/
theorem pairwise_place (e : Encoding) (p : Position) {pieces : List Piece} {rest : Text}
    (chain : Chained rest pieces) :
    (place e p pieces).Pairwise fun l m => l.position.Before m.position :=
  (pairwise_precedes_place e p chain).imp Lexeme.Precedes.before

theorem Position.Before.irrefl (p : Position) : ¬ p.Before p := by
  unfold Before
  omega

/-- Pieces are placed before the end of the last one. -/
theorem before_endOf (e : Encoding) (p : Position) {pieces : List Piece} {rest : Text}
    (chain : Chained rest pieces) : (endOf e p pieces = p ∨ p.Before (endOf e p pieces)) ∧
      ∀ l ∈ place e p pieces, l.position.Before (endOf e p pieces) := by
  induction chain generalizing p with
  | nil => exact ⟨Or.inl rfl, by simp [place]⟩
  | @cons piece pieces reads _ ih =>
    obtain ⟨stop, later⟩ := ih (piece.next e p)
    have moved := before_next e p reads
    have first : p.Before (endOf e (piece.next e p) pieces) := by
      rcases stop with same | beyond
      · rwa [same]
      · exact moved.trans beyond
    rw [endOf_cons]
    refine ⟨Or.inr first, fun l member => ?_⟩
    simp only [place] at member
    split at member
    · exact later l member
    · rcases List.mem_cons.mp member with rfl | member
      · exact first
      · exact later l member

/-- All lexemes of a text stand in different places, in their order. -/
theorem pairwise_lex {e : Encoding} {s : Text} {ls : List Lexeme} (h : lex e s = .ok ls) :
    ls.Pairwise fun l m => l.position.Before m.position := by
  obtain ⟨clean, rfl⟩ := lex_eq_ok_iff.mp h
  obtain ⟨-, chain⟩ := chained_of_fault_eq_none clean
  refine List.pairwise_append.mpr ⟨pairwise_place e .start chain, List.pairwise_singleton .., ?_⟩
  intro l placed m final
  rw [List.mem_singleton.mp final]
  exact (before_endOf e .start chain).2 l placed

/-- No two of them stand in one place. -/
theorem eq_of_position_eq {e : Encoding} {s : Text} {ls : List Lexeme} (h : lex e s = .ok ls)
    {l m : Lexeme} (hl : l ∈ ls) (hm : m ∈ ls) (same : l.position = m.position) : l = m := by
  obtain ⟨before, after, rfl⟩ := List.append_of_mem hl
  obtain ⟨-, later, earlier⟩ := List.pairwise_append.mp (pairwise_lex h)
  rcases List.mem_append.mp hm with inside | inside
  · have ahead := earlier m inside l List.mem_cons_self
    rw [same] at ahead
    exact absurd ahead (Position.Before.irrefl _)
  · rcases List.mem_cons.mp inside with rfl | inside
    · rfl
    · have behind := (List.pairwise_cons.mp later).1 m inside
      rw [same] at behind
      exact absurd behind (Position.Before.irrefl _)

/-- A text has no more lines than characters and one. -/
theorem Text.lineBreaks_le_length (s : Text) : s.lineBreaks ≤ s.length := by
  induction s with
  | nil => exact Nat.le_refl 0
  | cons c s ih =>
    rw [lineBreaks, List.length_cons]
    split <;> omega

end CommodoreBasic
