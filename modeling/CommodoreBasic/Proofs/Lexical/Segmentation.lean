import CommodoreBasic.Lexical.Lexeme
import CommodoreBasic.Proofs.Lexical.Rule

/-!
# Segments of a text and their places

A text that is cut without a fault is a chain of segments, each read as one token with the later
ones after it (`chained_cut`, `cut_of_chained`). The lexer counts lines and columns as it goes; the
place of a segment is said here by the text before it alone (`Position.after`), and `next_after`
is the step that ties the two together. It needs that a run of line ends is never cut in two
(`Text.Apart`), for the pair of carriage return and line feed counts once.

The main statement is `lexed_of_lex`: the lexemes of a text account for every character of it, in
order and in place.
-/

namespace CommodoreBasic

/-- What begins with a space or a tab is read as a run of them. -/
theorem Token.Reads.isSpace_of_head {token : Token} {segment rest : Text}
    (h : token.Reads segment rest) {c : Char} (head : segment.head? = some c)
    (spacing : isSpacing c = true) : token.isSpace = true := by
  obtain ⟨d, t, rfl⟩ := List.exists_cons_of_ne_nil h.nonempty
  obtain rfl : d = c := Option.some.inj head
  have read := Rule.first_of_reads h
  rw [List.cons_append, Rule.first_of_space (Or.inl spacing)] at read
  simp only [Rule.run, List.takeWhile_cons_of_pos spacing, List.length_cons, Nat.add_eq_zero_iff,
    Nat.one_ne_zero, and_false, if_false] at read
  have answer := Except.ok.inj (Option.some.inj read)
  rw [← show Token.whitespace _ = token from congrArg Prod.fst answer]
  rfl

/-- Spaces and tabs are read as such, and nothing else is. -/
theorem Token.Reads.isSpace_eq {token : Token} {segment rest : Text}
    (h : token.Reads segment rest) : token.isSpace = segment.all isSpacing := by
  obtain ⟨c, t, split⟩ := List.exists_cons_of_ne_nil h.nonempty
  cases spacing : isSpacing c with
  | true =>
    have space := h.isSpace_of_head (by rw [split]; rfl) spacing
    cases h with
    | whitespace _ inside => exact (List.all_eq_true.mpr inside).symm
    | _ => contradiction
  | false =>
    have other : segment.all isSpacing = false := by simp [split, spacing]
    cases h with
    | whitespace _ inside =>
      rw [List.all_eq_true.mpr inside] at other
      contradiction
    | _ => exact other.symm

/-! ## Chains of segments -/

/-- Each piece is read from its segment, with the segments of the later ones and then `rest` after
it. -/
inductive Chained (rest : Text) : List Piece → Prop
  | nil : Chained rest []
  | cons {piece : Piece} {pieces : List Piece} :
      piece.token.Reads piece.segment (Piece.textOf pieces ++ rest) →
      Chained rest pieces → Chained rest (piece :: pieces)

theorem Piece.textOf_cons (p : Piece) (ps : List Piece) :
    Piece.textOf (p :: ps) = p.segment ++ Piece.textOf ps := rfl

theorem Piece.textOf_append (ps qs : List Piece) :
    Piece.textOf (ps ++ qs) = Piece.textOf ps ++ Piece.textOf qs := by
  simp [Piece.textOf]

theorem Chained.append {ps qs : List Piece} {rest : Text}
    (first : Chained (Piece.textOf qs ++ rest) ps) (second : Chained rest qs) :
    Chained rest (ps ++ qs) := by
  induction first with
  | nil => exact second
  | @cons piece pieces reads _ ih =>
    refine .cons ?_ ih
    show piece.token.Reads piece.segment (Piece.textOf (pieces ++ qs) ++ rest)
    rwa [Piece.textOf_append, List.append_assoc]

/-- A text is cut after a segment that is read. -/
theorem cut_of_reads {token : Token} {segment rest : Text} (h : token.Reads segment rest) :
    cut (segment ++ rest) = (cut rest).cons ⟨token, segment⟩ := by
  obtain ⟨c, s, whole⟩ := List.exists_cons_of_ne_nil h.nonempty
  have read : firstToken c (s ++ rest) = .ok (token, segment.length) :=
    (firstToken_eq_ok_iff (by simp [whole])).mpr h
  rw [whole, List.cons_append, cut_cons, read]
  simp [whole]

/-- A chain is the way in which its text is cut. -/
theorem cut_of_chained {pieces : List Piece} {rest : Text} (h : Chained rest pieces) :
    cut (Piece.textOf pieces ++ rest) = ⟨pieces ++ (cut rest).pieces, (cut rest).fault⟩ := by
  induction h with
  | nil => rfl
  | cons reads _ ih =>
    rw [Piece.textOf_cons, List.append_assoc, cut_of_reads reads, ih]
    rfl

/-- A text is cut into a chain, up to the place of the fault. -/
theorem chained_cut (s : Text) :
    ∃ rest, s = Piece.textOf (cut s).pieces ++ rest ∧ Chained rest (cut s).pieces ∧
      ((cut s).fault = none ∧ rest = [] ∨
        ∃ c t fault, (cut s).fault = some fault ∧ rest = c :: t ∧
          firstToken c t = .error fault) := by
  induction s using cut_induction with
  | nil => exact ⟨[], rfl, .nil, Or.inl ⟨rfl, rfl⟩⟩
  | fault c s fault read => exact ⟨c :: s, rfl, .nil, Or.inr ⟨c, s, fault, rfl, rfl, read⟩⟩
  | token c s token segment rest read split nonempty ih =>
    obtain ⟨unread, whole, chain, stop⟩ := ih
    have reads := (firstToken_eq_ok_iff split).mp read
    rw [whole] at reads
    refine ⟨unread, ?_, .cons reads chain, stop⟩
    show c :: s = segment ++ Piece.textOf (cut rest).pieces ++ unread
    rw [split, List.append_assoc, ← whole]

/-- A text without a fault is the chain that it is cut into. -/
theorem chained_of_fault_eq_none {s : Text} (h : (cut s).fault = none) :
    s = Piece.textOf (cut s).pieces ∧ Chained [] (cut s).pieces := by
  obtain ⟨rest, whole, chain, ⟨-, rfl⟩ | ⟨c, t, fault, stuck, -⟩⟩ := chained_cut s
  · exact ⟨by simpa using whole, chain⟩
  · rw [h] at stuck
    contradiction

theorem Chained.reads {pieces : List Piece} {rest : Text} (chain : Chained rest pieces) :
    ∀ piece ∈ pieces, ∃ later, piece.token.Reads piece.segment later := by
  induction chain with
  | nil => simp
  | cons reads _ ih =>
    intro piece member
    rcases List.mem_cons.mp member with rfl | member
    · exact ⟨_, reads⟩
    · exact ih piece member

/-- A lexeme has the token of a piece. -/
theorem mem_place {e : Encoding} {p : Position} {pieces : List Piece} {l : Lexeme}
    (h : l ∈ place e p pieces) : ∃ piece ∈ pieces, l.token = piece.token := by
  have member : l.token ∈ (place e p pieces).map Lexeme.token := List.mem_map_of_mem h
  rw [map_token_place] at member
  obtain ⟨piece, inside, same⟩ := List.mem_map.mp (List.mem_filter.mp member).1
  exact ⟨piece, inside, same.symm⟩

/-- The tokens of lexemes are read from the text that they are cut from. -/
theorem reads_of_mem_place {e : Encoding} {p : Position} {s : Text} {l : Lexeme}
    (h : l ∈ place e p (cut s).pieces) : ∃ segment later, l.token.Reads segment later := by
  obtain ⟨unread, -, chain, -⟩ := chained_cut s
  obtain ⟨piece, inside, token⟩ := mem_place h
  obtain ⟨later, reads⟩ := chain.reads piece inside
  exact ⟨piece.segment, later, token ▸ reads⟩

/-! ## Lines and columns -/

namespace Text

/-- What stands after the last line end. -/
def lastLine (s : Text) : Text := (s.reverse.takeWhile fun c => !isLineBreak c).reverse

/-- The boundary between two texts does not lie inside a run of line ends. -/
def Apart (before rest : Text) : Prop :=
  ∀ c, before.getLast? = some c → isLineBreak c = true → Stops isLineBreak rest

theorem apart_nil (rest : Text) : Apart [] rest := by
  intro c hc
  simp at hc

/-- In particular it does not lie inside a pair of carriage return and line feed. -/
theorem Apart.unparted {before rest : Text} (apart : Apart before rest)
    (last : before.getLast? = some '\r') : rest.head? ≠ some '\n' := by
  intro feed
  have stopped := apart '\r' last rfl '\n' feed
  contradiction

theorem lastLine_append_of_line (s : Text) {t : Text} (line : ∀ c ∈ t, isLineBreak c = false) :
    lastLine (s ++ t) = lastLine s ++ t := by
  have inside : ∀ c ∈ t.reverse, (!isLineBreak c) = true := by
    intro c hc
    simpa using line c (by simpa using hc)
  rw [lastLine, List.reverse_append, List.takeWhile_append_of_pos inside, List.reverse_append,
    List.reverse_reverse, lastLine]

theorem lastLine_append_of_break (s : Text) {t : Text} (nonempty : t ≠ [])
    (breaks : ∀ c ∈ t, isLineBreak c = true) : lastLine (s ++ t) = [] := by
  obtain ⟨c, r, reversed⟩ := List.exists_cons_of_ne_nil (List.reverse_ne_nil_iff.mpr nonempty)
  have isBreak : isLineBreak c = true := breaks c (by
    rw [← List.mem_reverse, reversed]
    exact List.mem_cons_self)
  rw [lastLine, List.reverse_append, reversed, List.cons_append, List.takeWhile_cons_of_neg]
  · rfl
  · simp [isBreak]

theorem lineBreaks_eq_zero {s : Text} (line : ∀ c ∈ s, isLineBreak c = false) :
    lineBreaks s = 0 := by
  induction s with
  | nil => rfl
  | cons c s ih =>
    have plain := line c List.mem_cons_self
    simp only [isLineBreak, Bool.or_eq_false_iff, decide_eq_false_iff_not] at plain
    rw [lineBreaks, ih fun d hd => line d (List.mem_cons_of_mem c hd)]
    simp [plain]

/-- Line ends add up where no pair of them is parted. -/
theorem lineBreaks_append {s t : Text}
    (apart : s.getLast? = some '\r' → t.head? ≠ some '\n') :
    lineBreaks (s ++ t) = lineBreaks s + lineBreaks t := by
  induction s with
  | nil => simp [lineBreaks]
  | cons c s ih =>
    cases s with
    | nil =>
      show _ + lineBreaks t = _ + 0 + lineBreaks t
      by_cases feed : c = '\n'
      · simp [feed]
      · by_cases ret : c = '\r'
        · subst ret
          simp [apart rfl]
        · simp [feed, ret]
    | cons d s =>
      have later := ih (by simpa [List.getLast?_cons_cons] using apart)
      show _ + lineBreaks (d :: s ++ t) = _ + lineBreaks (d :: s) + lineBreaks t
      rw [later, Nat.add_assoc]
      rfl

end Text

/-- The place after a text that begins at the start. -/
def Position.after (e : Encoding) (before : Text) : Position :=
  ⟨1 + before.lineBreaks, 1 + e.width before.lastLine⟩

/-- A class that has neither line feed nor carriage return in it has no line end in it. -/
theorem isLineBreak_of_class (accepts : Char → Bool) (feed : accepts '\n' = false)
    (ret : accepts '\r' = false) (c : Char) (accepted : accepts c = true) :
    isLineBreak c = false := by
  cases isBreak : isLineBreak c with
  | false => rfl
  | true =>
    simp only [isLineBreak, Bool.or_eq_true, decide_eq_true_eq] at isBreak
    rcases isBreak with rfl | rfl
    · rw [feed] at accepted
      contradiction
    · rw [ret] at accepted
      contradiction

theorem isLineBreak_of_keyword {k : ReservedWord} {segment : Text}
    (same : segment.upper = k.spelling) : ∀ c ∈ segment, isLineBreak c = false := by
  intro c hc
  cases isBreak : isLineBreak c with
  | false => rfl
  | true =>
    have member : c.toUpper ∈ k.spelling := same ▸ List.mem_map_of_mem hc
    have plain := Keyword.mem_spelling k _ member
    simp only [isLineBreak, Bool.or_eq_true, decide_eq_true_eq] at isBreak
    rcases isBreak with rfl | rfl <;> exact absurd plain (by decide)

theorem isLineBreak_of_quotable {body : Text} (quotable : Quotable body) :
    ∀ c ∈ quote body, isLineBreak c = false := by
  intro c hc
  rw [quote_eq, escape] at hc
  simp only [List.mem_cons, List.mem_append, List.mem_flatMap, List.not_mem_nil, or_false] at hc
  rcases hc with rfl | ⟨d, member, hc⟩ | rfl
  · rfl
  · by_cases isQuote : d = '"'
    · rw [if_pos isQuote] at hc
      simp only [List.mem_cons, List.not_mem_nil, or_false] at hc
      rcases hc with rfl | rfl <;> rfl
    · rw [if_neg isQuote, List.mem_singleton] at hc
      exact hc ▸ quotable.line d member
  · rfl

/-- Only an end of line contains line ends. -/
theorem Token.Reads.line {token : Token} {segment rest : Text} (h : token.Reads segment rest)
    (other : token ≠ .endOfLine) : ∀ c ∈ segment, isLineBreak c = false := by
  cases h with
  | keyword same longest => exact isLineBreak_of_keyword same
  | comment remark line stop => exact line
  | string quotable => exact isLineBreak_of_quotable quotable
  | @number whole fraction rest wholeDigits fractionDigits =>
    intro c hc
    have digit := isLineBreak_of_class Char.isDigit rfl rfl
    rw [numeral, List.mem_append] at hc
    rcases hc with hc | hc
    · exact digit c (wholeDigits c hc)
    · split at hc
      · simp at hc
      · rcases List.mem_cons.mp hc with rfl | hc
        · rfl
        · exact digit c (fractionDigits c hc)
  | @identifier letters sigil rest nonempty alpha stop =>
    intro c hc
    rcases List.mem_append.mp hc with hc | hc
    · exact isLineBreak_of_class Char.isAlpha rfl rfl c (alpha c hc)
    · rcases stop with ⟨rfl, -⟩ | ⟨d, isSigil, rfl⟩
      · simp at hc
      · rw [List.mem_singleton] at hc
        exact hc ▸ isLineBreak_of_class CommodoreBasic.isSigil rfl rfl d isSigil
  | trailing mark =>
    intro c hc
    exact isLineBreak_of_class isTrailingMark rfl rfl c (List.mem_singleton.mp hc ▸ mark)
  | colon =>
    intro c hc
    exact List.mem_singleton.mp hc ▸ rfl
  | punctuation mark =>
    intro c hc
    exact isLineBreak_of_class isPunctuation rfl rfl c (List.mem_singleton.mp hc ▸ mark)
  | whitespace nonempty spacing =>
    intro c hc
    exact isLineBreak_of_class isSpacing rfl rfl c (spacing c hc)
  | endOfLine => exact absurd rfl other

/-- After a segment no run of line ends is cut in two. -/
theorem Token.Reads.apart {token : Token} {segment rest : Text} (h : token.Reads segment rest)
    (before : Text) : Text.Apart (before ++ segment) rest := by
  intro c last isBreak
  have member : c ∈ segment := by
    rw [List.getLast?_append, List.getLast?_eq_some_getLast h.nonempty, Option.some_or] at last
    exact Option.some.inj last ▸ List.getLast_mem h.nonempty
  by_cases ends : token = .endOfLine
  · subst ends
    cases h with
    | endOfLine _ _ stop => exact stop
  · rw [h.line ends c member] at isBreak
    contradiction

/-- The lexer's count of lines and columns is that of the text before it. -/
theorem next_after {piece : Piece} {before rest : Text} (e : Encoding)
    (reads : piece.token.Reads piece.segment rest)
    (apart : Text.Apart before (piece.segment ++ rest)) :
    piece.next e (.after e before) = .after e (before ++ piece.segment) := by
  by_cases ends : piece.token = .endOfLine
  · rw [ends] at reads
    cases reads with
    | endOfLine nonempty breaks stop =>
      have unparted : before.getLast? = some '\r' → piece.segment.head? ≠ some '\n' := by
        intro last first
        exact apart.unparted last (by rw [List.head?_append, first]; rfl)
      rw [Piece.next, if_pos ends, Position.after, Position.after,
        Text.lastLine_append_of_break _ nonempty breaks, Text.lineBreaks_append unparted,
        Nat.add_assoc]
      rfl
  · have line := reads.line ends
    have unparted : before.getLast? = some '\r' → piece.segment.head? ≠ some '\n' := by
      intro _ first
      have feed := line '\n' (List.mem_of_head? first)
      contradiction
    rw [Piece.next, if_neg ends, Position.after, Position.after,
      Text.lastLine_append_of_line _ line, Text.lineBreaks_append unparted,
      Text.lineBreaks_eq_zero line, Encoding.width_append, Nat.add_assoc]
    rfl

/-- The place after a chain of segments is that of the text up to there. -/
theorem endOf_after (e : Encoding) {pieces : List Piece} {before rest : Text}
    (chain : Chained rest pieces) (apart : Text.Apart before (Piece.textOf pieces ++ rest)) :
    endOf e (.after e before) pieces = .after e (before ++ Piece.textOf pieces) := by
  induction chain generalizing before with
  | nil => simp [endOf, Piece.textOf]
  | @cons piece pieces reads _ ih =>
    rw [Piece.textOf_cons, List.append_assoc] at apart
    show endOf e (piece.next e (.after e before)) pieces = _
    rw [next_after e reads apart, ih (reads.apart before), Piece.textOf_cons, List.append_assoc]

/-- The pieces of a text end at the place after what they were read from. -/
theorem endOf_cut (e : Encoding) (s : Text) :
    endOf e .start (cut s).pieces = .after e (Piece.textOf (cut s).pieces) := by
  obtain ⟨rest, -, chain, -⟩ := chained_cut s
  exact endOf_after e chain (Text.apart_nil _)

/-! ## The lexemes of a text -/

/-- The token says what the segment says, which stands between `before` and `rest`. A keyword is
written in upper case, and an end of line, which is a run of line ends as long as it goes, as one
line feed. All other tokens are written as they stand there. -/
def Token.Shows (before segment rest : Text) : Token → Prop
  | .keyword k => k.spelling ∈ Keyword.table ∧ Token.spelling (.keyword k) = segment.upper
  | .endOfLine =>
    Token.spelling .endOfLine = ['\n'] ∧ (∀ c ∈ segment, isLineBreak c = true) ∧
      (∀ c, before.getLast? = some c → isLineBreak c = false) ∧ Text.Stops isLineBreak rest
  | .whitespace _ | .endOfInput => False
  | token => token.spelling = segment

/-- The lexemes account for a text that has `before` before it: blanks are dropped, any other
segment is shown by one lexeme at its place, and the end of input comes last. -/
inductive Lexed (e : Encoding) : Text → Text → List Lexeme → Prop
  | done {before : Text} : Lexed e before [] [⟨.endOfInput, .after e before, 0⟩]
  | blank {before segment rest : Text} {lexemes : List Lexeme} (nonempty : segment ≠ [])
      (spacing : ∀ c ∈ segment, isSpacing c = true)
      (later : Lexed e (before ++ segment) rest lexemes) : Lexed e before (segment ++ rest) lexemes
  | lexeme {before segment rest : Text} {token : Token} {lexemes : List Lexeme}
      (nonempty : segment ≠ []) (shows : token.Shows before segment rest)
      (later : Lexed e (before ++ segment) rest lexemes) :
      Lexed e before (segment ++ rest)
        (⟨token, .after e before, e.width segment⟩ :: lexemes)

theorem Token.Reads.shows {token : Token} {before segment rest : Text}
    (h : token.Reads segment rest) (apart : Text.Apart before (segment ++ rest))
    (kept : token.isSpace = false) : token.Shows before segment rest := by
  cases h with
  | @keyword k _ _ same => exact ⟨k.mem_table, same.symm⟩
  | endOfLine nonempty breaks stop =>
    refine ⟨rfl, breaks, ?_, stop⟩
    intro c last
    cases isBreak : isLineBreak c with
    | false => rfl
    | true =>
      -- a run of line ends before this one would have taken it too
      obtain ⟨d, t, rfl⟩ := List.exists_cons_of_ne_nil nonempty
      have stopped := apart c last isBreak d rfl
      rw [breaks d List.mem_cons_self] at stopped
      contradiction
  | whitespace => exact absurd kept (by simp [Token.isSpace])
  | comment => rfl
  | string => rfl
  | number => rfl
  | identifier => rfl
  | trailing => rfl
  | colon => rfl
  | punctuation => rfl

theorem lexed_of_chained (e : Encoding) {pieces : List Piece} {before : Text}
    (chain : Chained [] pieces) (apart : Text.Apart before (Piece.textOf pieces)) :
    Lexed e before (Piece.textOf pieces)
      (place e (.after e before) pieces ++
        [⟨.endOfInput, .after e (before ++ Piece.textOf pieces), 0⟩]) := by
  induction chain generalizing before with
  | nil =>
    show Lexed e before [] [⟨.endOfInput, .after e (before ++ []), 0⟩]
    rw [List.append_nil]
    exact .done
  | @cons piece pieces reads _ ih =>
    rw [List.append_nil] at reads
    rw [Piece.textOf_cons] at apart ⊢
    have later := ih (reads.apart before)
    rw [← List.append_assoc]
    simp only [place]
    rw [next_after e reads apart]
    split
    · next space =>
      refine .blank reads.nonempty ?_ later
      intro c hc
      cases token : piece.token <;> rw [token] at space reads <;>
        simp only [Token.isSpace, Bool.false_eq_true] at space
      cases reads with
      | whitespace _ spacing => exact spacing c hc
    · next kept =>
      exact .lexeme reads.nonempty (reads.shows apart (by simpa using kept)) later

/-- Lexing loses nothing and misplaces nothing. -/
theorem lexed_of_lex {e : Encoding} {s : Text} {lexemes : List Lexeme}
    (h : lex e s = .ok lexemes) : Lexed e [] s lexemes := by
  obtain ⟨clean, rfl⟩ := lex_eq_ok_iff.mp h
  obtain ⟨whole, chain⟩ := chained_of_fault_eq_none clean
  have stop : endOf e .start (cut s).pieces = .after e (Piece.textOf (cut s).pieces) :=
    endOf_after e chain (Text.apart_nil _)
  have lexed := lexed_of_chained e chain (Text.apart_nil _)
  rwa [List.nil_append, ← stop, ← whole] at lexed

/-- A text with an escaped quote, characters of two widths and three kinds of line ends. -/
theorem lexed_mixed_text :
    ∃ lexemes, lex .utf16 "1 print\"\\\"ü𝄞\";\r\n\r 2\tRem".toList = .ok lexemes ∧
      Lexed .utf16 [] "1 print\"\\\"ü𝄞\";\r\n\r 2\tRem".toList lexemes := by
  have read : lex .utf16 "1 print\"\\\"ü𝄞\";\r\n\r 2\tRem".toList = .ok
      [⟨.number ['1'], ⟨1, 1⟩, 1⟩, ⟨.keyword ⟨"PRINT".toList⟩, ⟨1, 3⟩, 5⟩,
        ⟨.string "\"ü𝄞".toList, ⟨1, 8⟩, 7⟩, ⟨.trailing ';', ⟨1, 15⟩, 1⟩, ⟨.endOfLine, ⟨1, 16⟩, 3⟩,
        ⟨.number ['2'], ⟨3, 2⟩, 1⟩, ⟨.comment "Rem".toList, ⟨3, 4⟩, 3⟩,
        ⟨.endOfInput, ⟨3, 7⟩, 0⟩] := by
    rfl
  exact ⟨_, read, lexed_of_lex read⟩

end CommodoreBasic
