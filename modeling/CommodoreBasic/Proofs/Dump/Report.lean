import CommodoreBasic.Proofs.Dump.Underline
import CommodoreBasic.Proofs.Grammar.Viability
import CommodoreBasic.Proofs.Lexical.Placement
import CommodoreBasic.Proofs.Program.LineByLine

/-!
# Error reports point at what is wrong

The line that a report quotes is the one on which the error stands, and what is underlined in it is
the character with which the trouble begins; where a line or the input ends too early, it is a blank
after the line.

`SourceError.About` says what an error is about in terms of the text and its lexemes. `Shown` ties
the two together for one place of a text, and the main statement is
`Program.underlines_error`.
-/

namespace CommodoreBasic

/-! ## What an error is about -/

/-- What an error in a text is about: the character that begins it, if there is one. A fault is
about the character at which no token can be read; any other error is about a lexeme, which begins
with the first character of its segment unless a line or the input ends there. -/
inductive SourceError.About (e : Encoding) (s : Text) : SourceError → Option Char → Prop
  | unexpected {before rest : Text} {c : Char} (split : s = before ++ c :: rest)
      (stuck : firstToken c rest = .error (.unexpectedCharacter c)) :
      About e s (.lexical ⟨.after e before, .unexpectedCharacter c⟩) (some c)
  | unterminated {before rest : Text} (split : s = before ++ '"' :: rest)
      (stuck : firstToken '"' rest = .error .unterminatedString) :
      About e s (.lexical ⟨.after e before, .unterminatedString⟩) (some '"')
  | token {before segment rest : Text} {lexemes : List Lexeme} {l : Lexeme} {c : Char}
      {expected : Expectation} (lexed : lex e s = .ok lexemes) (member : l ∈ lexemes)
      (split : s = before ++ (segment ++ rest)) (position : l.position = .after e before)
      (reads : l.token.Reads segment rest) (first : segment.head? = some c)
      (inside : l.token ≠ .endOfLine) :
      About e s (.grammatical ⟨l.position, expected, l.token⟩) (some c)
  | ended {lexemes : List Lexeme} {l : Lexeme} {expected : Expectation}
      (lexed : lex e s = .ok lexemes) (member : l ∈ lexemes)
      (ends : l.token = .endOfLine ∨ l.token = .endOfInput) :
      About e s (.grammatical ⟨l.position, expected, l.token⟩) none

/-! ## Places of a text -/

/-- At a place of a text a character is shown underlined within its line, or, if there is none, a
blank after the line. -/
inductive Shown (e : Encoding) (s : Text) (p : Position) : Option Char → Prop
  | character {left right : Text} {c : Char}
      (line : s.sourceLine p.line = some (left ++ c :: right))
      (column : e.width left + 1 = p.column) : Shown e s p (some c)
  | blank {line : Text} (quoted : s.sourceLine p.line = some line)
      (column : e.width line + 1 = p.column) : Shown e s p none

/-- The place of a character that is no line end. -/
theorem shown_character (e : Encoding) {before rest : Text} {c : Char}
    (plain : isLineBreak c = false) :
    Shown e (before ++ c :: rest) (.after e before) (some c) := by
  have unparted : before.getLast? = some '\r' → (c :: rest).head? ≠ some '\n' := by
    intro _ feed
    obtain rfl : c = '\n' := by simpa using feed
    contradiction
  have quoted := Text.sourceLine_append unparted (by simp)
  rw [List.takeWhile_cons_of_pos (by simp [plain]), Nat.add_comm] at quoted
  exact .character quoted (Nat.add_comm ..)

/-- The place of a run of line ends. -/
theorem shown_endOfLine (e : Encoding) {before segment rest : Text} (nonempty : segment ≠ [])
    (breaks : ∀ c ∈ segment, isLineBreak c = true)
    (apart : Text.Apart before (segment ++ rest)) :
    Shown e (before ++ (segment ++ rest)) (.after e before) none := by
  obtain ⟨c, t, rfl⟩ := List.exists_cons_of_ne_nil nonempty
  have isBreak := breaks c List.mem_cons_self
  have quoted := Text.sourceLine_append apart.unparted (by simp)
  rw [List.cons_append, List.takeWhile_cons_of_neg (by simp [isBreak]), List.append_nil,
    Nat.add_comm] at quoted
  exact .blank quoted (Nat.add_comm ..)

/-- The end of a text that does not end with a line end. -/
theorem shown_endOfInput (e : Encoding) {s : Text}
    (inside : ∀ c, s.getLast? = some c → isLineBreak c = false) :
    Shown e s (.after e s) none := by
  have other : s.getLast? ≠ some '\r' := by
    intro last
    have plain := inside '\r' last
    contradiction
  have quoted : Text.sourceLine (s ++ []) (s.lineBreaks + 1) = _ :=
    Text.sourceLine_append (by simp) fun _ => other
  rw [List.append_nil, List.takeWhile_nil, List.append_nil, Nat.add_comm] at quoted
  exact .blank quoted (Nat.add_comm ..)

/-! ## Where the errors of a text stand -/

/-- A fault is shown at the character at which no token can be read. -/
theorem exists_shown_of_fault (e : Encoding) {s : Text} {error : LexicalError}
    (h : lex e s = .error error) :
    ∃ c, SourceError.About e s (.lexical error) (some c) ∧ Shown e s error.position (some c) := by
  obtain ⟨unread, whole, chain, ⟨clean, -⟩ | ⟨c, t, fault, stuck, rfl, read⟩⟩ := chained_cut s
  · simp only [lex, clean] at h
    contradiction
  · simp only [lex, stuck, endOf_cut] at h
    cases h
    refine ⟨c, ?_, ?_⟩
    · have cause := fault_of_firstToken read
      by_cases isQuote : c = '"'
      · rw [if_pos isQuote] at cause
        subst isQuote cause
        exact .unterminated whole read
      · rw [if_neg isQuote] at cause
        subst cause
        exact .unexpected whole read
    · have shown := @shown_character e (Piece.textOf (cut s).pieces) t c (isLineBreak_of_fault read)
      rwa [← whole] at shown

/-- If a text ends with a line end, so do its lexemes. -/
theorem exists_endOfLine_of_chained (e : Encoding) {pieces : List Piece} (chain : Chained [] pieces)
    {c : Char} (last : (Piece.textOf pieces).getLast? = some c) (isBreak : isLineBreak c = true)
    (p : Position) : ∃ l, (place e p pieces).getLast? = some l ∧ l.token = .endOfLine := by
  rcases List.eq_nil_or_concat pieces with rfl | ⟨front, final, rfl⟩
  · contradiction
  · rw [List.concat_eq_append] at *
    obtain ⟨later, reads⟩ := chain.reads final (by simp)
    have member : c ∈ final.segment := by
      rw [Piece.textOf_append, List.getLast?_append, Piece.textOf_cons,
        show Piece.textOf [] = [] from rfl, List.append_nil,
        List.getLast?_eq_some_getLast reads.nonempty] at last
      exact Option.some.inj last ▸ List.getLast_mem reads.nonempty
    have token : final.token = .endOfLine := by
      by_cases ends : final.token = .endOfLine
      · exact ends
      · rw [reads.line ends c member] at isBreak
        contradiction
    refine ⟨⟨final.token, endOf e p front, e.width final.segment⟩, ?_, token⟩
    rw [place_append]
    simp [place, token, Token.isSpace]

/-- The parser refuses the end of input only if the text goes that far on its last line. -/
theorem isLineBreak_of_refused {e : Encoding} {pieces : List Piece} (chain : Chained [] pieces)
    {p : Position} {lines : List Line} {next : Parse.State} {z : Lexeme} {g : GrammarError}
    (passes : Parse.Passes .between (place e p pieces) lines next) (eof : z.token = .endOfInput)
    (refuses : Parse.Refuses next z g) :
    ∀ c, (Piece.textOf pieces).getLast? = some c → isLineBreak c = false := by
  intro c last
  cases isBreak : isLineBreak c with
  | false => rfl
  | true =>
    obtain ⟨l, final, isEnd⟩ := exists_endOfLine_of_chained e chain last isBreak p
    obtain rfl := passes.eq_between final isEnd
    have fails := refuses.fails .start []
    rw [Parse.run_cons_of_endOfInput eof] at fails
    contradiction

/-- An error of the grammar is shown at its lexeme. -/
theorem exists_shown_of_grammar (e : Encoding) {s : Text} {ls : List Lexeme} {g : GrammarError}
    (lexed : lex e s = .ok ls) (h : parse ls = .error g) :
    ∃ first, SourceError.About e s (.grammatical g) first ∧ Shown e s g.position first := by
  obtain ⟨clean, rfl⟩ := lex_eq_ok_iff.mp lexed
  obtain ⟨whole, chain⟩ := chained_of_fault_eq_none clean
  have eof : ∃ z ∈ place e .start (cut s).pieces ++
      [⟨.endOfInput, endOf e .start (cut s).pieces, 0⟩], z.token = .endOfInput :=
    ⟨_, List.mem_append_right _ (List.mem_singleton.mpr rfl), rfl⟩
  obtain ⟨before, l, after, lines, next, split, passes, refuses⟩ :=
    Parse.exists_refused_of_parse eof h
  obtain ⟨position, expected, found⟩ := g
  obtain rfl : position = l.position := refuses.position
  obtain rfl : found = l.token := refuses.found
  have member : l ∈ place e .start (cut s).pieces ++
      [⟨.endOfInput, endOf e .start (cut s).pieces, 0⟩] := split ▸ by simp
  rcases List.mem_append.mp member with placed | final
  · -- the lexeme has a segment, which is a run of line ends or begins with a plain character
    obtain ⟨left, segment, right, parts, place, -, reads, apart⟩ :=
      exists_segment_of_mem_place e chain (Text.apart_nil _) placed
    rw [← whole] at parts
    rw [List.nil_append] at place apart
    rw [List.append_nil] at reads apart
    by_cases isEnd : l.token = .endOfLine
    · refine ⟨none, .ended lexed member (Or.inl isEnd), ?_⟩
      rw [isEnd] at reads
      cases reads with
      | endOfLine nonempty breaks stop =>
        rw [place, parts]
        exact shown_endOfLine e nonempty breaks apart
    · obtain ⟨c, t, rfl⟩ := List.exists_cons_of_ne_nil reads.nonempty
      refine ⟨some c, .token lexed member parts place reads rfl isEnd, ?_⟩
      rw [place, parts]
      exact shown_character e (reads.line isEnd c List.mem_cons_self)
  · -- all of the text has been accepted
    obtain rfl := List.mem_singleton.mp final
    refine ⟨none, .ended lexed member (Or.inr rfl), ?_⟩
    have accepted : before = place e .start (cut s).pieces := by
      have plain : ∀ m ∈ place e .start (cut s).pieces, m.token ≠ .endOfInput :=
        fun m hm => ne_endOfInput_of_mem_place hm
      let eof : Lexeme := ⟨.endOfInput, endOf e .start (cut s).pieces, 0⟩
      have isEof : eof.token = .endOfInput := rfl
      have first := Parse.beforeEnd_append_cons passes.ne_endOfInput isEof after
      rw [← split, Parse.beforeEnd_append_cons plain isEof] at first
      exact first.symm
    rw [accepted] at passes
    have inside := isLineBreak_of_refused chain passes rfl refuses
    have shown := shown_endOfInput e inside
    rwa [← endOf_cut, ← whole] at shown

theorem exists_shown_of_readLines (e : Encoding) {s : Text} {error : SourceError}
    (h : readLines e s = .error error) :
    ∃ first, error.About e s first ∧ Shown e s error.position first := by
  rcases readLines_eq_error_iff.mp h with ⟨fault, lexed, rfl⟩ | ⟨ls, g, lexed, failed, rfl⟩
  · obtain ⟨c, about, shown⟩ := exists_shown_of_fault e lexed
    exact ⟨some c, about, shown⟩
  · exact exists_shown_of_grammar e lexed failed

/-- The error of a text stands on a line of the text. What is underlined there is the character that
begins what the error is about, or a blank after the line if the line or the input ends there. -/
theorem Program.underlines_error {e : Encoding} {source s : Text} {error : SourceError}
    (h : Program.parse e source s = .error error) :
    ∃ line, s.sourceLine error.position.line = some line ∧
      ((∃ left c right, error.About e s (some c) ∧ line = left ++ c :: right ∧
          e.width left + 1 = error.position.column ∧
          underlineColumn e error.position.column line =
            left ++ "\x1b[4m".toList ++ [c] ++ "\x1b[0m".toList ++ right) ∨
        (error.About e s none ∧ e.width line + 1 = error.position.column ∧
          underlineColumn e error.position.column line = line ++ "\x1b[4m \x1b[0m".toList)) := by
  obtain ⟨first, about, shown⟩ := exists_shown_of_readLines e (Program.parse_eq_error_iff.mp h)
  cases shown with
  | @character left right c quoted column =>
    refine ⟨_, quoted, Or.inl ⟨left, c, right, about, rfl, column, ?_⟩⟩
    rw [← column, Nat.add_comm]
    exact underlineColumn_at e left c right
  | @blank line quoted column =>
    refine ⟨line, quoted, Or.inr ⟨about, column, ?_⟩⟩
    rw [← column, Nat.add_comm]
    exact underlineColumn_after e line

/-- A parenthesis after a character of two units, on the second of three lines. -/
theorem underlines_error_parenthesis :
    ∃ error, Program.parse .utf16 [] "1 end\r2 print\"𝄞\");\r\n3 end".toList = .error error ∧
      ∃ line, Text.sourceLine "1 end\r2 print\"𝄞\");\r\n3 end".toList error.position.line =
          some line ∧
        ((∃ left c right,
            error.About .utf16 "1 end\r2 print\"𝄞\");\r\n3 end".toList (some c) ∧
            line = left ++ c :: right ∧ Encoding.utf16.width left + 1 = error.position.column ∧
            underlineColumn .utf16 error.position.column line =
              left ++ "\x1b[4m".toList ++ [c] ++ "\x1b[0m".toList ++ right) ∨
          (error.About .utf16 "1 end\r2 print\"𝄞\");\r\n3 end".toList none ∧
            Encoding.utf16.width line + 1 = error.position.column ∧
            underlineColumn .utf16 error.position.column line =
              line ++ "\x1b[4m \x1b[0m".toList)) := by
  have failed : Program.parse .utf16 [] "1 end\r2 print\"𝄞\");\r\n3 end".toList =
      .error (.grammatical ⟨⟨2, 12⟩, .colonOrEndOfLine, .punctuation ')'⟩) :=
    Program.parse_eq_error_iff.mpr (by decide +kernel)
  exact ⟨_, failed, Program.underlines_error failed⟩

end CommodoreBasic
