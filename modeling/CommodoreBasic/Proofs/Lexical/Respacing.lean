import CommodoreBasic.Proofs.Lexical.Locality

/-!
# Re-spacing a text

The tokens of a text can be written down again with other spaces between them. A token is spelled as
it was read, but for the case of a keyword and the length of a run of line ends, and no rule reads
on over a space, so it is read again from its spelling (`Token.Reads.respelled`). A remark is the
exception, for it would take the spaces; it is followed by the end of its line already.

`LexesTo` says what a text is cut into before a given rest. The main statement is `lex_spaced`: the
texts that write the tokens of a text with spaces and tabs between them (`Spaced`) have these
tokens.
-/

namespace CommodoreBasic

/-! ## Texts and their tokens -/

/-- The text is cut into the tokens, spaces left out, if it is followed by `rest`. -/
def LexesTo (s : Text) (ts : List Token) (rest : Text) : Prop :=
  ∃ pieces, Piece.textOf pieces = s ∧
    (pieces.map Piece.token).filter (fun token => !token.isSpace) = ts ∧ Chained rest pieces

namespace LexesTo

theorem nil (rest : Text) : LexesTo [] [] rest := ⟨[], rfl, rfl, .nil⟩

theorem append {s t : Text} {ts us : List Token} {rest : Text} (first : LexesTo s ts (t ++ rest))
    (second : LexesTo t us rest) : LexesTo (s ++ t) (ts ++ us) rest := by
  obtain ⟨ps, rfl, rfl, chain⟩ := first
  obtain ⟨qs, rfl, rfl, later⟩ := second
  refine ⟨ps ++ qs, Piece.textOf_append ps qs, ?_, chain.append later⟩
  rw [List.map_append, List.filter_append]

theorem token {s rest : Text} {t : Token} (reads : t.Reads s rest) (kept : t.isSpace = false) :
    LexesTo s [t] rest := by
  refine ⟨[⟨t, s⟩], ?_, ?_, .cons reads .nil⟩
  · simp [Piece.textOf]
  · simp [kept]

theorem cons {s t rest : Text} {u : Token} {ts : List Token} (reads : u.Reads s (t ++ rest))
    (kept : u.isSpace = false) (later : LexesTo t ts rest) : LexesTo (s ++ t) (u :: ts) rest :=
  (token reads kept).append later

/-- Spaces and tabs are passed over if no more of them follow. -/
theorem gap {s t rest : Text} {ts : List Token} (spacing : ∀ c ∈ s, isSpacing c = true)
    (stop : Text.Stops isSpacing (t ++ rest)) (later : LexesTo t ts rest) :
    LexesTo (s ++ t) ts rest := by
  by_cases empty : s = []
  · rwa [empty, List.nil_append]
  · have reads : Token.Reads (.whitespace s.length) s (t ++ rest) :=
      .whitespace empty spacing stop
    have passed : LexesTo s [] (t ++ rest) :=
      ⟨[⟨.whitespace s.length, s⟩], by simp [Piece.textOf], rfl, .cons reads .nil⟩
    exact passed.append later

/-- So is a blank. -/
theorem blank {t rest : Text} {ts : List Token} (stop : Text.Stops isSpacing (t ++ rest))
    (later : LexesTo t ts rest) : LexesTo (' ' :: t) ts rest :=
  gap (s := [' ']) (by simp [isSpacing]) stop later

/-- Such a text is lexed as a whole, in any encoding. -/
theorem lex {s : Text} {ts : List Token} (h : LexesTo s ts []) (e : Encoding) :
    ∃ ls stop, lex e s = .ok (ls ++ [⟨.endOfInput, stop, 0⟩]) ∧ ls.map Lexeme.token = ts := by
  obtain ⟨pieces, rfl, rfl, chain⟩ := h
  have cutting := cut_of_chained chain
  rw [List.append_nil, cut_nil, List.append_nil] at cutting
  refine ⟨place e .start pieces, endOf e .start pieces, ?_, map_token_place e .start pieces⟩
  rw [lex_eq_ok_iff, cutting]
  exact ⟨rfl, rfl⟩

end LexesTo

/-- A kept token does not begin with a space. -/
theorem Token.Reads.stops_isSpacing {token : Token} {segment rest : Text}
    (h : token.Reads segment rest) (kept : token.isSpace = false) (later : Text) :
    Text.Stops isSpacing (segment ++ later) := by
  obtain ⟨c, t, rfl⟩ := List.exists_cons_of_ne_nil h.nonempty
  cases spacing : isSpacing c with
  | false => exact Text.stops_cons spacing
  | true =>
    rw [h.isSpace_of_head rfl spacing] at kept
    contradiction

/-! ## Tokens before a space -/

/-- A character that no word goes on with: not a letter or a digit, nor a mark of a keyword or a
name, nor the point of a number. -/
def isWordEnd (c : Char) : Bool := Keyword.isOutside c && !c.isDigit && !isSigil c && c ≠ '.'

namespace Text

/-- A place where a word ends, or the text. -/
abbrev EndsWord (rest : Text) : Prop := Stops (fun c => !isWordEnd c) rest

/-- Classes of characters that words consist of stop where a word ends. -/
theorem EndsWord.stops {rest : Text} (h : EndsWord rest) {accepts : Char → Bool}
    (word : ∀ c, isWordEnd c = true → accepts c = false) : Stops accepts rest :=
  fun c first => word c (by simpa using h c first)

theorem EndsWord.outside {rest : Text} (h : EndsWord rest) :
    ∀ c, rest.head? = some c → Keyword.isOutside c = true := by
  intro c first
  have ends : isWordEnd c = true := by simpa using h c first
  simp only [isWordEnd, Bool.and_eq_true] at ends
  exact ends.1.1.1

theorem EndsWord.digits {rest : Text} (h : EndsWord rest) : Stops Char.isDigit rest := by
  refine h.stops fun c ends => ?_
  simp only [isWordEnd, Bool.and_eq_true, Bool.not_eq_true'] at ends
  exact ends.1.1.2

theorem EndsWord.name {rest : Text} (h : EndsWord rest) :
    Stops (fun c => c.isAlpha || isSigil c) rest := by
  refine h.stops fun c ends => ?_
  simp only [isWordEnd, Keyword.isOutside, Bool.and_eq_true, Bool.not_eq_true'] at ends
  simp [ends]

theorem EndsWord.fractionLength {rest : Text} (h : EndsWord rest) :
    Rule.fractionLength rest = 0 := by
  refine Rule.fractionLength_eq_zero fun point => ?_
  exact absurd (h '.' point) (by decide)

/-- A gap with something in it ends words and runs of line ends. -/
theorem endsWord_gap {gap : Text} (spacing : ∀ c ∈ gap, isSpacing c = true) (some : gap ≠ [])
    (rest : Text) : EndsWord (gap ++ rest) ∧ Stops isLineBreak (gap ++ rest) := by
  obtain ⟨c, t, rfl⟩ := List.exists_cons_of_ne_nil some
  have space := spacing c List.mem_cons_self
  simp only [isSpacing, Bool.or_eq_true, decide_eq_true_eq] at space
  rcases space with rfl | rfl <;> exact ⟨stops_cons (by decide), stops_cons rfl⟩

end Text

/-- A keyword is read from its spelling where a word ends. -/
theorem reads_keyword (k : ReservedWord) {rest : Text} (ends : rest.EndsWord) :
    Token.Reads (.keyword k) k.spelling rest := by
  refine .keyword k.spelling_plain.2 ?_
  intro k' begins
  rw [Keyword.beginsWith_append ends.outside, Text.beginsWith_iff] at begins
  simpa using begins.length_le

/-- A name is read where a word ends, if neither keyword nor remark begins it. -/
theorem reads_name {letters sigil rest : Text} (nonempty : letters ≠ [])
    (alpha : ∀ c ∈ letters, c.isAlpha = true)
    (mark : sigil = [] ∨ ∃ c, isSigil c = true ∧ sigil = [c])
    (noKeyword : ∀ k : ReservedWord, Text.beginsWith k.spelling (letters ++ sigil) = false)
    (noRemark : Text.beginsWith "REM".toList (letters ++ sigil) = false) (ends : rest.EndsWord) :
    Token.Reads (.identifier (letters ++ sigil)) (letters ++ sigil) rest := by
  refine .identifier nonempty alpha ?_ ?_ ?_
  · exact mark.imp_left fun empty => ⟨empty, ends.name⟩
  · intro k
    rw [Keyword.beginsWith_append ends.outside]
    exact noKeyword k
  · rw [Keyword.beginsWith_remark_append ends.outside]
    exact noRemark

/-- The text before which a token ends that is written as it is spelled. -/
def Token.EndsBefore (rest : Text) : Token → Prop
  | comment _ => rest.EndsLine
  | endOfLine => Text.Stops isLineBreak rest
  | whitespace _ => Text.Stops isSpacing rest
  | _ => rest.EndsWord

/-- What has been read once is read from its spelling, wherever it ends. -/
theorem Token.Reads.respelled {token : Token} {segment rest later : Text}
    (h : token.Reads segment rest) (ends : token.EndsBefore later) :
    token.Reads token.spelling later := by
  cases h with
  | keyword => exact reads_keyword _ ends
  | comment remark line => exact .comment remark line ends
  | string quotable => exact .string quotable
  | number whole fraction nonempty =>
    exact .number whole fraction nonempty (Text.EndsWord.digits ends)
      fun _ => Text.EndsWord.fractionLength ends
  | identifier nonempty alpha stop noKeyword noRemark =>
    -- what begins no keyword with more text after it begins none on its own
    exact reads_name nonempty alpha (stop.imp_left And.left)
      (fun k => Text.not_beginsWith_of_append (noKeyword k))
      (Text.not_beginsWith_of_append noRemark) ends
  | trailing mark => exact .trailing mark
  | colon => exact .colon
  | punctuation mark plain => exact .punctuation mark plain fun _ => Text.EndsWord.digits ends
  | whitespace nonempty =>
    have positive : segment.length ≠ 0 := by simpa using nonempty
    have reads : Token.Reads (.whitespace (List.replicate segment.length ' ').length)
        (List.replicate segment.length ' ') later := by
      refine .whitespace (by simpa using nonempty) ?_ ends
      intro c member
      rw [List.eq_of_mem_replicate member]
      rfl
    rwa [List.length_replicate] at reads
  | endOfLine => exact .endOfLine (by simp [spelling]) (by simp [spelling, isLineBreak]) ends

/-! ## Tokens with gaps between them -/

/-- The text writes the tokens in their order with spaces and tabs after them: none after a remark,
and at least one between any other token and the next. -/
inductive Spaced : List Token → Text → Prop
  | nil : Spaced [] []
  | remark {text s : Text} {ts : List Token} (later : Spaced ts s) :
      Spaced (.comment text :: ts) ((Token.comment text).spelling ++ s)
  | token {t : Token} {gap s : Text} {ts : List Token} (other : ∀ text, t ≠ .comment text)
      (spacing : ∀ c ∈ gap, isSpacing c = true) (apart : ts ≠ [] → gap ≠ [])
      (later : Spaced ts s) : Spaced (t :: ts) (t.spelling ++ (gap ++ s))

theorem Spaced.eq_nil {ts : List Token} {s : Text} (h : Spaced ts s) (none : ts = []) : s = [] := by
  cases h with
  | nil => rfl
  | _ => contradiction

/-- The tokens of pieces, spaces left out. -/
def Piece.tokensOf (ps : List Piece) : List Token :=
  (ps.map Piece.token).filter fun token => !token.isSpace

theorem Piece.tokensOf_space {piece : Piece} (space : piece.token.isSpace = true)
    (ps : List Piece) : tokensOf (piece :: ps) = tokensOf ps := by
  simp [tokensOf, space]

theorem Piece.tokensOf_kept {piece : Piece} (kept : piece.token.isSpace = false)
    (ps : List Piece) : tokensOf (piece :: ps) = piece.token :: tokensOf ps := by
  simp [tokensOf, kept]

/-- After the last token on a line comes the end of the line. -/
theorem Chained.head?_tokensOf {pieces : List Piece} {rest : Text} (chain : Chained rest pieces)
    (ends : Text.EndsLine (Piece.textOf pieces)) :
    ∀ t, (Piece.tokensOf pieces).head? = some t → t = .endOfLine := by
  cases chain with
  | nil => simp [Piece.tokensOf]
  | @cons piece pieces reads _ =>
    have isEnd : piece.token = .endOfLine := by
      obtain ⟨c, t, split⟩ := List.exists_cons_of_ne_nil reads.nonempty
      have isBreak : (!isLineBreak c) = false := ends c (by rw [Piece.textOf_cons, split]; rfl)
      by_cases inner : piece.token = .endOfLine
      · exact inner
      · rw [reads.line inner c (by simp [split])] at isBreak
        contradiction
    rw [Piece.tokensOf_kept (by rw [isEnd]; rfl), isEnd]
    rintro t ⟨⟩
    rfl

/-- So it does in a text that writes the tokens. -/
theorem Spaced.endsLine {ts : List Token} {s : Text} (h : Spaced ts s)
    (ends : ∀ t, ts.head? = some t → t = .endOfLine) : s.EndsLine := by
  cases h with
  | nil => exact Text.stops_nil _
  | remark later =>
    have isEnd := ends _ rfl
    contradiction
  | token other spacing apart later =>
    obtain rfl := ends _ rfl
    exact Text.stops_cons rfl

/-- A token that is no remark ends before its gap. -/
theorem Token.endsBefore_gap {t : Token} {gap s : Text} (other : ∀ text, t ≠ .comment text)
    (kept : t.isSpace = false) (spacing : ∀ c ∈ gap, isSpacing c = true)
    (apart : gap = [] → s = []) : t.EndsBefore (gap ++ s) := by
  have ends : Text.EndsWord (gap ++ s) ∧ Text.Stops isLineBreak (gap ++ s) := by
    by_cases empty : gap = []
    · rw [empty, apart empty]
      exact ⟨Text.stops_nil _, Text.stops_nil _⟩
    · exact Text.endsWord_gap spacing empty s
  cases t with
  | comment text => exact absurd rfl (other text)
  | whitespace n => contradiction
  | endOfLine => exact ends.2
  | _ => exact ends.1

/-- A text that writes the tokens of pieces is cut into these tokens. It does not begin with a
space. -/
theorem Chained.lexesTo_spaced {pieces : List Piece} (chain : Chained [] pieces) {s : Text}
    (spaced : Spaced (Piece.tokensOf pieces) s) :
    LexesTo s (Piece.tokensOf pieces) [] ∧ Text.Stops isSpacing s := by
  induction chain generalizing s with
  | nil =>
    cases spaced
    exact ⟨.nil [], Text.stops_nil _⟩
  | @cons piece pieces reads chain ih =>
    cases kept : piece.token.isSpace with
    | true =>
      rw [Piece.tokensOf_space kept] at spaced ⊢
      exact ih spaced
    | false =>
      rw [Piece.tokensOf_kept kept] at spaced ⊢
      generalize token : piece.token = t at spaced reads kept
      cases spaced with
      | @remark text s _ later =>
        obtain ⟨lexes, -⟩ := ih later
        have ends : s.EndsLine := by
          cases reads with
          | comment _ _ stop =>
            rw [List.append_nil] at stop
            exact later.endsLine (chain.head?_tokensOf stop)
        have again : Token.Reads _ _ s := reads.respelled ends
        exact ⟨lexes.cons (by rwa [List.append_nil]) kept, again.stops_isSpacing kept s⟩
      | @token _ gap s _ other spacing apart later =>
        obtain ⟨lexes, stops⟩ := ih later
        have last : gap = [] → s = [] := by
          intro empty
          exact later.eq_nil (Classical.byContradiction fun more => apart more empty)
        have again := reads.respelled (Token.endsBefore_gap other kept spacing last)
        have rest : LexesTo (gap ++ s) (Piece.tokensOf pieces) [] :=
          lexes.gap spacing (by rwa [List.append_nil])
        exact ⟨rest.cons (by rwa [List.append_nil]) kept, again.stops_isSpacing kept _⟩

/-! ## Texts -/

/-- The tokens of a text, written with any spaces and tabs around them, are the tokens of what is
written, in any encoding. -/
theorem lex_spaced {e : Encoding} {s : Text} {ls : List Lexeme} (h : lex e s = .ok ls) :
    ∃ ts, ls.map Lexeme.token = ts ++ [.endOfInput] ∧
      ∀ gap text, (∀ c ∈ gap, isSpacing c = true) → Spaced ts text → ∀ e',
        ∃ ls', lex e' (gap ++ text) = .ok ls' ∧ ls'.map Lexeme.token = ls.map Lexeme.token := by
  obtain ⟨clean, rfl⟩ := lex_eq_ok_iff.mp h
  obtain ⟨-, chain⟩ := chained_of_fault_eq_none clean
  have tokens : (place e .start (cut s).pieces ++
      [Lexeme.mk .endOfInput (endOf e .start (cut s).pieces) 0]).map Lexeme.token =
        Piece.tokensOf (cut s).pieces ++ [.endOfInput] := by
    rw [List.map_append, map_token_place]
    rfl
  refine ⟨Piece.tokensOf (cut s).pieces, tokens, ?_⟩
  intro gap text spacing spaced e'
  obtain ⟨lexes, stops⟩ := chain.lexesTo_spaced spaced
  obtain ⟨ls', stop, lexed, same⟩ := (lexes.gap spacing (by rwa [List.append_nil])).lex e'
  refine ⟨_, lexed, ?_⟩
  rw [tokens, List.map_append, same]
  rfl

/-- Words without spaces between them, a remark, two line ends in one run and a name with a mark,
then the same tokens with spaces and tabs around them, in another encoding. -/
theorem lex_spaced_remark :
    ∃ ls ts, lex .utf8 "10goto20:Rem x\r\n\rab$=.5".toList = .ok ls ∧
      ls.map Lexeme.token = ts ++ [.endOfInput] ∧
      (∀ c ∈ "\t".toList, isSpacing c = true) ∧
      Spaced ts "10 GOTO\t20 : Rem x\n ab$ \t= .5".toList ∧
      ∃ ls', lex .utf16 ("\t".toList ++ "10 GOTO\t20 : Rem x\n ab$ \t= .5".toList) = .ok ls' ∧
        ls'.map Lexeme.token = ls.map Lexeme.token := by
  obtain ⟨ls, lexed, tokens⟩ : ∃ ls, lex .utf8 "10goto20:Rem x\r\n\rab$=.5".toList = .ok ls ∧
      ls.map Lexeme.token = [.number "10".toList, .keyword ⟨"GOTO".toList⟩, .number "20".toList,
        .colon, .comment "Rem x".toList, .endOfLine, .identifier "ab$".toList,
        .keyword ⟨"=".toList⟩, .number ".5".toList] ++ [.endOfInput] := ⟨_, rfl, rfl⟩
  obtain ⟨ts, read, respaced⟩ := lex_spaced lexed
  obtain rfl := List.append_cancel_right (read.symm.trans tokens)
  have tab : ∀ c ∈ "\t".toList, isSpacing c = true := by simp [isSpacing]
  have blank : ∀ c ∈ " ".toList, isSpacing c = true := by simp [isSpacing]
  have both : ∀ c ∈ " \t".toList, isSpacing c = true := by simp [isSpacing]
  have spaced : Spaced _ "10 GOTO\t20 : Rem x\n ab$ \t= .5".toList :=
    @Spaced.token (.number "10".toList) _ _ _ (by simp) blank (by simp) <|
    @Spaced.token (.keyword ⟨"GOTO".toList⟩) _ _ _ (by simp) tab (by simp) <|
    @Spaced.token (.number "20".toList) _ _ _ (by simp) blank (by simp) <|
    @Spaced.token .colon _ _ _ (by simp) blank (by simp) <|
    @Spaced.remark "Rem x".toList _ _ <|
    @Spaced.token .endOfLine _ _ _ (by simp) blank (by simp) <|
    @Spaced.token (.identifier "ab$".toList) _ _ _ (by simp) both (by simp) <|
    @Spaced.token (.keyword ⟨"=".toList⟩) _ _ _ (by simp) blank (by simp) <|
    @Spaced.token (.number ".5".toList) [] _ _ (by simp) (by simp) (by simp) .nil
  exact ⟨ls, _, lexed, tokens, tab, spaced, respaced _ _ tab spaced .utf16⟩

end CommodoreBasic
