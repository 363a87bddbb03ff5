import CommodoreBasic.Proofs.Grammar.Remapping
import CommodoreBasic.Proofs.Lexical.Fault
import CommodoreBasic.Proofs.Lexical.Placement

/-!
# The case of letters does not matter to the lexer

Upper case changes the small letters of ASCII and nothing else. So the classes of characters that
the rules ask about do not tell a text from the same text in upper case (`CaseBlind`), and both are
equally wide. What is read from a segment is then read from the segment in upper case, a remark, a
string or a name with its text in upper case (`Token.Reads.upper`), and where nothing can be read
there is the same fault in both (`firstToken_upper`).

The main statement is `lex_upper`: the lexemes of a text in upper case are the lexemes of the text
with these texts in upper case, at the same places, and the error of a text that cannot be lexed is
the same.
-/

namespace CommodoreBasic

/-! ## Characters -/

/-- Letters are letters in upper case, and no other character becomes one. -/
theorem isAlpha_toUpper (c : Char) : c.toUpper.isAlpha = c.isAlpha := by
  by_cases letter : c.isAlpha = true
  · apply of_ascii (toNat_lt_of_isAlpha letter)
    decide +kernel
  · rw [Keyword.toUpper_eq_of_not_isAlpha (Bool.eq_false_iff.mpr letter)]

theorem toUpper_toUpper (c : Char) : c.toUpper.toUpper = c.toUpper := by
  by_cases letter : c.isAlpha = true
  · apply of_ascii (toNat_lt_of_isAlpha letter)
    decide +kernel
  · rw [Keyword.toUpper_eq_of_not_isAlpha (Bool.eq_false_iff.mpr letter),
      Keyword.toUpper_eq_of_not_isAlpha (Bool.eq_false_iff.mpr letter)]

/-- Only the mark itself becomes a mark in upper case. -/
theorem toUpper_eq_iff {c mark : Char} (other : mark.isAlpha = false) :
    c.toUpper = mark ↔ c = mark := by
  by_cases letter : c.isAlpha = true
  · refine iff_of_false ?_ ?_
    · rintro rfl
      rw [isAlpha_toUpper, letter] at other
      contradiction
    · rintro rfl
      rw [letter] at other
      contradiction
  · rw [Keyword.toUpper_eq_of_not_isAlpha (Bool.eq_false_iff.mpr letter)]

/-- What upper case makes of a letter takes as much room. -/
theorem Encoding.charWidth_toUpper (e : Encoding) (c : Char) :
    e.charWidth c.toUpper = e.charWidth c := by
  by_cases letter : c.isAlpha = true
  · have still : c.toUpper.isAlpha = true := by rw [isAlpha_toUpper, letter]
    rw [e.charWidth_of_ascii (toNat_lt_of_isAlpha letter),
      e.charWidth_of_ascii (toNat_lt_of_isAlpha still)]
  · rw [Keyword.toUpper_eq_of_not_isAlpha (Bool.eq_false_iff.mpr letter)]

/-- The class holds a letter in both cases or in none. -/
def CaseBlind (accepts : Char → Bool) : Prop := ∀ c, accepts c.toUpper = accepts c

/-- A class without letters does. -/
theorem CaseBlind.of_marks {accepts : Char → Bool}
    (marks : ∀ c, accepts c = true → c.isAlpha = false) : CaseBlind accepts := by
  intro c
  have outside : ∀ d : Char, d.isAlpha = true → accepts d = false := by
    intro d letter
    rw [Bool.eq_false_iff]
    intro accepted
    rw [marks d accepted] at letter
    contradiction
  by_cases letter : c.isAlpha = true
  · have still : c.toUpper.isAlpha = true := by rw [isAlpha_toUpper, letter]
    rw [outside c letter, outside _ still]
  · rw [Keyword.toUpper_eq_of_not_isAlpha (Bool.eq_false_iff.mpr letter)]

theorem CaseBlind.not {accepts : Char → Bool} (blind : CaseBlind accepts) :
    CaseBlind fun c => !accepts c :=
  fun c => congrArg Bool.not (blind c)

/-- The characters that are spaces, line ends or marks. -/
def isNoWord (c : Char) : Bool :=
  isSigil c || isTrailingMark c || isPunctuation c || isSpacing c || isLineBreak c

theorem isAlpha_of_isNoWord {c : Char} (h : isNoWord c = true) : c.isAlpha = false := by
  rw [Bool.eq_false_iff]
  intro letter
  have ascii := toNat_lt_of_isAlpha letter
  revert h letter
  apply of_ascii ascii
  decide +kernel

theorem Text.upper_singleton {c : Char} (mark : isNoWord c = true) : Text.upper [c] = [c] := by
  show [c.toUpper] = [c]
  rw [Keyword.toUpper_eq_of_not_isAlpha (isAlpha_of_isNoWord mark)]

theorem caseBlind_isDigit : CaseBlind Char.isDigit :=
  .of_marks fun _ digit => (Rule.isDigit_plain digit).1

theorem caseBlind_isSpacing : CaseBlind isSpacing :=
  .of_marks fun _ space => isAlpha_of_isNoWord (by simp [isNoWord, space])

theorem caseBlind_isLineBreak : CaseBlind isLineBreak :=
  .of_marks fun _ isBreak => isAlpha_of_isNoWord (by simp [isNoWord, isBreak])

theorem caseBlind_isSigil : CaseBlind isSigil :=
  .of_marks fun _ sigil => isAlpha_of_isNoWord (by simp [isNoWord, sigil])

/-! ## Texts -/

theorem Encoding.width_upper (e : Encoding) (s : Text) : e.width s.upper = e.width s := by
  induction s with
  | nil => rfl
  | cons c s ih => rw [Text.upper_cons, width_cons, width_cons, e.charWidth_toUpper, ih]

namespace Text

@[simp] theorem upper_upper (s : Text) : s.upper.upper = s.upper := by
  induction s with
  | nil => rfl
  | cons c s ih =>
    rw [upper_cons, upper_cons, toUpper_toUpper, ih]

/-- A text without letters is in upper case. -/
theorem upper_eq_self {s : Text} (plain : ∀ c ∈ s, c.isAlpha = false) : s.upper = s := by
  induction s with
  | nil => rfl
  | cons c s ih =>
    rw [upper_cons, Keyword.toUpper_eq_of_not_isAlpha (plain c List.mem_cons_self),
      ih fun d hd => plain d (List.mem_cons_of_mem c hd)]

/-- A beginning is looked for without regard to case. -/
theorem beginsWith_upper (k s : Text) : beginsWith k s.upper = beginsWith k s := by
  rw [Bool.eq_iff_iff, beginsWith_iff, beginsWith_iff, upper_upper]

theorem all_upper {accepts : Char → Bool} (blind : CaseBlind accepts) {s : Text} {b : Bool}
    (h : ∀ c ∈ s, accepts c = b) : ∀ c ∈ upper s, accepts c = b := by
  intro c member
  obtain ⟨d, inside, rfl⟩ := List.mem_map.mp member
  rw [blind, h d inside]

theorem Stops.upper {accepts : Char → Bool} {s : Text} (h : Stops accepts s)
    (blind : CaseBlind accepts) : Stops accepts (upper s) := by
  intro c first
  rw [Text.upper, List.head?_map, Option.map_eq_some_iff] at first
  obtain ⟨d, first, rfl⟩ := first
  rw [blind, h d first]

theorem lineBreaks_upper (s : Text) : lineBreaks (upper s) = lineBreaks s := by
  induction s with
  | nil => rfl
  | cons c s ih =>
    have feed : c.toUpper = '\n' ↔ c = '\n' := toUpper_eq_iff rfl
    have ret : c.toUpper = '\r' ↔ c = '\r' := toUpper_eq_iff rfl
    have next : List.head? (upper s) = some '\n' ↔ s.head? = some '\n' := by
      rw [upper, List.head?_map, Option.map_eq_some_iff]
      constructor
      · rintro ⟨d, first, same⟩
        rw [first, (toUpper_eq_iff rfl).mp same]
      · intro first
        exact ⟨'\n', first, rfl⟩
    rw [upper_cons, lineBreaks, lineBreaks, ih]
    simp only [feed, ret, ne_eq, next]

end Text

/-! ## Tokens -/

theorem escape_upper (body : Text) : escape body.upper = (escape body).upper := by
  induction body with
  | nil => rfl
  | cons c body ih =>
    have mark : c.toUpper = '"' ↔ c = '"' := toUpper_eq_iff rfl
    rw [Text.upper_cons, escape_cons, escape_cons, Text.upper_append, ih]
    by_cases isQuote : c = '"'
    · rw [if_pos (mark.mpr isQuote), if_pos isQuote]
      rfl
    · rw [if_neg (mt mark.mp isQuote), if_neg isQuote]
      rfl

theorem quote_upper (body : Text) : quote body.upper = (quote body).upper := by
  rw [quote_eq, quote_eq, escape_upper, Text.upper_cons, Text.upper_append]
  rfl

theorem Quotable.upper {body : Text} (h : Quotable body) : Quotable body.upper := by
  refine ⟨Text.all_upper caseBlind_isLineBreak h.line, ?_⟩
  rw [Text.upper, List.getLast?_map]
  intro last
  obtain ⟨c, same, isBackslash⟩ := Option.map_eq_some_iff.mp last
  rw [(toUpper_eq_iff rfl).mp isBackslash] at same
  exact h.last same

theorem Unclosed.upper {s : Text} (h : Unclosed s) : Unclosed s.upper := by
  intro line rest split inside
  obtain ⟨line', tail, rfl, rfl, same⟩ := List.map_eq_append_iff.mp split
  obtain ⟨c, rest', rfl, isQuote, rfl⟩ := List.map_eq_cons_iff.mp same
  obtain rfl : c = '"' := (toUpper_eq_iff rfl).mp isQuote
  have plain : ∀ d ∈ line', isLineBreak d = false := by
    intro d member
    rw [← caseBlind_isLineBreak d]
    exact inside _ (List.mem_map_of_mem member)
  have last := h line' rest' rfl plain
  rw [List.getLast?_map, last]
  rfl

theorem numeral_upper {whole fraction : Text} (wholeDigits : ∀ c ∈ whole, c.isDigit = true)
    (fractionDigits : ∀ c ∈ fraction, c.isDigit = true) :
    (numeral whole fraction).upper = numeral whole fraction := by
  apply Text.upper_eq_self
  intro c member
  rw [numeral, List.mem_append] at member
  rcases member with member | member
  · exact (Rule.isDigit_plain (wholeDigits c member)).1
  · split at member
    · contradiction
    · rcases List.mem_cons.mp member with rfl | member
      · rfl
      · exact (Rule.isDigit_plain (fractionDigits c member)).1

theorem Rule.fractionLength_upper {s : Text} (h : fractionLength s = 0) :
    fractionLength s.upper = 0 := by
  rw [fractionLength_eq_zero_iff] at h ⊢
  intro t same
  obtain ⟨c, t, rfl, isPoint, rfl⟩ := List.map_eq_cons_iff.mp same
  obtain rfl : c = '.' := (toUpper_eq_iff rfl).mp isPoint
  exact (h t rfl).upper caseBlind_isDigit

/-- What is read from a segment is read from the segment in upper case, with its text in upper
case if it has one. -/
theorem Token.Reads.upper {token : Token} {segment rest : Text} (h : token.Reads segment rest) :
    (token.mapText Text.upper).Reads segment.upper rest.upper := by
  -- neither keywords nor remarks are found in the one text and not in the other
  have begins : ∀ k, Text.beginsWith k (segment.upper ++ rest.upper) =
      Text.beginsWith k (segment ++ rest) := by
    intro k
    rw [← Text.upper_append, Text.beginsWith_upper]
  cases h with
  | keyword same longest =>
    refine .keyword (by rw [Text.upper_upper, same]) ?_
    intro k' found
    rw [Text.length_upper]
    exact longest k' ((begins _).symm.trans found)
  | comment remark line stop =>
    refine .comment ?_ (Text.all_upper caseBlind_isLineBreak line)
      (stop.upper caseBlind_isLineBreak.not)
    rw [Text.beginsWith_upper, remark]
  | @string body rest quotable =>
    rw [← quote_upper]
    exact .string quotable.upper
  | number whole fraction nonempty stop point =>
    rw [numeral_upper whole fraction]
    exact .number whole fraction nonempty (stop.upper caseBlind_isDigit)
      fun empty => Rule.fractionLength_upper (point empty)
  | @identifier letters sigil rest nonempty alpha stop noKeyword noRemark =>
    rw [Text.upper_append] at begins ⊢
    have name : (Token.identifier (letters ++ sigil)).mapText Text.upper =
        .identifier (letters.upper ++ sigil.upper) := congrArg _ (Text.upper_append letters sigil)
    rw [name]
    refine .identifier (by simpa [Text.upper] using nonempty) (Text.all_upper isAlpha_toUpper alpha)
      ?_ ?_ ?_
    · rcases stop with ⟨rfl, stop⟩ | ⟨c, isSigil, rfl⟩
      · have blind : CaseBlind fun c => c.isAlpha || CommodoreBasic.isSigil c := by
          intro c
          dsimp only
          rw [isAlpha_toUpper, caseBlind_isSigil]
        exact Or.inl ⟨rfl, stop.upper blind⟩
      · refine Or.inr ⟨c.toUpper, ?_, rfl⟩
        rw [caseBlind_isSigil, isSigil]
    · intro k
      rw [begins, noKeyword]
    · rw [begins, noRemark]
  | @trailing c rest mark =>
    rw [Text.upper_singleton (by simp [isNoWord, mark])]
    exact .trailing mark
  | colon => exact .colon
  | @punctuation c rest mark plain point =>
    rw [Text.upper_singleton (by simp [isNoWord, mark])]
    exact .punctuation mark plain fun isPoint => (point isPoint).upper caseBlind_isDigit
  | whitespace nonempty spacing stop =>
    have reads : Token.Reads (.whitespace segment.upper.length) segment.upper rest.upper :=
      .whitespace (by simpa [Text.upper] using nonempty)
        (Text.all_upper caseBlind_isSpacing spacing)
        (stop.upper caseBlind_isSpacing)
    rwa [Text.length_upper] at reads
  | endOfLine nonempty breaks stop =>
    exact .endOfLine (by simpa [Text.upper] using nonempty)
      (Text.all_upper caseBlind_isLineBreak breaks) (stop.upper caseBlind_isLineBreak)

/-! ## Cutting and lexing -/

/-- Where nothing can be read, nothing can be read in upper case, and the fault is the same: a
character that begins nothing is no letter. -/
theorem firstToken_upper {c : Char} {s : Text} {fault : LexicalFault}
    (h : firstToken c s = .error fault) : firstToken c.toUpper s.upper = .error fault := by
  rw [firstToken_eq_error_iff] at h ⊢
  rcases h with ⟨rfl, unclosed, rfl⟩ | ⟨foreign, rfl⟩
  · exact Or.inl ⟨rfl, unclosed.upper, rfl⟩
  · have other := (beginsToken_eq_false foreign).2
    simp only [beginsToken, Bool.or_eq_false_iff] at other
    rw [Keyword.toUpper_eq_of_not_isAlpha (by simp [other])]
    exact Or.inr ⟨foreign, rfl⟩

/-- The piece in upper case. -/
def Piece.upper (piece : Piece) : Piece := ⟨piece.token.mapText Text.upper, piece.segment.upper⟩

/-- A text in upper case is cut where the text is. -/
theorem cut_upper (s : Text) : cut s.upper = ⟨(cut s).pieces.map Piece.upper, (cut s).fault⟩ := by
  induction s using cut_induction with
  | nil => rfl
  | fault c s fault read => rw [Text.upper_cons, cut_cons, firstToken_upper read, List.map_nil]
  | token c s token segment rest read split _ ih =>
    have reads := ((firstToken_eq_ok_iff split).mp read).upper
    rw [split, Text.upper_append, cut_of_reads reads, ih]
    rfl

/-- The lexeme in upper case, at its place. -/
def Lexeme.upper (l : Lexeme) : Lexeme := { l with token := l.token.mapText Text.upper }

theorem Lexeme.upper_eq_remap : Lexeme.upper = Lexeme.remap id Text.upper := rfl

theorem Token.isSpace_mapText (token : Token) (g : Text → Text) :
    (token.mapText g).isSpace = token.isSpace := by
  cases token <;> rfl

theorem Piece.next_upper (e : Encoding) (p : Position) (piece : Piece) :
    piece.upper.next e p = piece.next e p := by
  have ends : piece.upper.token = .endOfLine ↔ piece.token = .endOfLine :=
    Token.mapText_eq_endOfLine Text.upper
  have breaks : piece.upper.segment.lineBreaks = piece.segment.lineBreaks :=
    Text.lineBreaks_upper piece.segment
  have width : e.width piece.upper.segment = e.width piece.segment := e.width_upper piece.segment
  simp only [Piece.next, ends, breaks, width]

theorem place_upper (e : Encoding) (p : Position) (pieces : List Piece) :
    place e p (pieces.map Piece.upper) = (place e p pieces).map Lexeme.upper := by
  induction pieces generalizing p with
  | nil => rfl
  | cons piece pieces ih =>
    have space : piece.upper.token.isSpace = piece.token.isSpace :=
      Token.isSpace_mapText piece.token Text.upper
    have width : e.width piece.upper.segment = e.width piece.segment := e.width_upper piece.segment
    rw [List.map_cons, place, place, Piece.next_upper, space, ih, width]
    split
    · rfl
    · rfl

theorem endOf_upper (e : Encoding) (p : Position) (pieces : List Piece) :
    endOf e p (pieces.map Piece.upper) = endOf e p pieces := by
  induction pieces generalizing p with
  | nil => rfl
  | cons piece pieces ih =>
    show endOf e (piece.upper.next e p) (pieces.map Piece.upper) = endOf e (piece.next e p) pieces
    rw [Piece.next_upper, ih]

/-- A text in upper case has the lexemes of the text, with the texts of remarks, strings and names
in upper case and all else as it is, places and widths included. If the text is not lexed, it has
the same error. -/
theorem lex_upper (e : Encoding) (s : Text) :
    lex e s.upper = (lex e s).map (List.map Lexeme.upper) := by
  rw [lex, lex, cut_upper]
  dsimp only
  rw [endOf_upper, place_upper]
  cases (cut s).fault with
  | some fault => rfl
  | none =>
    show Except.ok _ = Except.ok _
    rw [List.map_append]
    rfl

end CommodoreBasic
