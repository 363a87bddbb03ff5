import CommodoreBasic.Proofs.Lexical.Placement
import CommodoreBasic.Proofs.Lexical.Respacing

/-!
# The form of tokens

A token may hold any text, but the tokens of a text are well formed (`Token.Reads.formed`): a number
has no sign, for a sign is a keyword and the keyword rule comes first, and a name begins with no
keyword. A remark reaches to the end of its line, so an end of line or the end of input comes next
(`follows_comment`).
-/

namespace CommodoreBasic

/-- Digits, digits with a point between them, or a point and digits. There is no sign. -/
def IsNumeral (s : Text) : Prop :=
  ∃ whole fraction, (∀ c ∈ whole, c.isDigit = true) ∧ (∀ c ∈ fraction, c.isDigit = true) ∧
    whole ++ fraction ≠ [] ∧ s = numeral whole fraction

/-- Letters and then at most one mark. Neither a keyword nor the sign of a remark begins it, in any
case of letters. -/
structure IsName (s : Text) : Prop where
  spelled : ∃ letters sigil, s = letters ++ sigil ∧ letters ≠ [] ∧
    (∀ c ∈ letters, c.isAlpha = true) ∧ (sigil = [] ∨ sigil = ['$'] ∨ sigil = ['%'])
  noKeyword : ∀ k : ReservedWord, Text.beginsWith k.spelling s = false
  noRemark : Text.beginsWith "REM".toList s = false

/-- What a token that has been read looks like, spaces left out: a keyword is a reserved word, and
the text in a token has the form that its kind asks for. -/
def Token.Formed : Token → Prop
  | keyword k => k.spelling ∈ Keyword.table
  | number digits => IsNumeral digits
  | identifier name => IsName name
  | comment text => Text.beginsWith "REM".toList text = true ∧ '\n' ∉ text ∧ '\r' ∉ text
  | trailing mark => mark = ',' ∨ mark = ';'
  | whitespace _ => False
  | _ => True

theorem Token.Reads.formed {token : Token} {segment rest : Text} (h : token.Reads segment rest)
    (kept : token.isSpace = false) : token.Formed := by
  cases h with
  | @keyword k => exact k.mem_table
  | number whole fraction nonempty => exact ⟨_, _, whole, fraction, nonempty, rfl⟩
  | @identifier letters sigil rest nonempty alpha stop noKeyword noRemark =>
    -- what begins no keyword with more text after it begins none on its own
    refine ⟨⟨letters, sigil, rfl, nonempty, alpha, ?_⟩,
      fun k => Text.not_beginsWith_of_append (noKeyword k),
      Text.not_beginsWith_of_append noRemark⟩
    rcases stop with ⟨empty, -⟩ | ⟨c, sigil, rfl⟩
    · exact Or.inl empty
    · rw [isSigil, Bool.or_eq_true, decide_eq_true_eq, decide_eq_true_eq] at sigil
      rcases sigil with rfl | rfl
      · exact Or.inr (Or.inl rfl)
      · exact Or.inr (Or.inr rfl)
  | comment remark line =>
    refine ⟨remark, fun feed => ?_, fun ret => ?_⟩
    · exact absurd (line '\n' feed) (by decide)
    · exact absurd (line '\r' ret) (by decide)
  | @trailing c rest mark =>
    rw [isTrailingMark, Bool.or_eq_true, decide_eq_true_eq, decide_eq_true_eq] at mark
    exact mark
  | whitespace => contradiction
  | _ => trivial

/-- The tokens of lexemes are well formed. -/
theorem formed_of_lex {e : Encoding} {s : Text} {ls : List Lexeme} (h : lex e s = .ok ls) :
    ∀ l ∈ ls, l.token.Formed := by
  obtain ⟨-, rfl⟩ := lex_eq_ok_iff.mp h
  intro l member
  rcases List.mem_append.mp member with placed | final
  · obtain ⟨segment, later, reads⟩ := reads_of_mem_place placed
    have token : l.token ∈ (place e .start (cut s).pieces).map Lexeme.token :=
      List.mem_map_of_mem placed
    rw [map_token_place] at token
    exact reads.formed (by simpa using (List.mem_filter.mp token).2)
  · obtain rfl := List.mem_singleton.mp final
    trivial

/-! ## What follows a remark -/

/-- The next lexeme ends the line or the input. -/
def EndsNext (ls : List Lexeme) : Prop :=
  ∃ next rest, ls = next :: rest ∧ (next.token = .endOfLine ∨ next.token = .endOfInput)

/-- The first lexeme of pieces that begin at the end of a line ends it. -/
theorem endsNext_place (e : Encoding) (p q : Position) {pieces : List Piece}
    (chain : Chained [] pieces) (ends : Text.EndsLine (Piece.textOf pieces)) :
    EndsNext (place e p pieces ++ [⟨.endOfInput, q, 0⟩]) := by
  have tokens : (place e p pieces).map Lexeme.token = Piece.tokensOf pieces :=
    map_token_place e p pieces
  cases placed : place e p pieces with
  | nil => exact ⟨_, [], rfl, Or.inr rfl⟩
  | cons next rest =>
    rw [placed] at tokens
    have first : (Piece.tokensOf pieces).head? = some next.token := by
      rw [← tokens]
      rfl
    exact ⟨next, _, rfl, Or.inl (chain.head?_tokensOf ends next.token first)⟩

/-- Wherever a remark stands among the lexemes of pieces, the end of its line comes after it. -/
theorem endsNext_of_comment (e : Encoding) (p q : Position) {pieces : List Piece}
    (chain : Chained [] pieces) {before after : List Lexeme} {l : Lexeme} {text : Text}
    (split : place e p pieces ++ [⟨.endOfInput, q, 0⟩] = before ++ l :: after)
    (remark : l.token = .comment text) : EndsNext after := by
  induction chain generalizing p before with
  | nil =>
    cases before with
    | nil =>
      cases split
      contradiction
    | cons m before => simp [place] at split
  | @cons piece pieces reads chain ih =>
    simp only [place] at split
    by_cases space : piece.token.isSpace = true
    · rw [if_pos space] at split
      exact ih _ split
    · rw [if_neg space, List.cons_append] at split
      cases before with
      | cons m before => exact ih _ (List.cons.inj split).2
      | nil =>
        obtain ⟨rfl, rfl⟩ := List.cons.inj split
        have isComment : piece.token = .comment text := remark
        rw [isComment, List.append_nil] at reads
        cases reads with
        | comment _ _ stop => exact endsNext_place e _ q chain stop

/-- After a remark comes an end of line or the end of input. -/
theorem follows_comment {e : Encoding} {s : Text} {ls before after : List Lexeme} {l : Lexeme}
    {text : Text} (h : lex e s = .ok ls) (split : ls = before ++ l :: after)
    (remark : l.token = .comment text) : EndsNext after := by
  obtain ⟨clean, rfl⟩ := lex_eq_ok_iff.mp h
  obtain ⟨-, chain⟩ := chained_of_fault_eq_none clean
  exact endsNext_of_comment e .start _ chain split remark

end CommodoreBasic
