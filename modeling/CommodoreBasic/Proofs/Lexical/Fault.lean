import CommodoreBasic.Program.Source
import CommodoreBasic.Proofs.Lexical.Locality
import CommodoreBasic.Text.Visible

/-!
# Where a text cannot be read

The tokens before a fault do not depend on it. The rules look ahead, but only to rule things out,
so what they read with more text after it they read with less as well (`Token.Reads.of_append`),
and a text that is cut short after a token is cut into the same pieces (`Chained.of_append`).

At the fault itself either a quote opens a string that is not closed, or there is a character that
begins nothing (`isForeign`): `Rule.isForeign_of_first_eq_none` goes through the classes of
characters to show that no other is left over. The main statement is `lexical_error_of_lex`.
-/

namespace CommodoreBasic

/-! ## A text cut short -/

/-- What is read with more text after it is read with less. -/
theorem Token.Reads.of_append {token : Token} {segment s rest : Text}
    (h : token.Reads segment (s ++ rest)) : token.Reads segment s := by
  by_cases ends : token = .endOfLine
  · subst ends
    cases h with
    | endOfLine nonempty breaks stop =>
      exact .endOfLine nonempty breaks (Text.stops_of_append stop)
  · refine h.transfer ends ⟨?_, ?_, ?_, ?_, ?_⟩
    · intro k begins
      rw [← List.append_assoc]
      exact Text.beginsWith_append_right begins rest
    · intro begins
      rw [← List.append_assoc]
      exact Text.beginsWith_append_right begins rest
    · exact Text.stops_of_append
    · exact fun accepts _ _ => Text.stops_of_append
    · exact Rule.fractionLength_of_append

/-- A chain of tokens stays one with less text after it. -/
theorem Chained.of_append {pieces : List Piece} {s rest : Text}
    (chain : Chained (s ++ rest) pieces) : Chained s pieces := by
  induction chain with
  | nil => exact .nil
  | cons reads _ ih =>
    rw [← List.append_assoc] at reads
    exact .cons reads.of_append ih

/-! ## Characters that begin nothing -/

/-- A mark that the language does not have, a control that is neither a tab nor a line end, or a
character beyond ASCII. -/
def isForeign (c : Char) : Bool :=
  c ∈ "$\\\x60~".toList || (isControl c && c ≠ '\t' && c ≠ '\n' && c ≠ '\r') || 128 ≤ c.toNat

/-- A character of one of the classes with which tokens other than strings begin. -/
def beginsToken (c : Char) : Bool :=
  c.isAlpha || c.isDigit || isTrailingMark c || c = ':' || isPunctuation c || isSpacing c ||
    isLineBreak c

/-- What holds of the characters with the codes below 128 holds of those in ASCII. -/
theorem of_ascii {P : Char → Prop} {c : Char} (ascii : c.toNat < 128)
    (table : ∀ n < 128, P (Char.ofNat n)) : P c := by
  have found := table c.toNat ascii
  rwa [Char.ofNat_toNat] at found

theorem toNat_lt_of_isAlpha {c : Char} (letter : c.isAlpha = true) : c.toNat < 128 := by
  have ranges : (decide (c.val ≥ 65 ∧ c.val ≤ 90) ||
      decide (c.val ≥ 97) && decide (c.val ≤ 122)) = true := letter
  rw [Bool.or_eq_true, Bool.and_eq_true, decide_eq_true_eq, decide_eq_true_eq,
    decide_eq_true_eq] at ranges
  rcases ranges with ⟨-, capital⟩ | ⟨-, small⟩
  · have high : c.toNat ≤ 90 := UInt32.le_iff_toNat_le.mp capital
    omega
  · have high : c.toNat ≤ 122 := UInt32.le_iff_toNat_le.mp small
    omega

/-- There are no other characters. -/
theorem beginsToken_or_isForeign (c : Char) :
    c = '"' ∨ beginsToken c = true ∨ isForeign c = true := by
  by_cases ascii : c.toNat < 128
  · apply of_ascii ascii
    decide +kernel
  · exact Or.inr (Or.inr (by simp [isForeign, Nat.le_of_not_lt ascii]))

namespace Rule

/-- A number begins with any digit. -/
theorem number_ne_none {c : Char} (digit : c.isDigit = true) (s : Text) :
    number (c :: s) ≠ none := by
  have operator := (isDigit_plain digit).2.1
  rw [ne_eq, number_eq_none_iff (signLength_eq_zero (Text.stops_cons operator)),
    countDigits_eq_zero_iff]
  rintro ⟨stop, -⟩
  have stopped := stop c rfl
  rw [digit] at stopped
  contradiction

/-- A string begins with any quote. -/
theorem string_ne_none (s : Text) : string ('"' :: s) ≠ none := by
  unfold string
  split
  · split <;> simp
  · next other => exact absurd rfl (other s)

theorem identifier_ne_none {c : Char} (letter : c.isAlpha = true) (s : Text) :
    identifier (c :: s) ≠ none := by
  simp [identifier, letter]

theorem single_ne_none {accepts : Char → Bool} {make : Char → Token} {c : Char}
    (accepted : accepts c = true) (s : Text) : single accepts make (c :: s) ≠ none := by
  simp [single, accepted]

theorem run_ne_none {accepts : Char → Bool} {make : Nat → Token} {c : Char}
    (accepted : accepts c = true) (s : Text) : run accepts make (c :: s) ≠ none := by
  simp [run, accepted]

/-- Where no rule has an answer, there is a character that begins nothing. -/
theorem isForeign_of_first_eq_none {c : Char} {s : Text} (h : first (c :: s) = none) :
    isForeign c = true := by
  simp only [first, Option.orElse_eq_orElse, Option.orElse_eq_or, Option.or_eq_none_iff] at h
  obtain ⟨-, -, noString, noNumber, noIdentifier, noTrailing, noColon, noMark, noSpace, noBreak⟩ :=
    h
  rcases beginsToken_or_isForeign c with rfl | known | foreign
  · exact absurd noString (string_ne_none s)
  · simp only [beginsToken, Bool.or_eq_true] at known
    rcases known with (((((letter | digit) | trailing) | colon) | mark) | space) | isBreak
    · exact absurd noIdentifier (identifier_ne_none letter s)
    · exact absurd noNumber (number_ne_none digit s)
    · exact absurd noTrailing (single_ne_none trailing s)
    · exact absurd noColon (single_ne_none colon s)
    · exact absurd noMark (single_ne_none mark s)
    · exact absurd noSpace (run_ne_none space s)
    · exact absurd noBreak (run_ne_none isBreak s)
  · exact foreign

end Rule

/-- What is wrong where no token can be read: a string is not closed, or a character begins
nothing. -/
theorem cause_of_firstToken {c : Char} {s : Text} {fault : LexicalFault}
    (h : firstToken c s = .error fault) :
    c = '"' ∧ Unclosed s ∧ fault = .unterminatedString ∨
      isForeign c = true ∧ fault = .unexpectedCharacter c := by
  unfold firstToken at h
  cases answer : Rule.first (c :: s) with
  | none =>
    rw [answer] at h
    cases h
    exact Or.inr ⟨Rule.isForeign_of_first_eq_none answer, rfl⟩
  | some found =>
    rw [answer, Option.getD_some] at h
    subst h
    obtain ⟨rfl, rest, same, unclosed⟩ :=
      Rule.string_eq_error_iff.mp (Rule.string_of_first answer)
    cases same
    exact Or.inl ⟨rfl, unclosed, rfl⟩

/-- The characters with which tokens begin lie in ASCII. -/
theorem toNat_lt_of_beginsToken {c : Char} (h : beginsToken c = true) : c.toNat < 128 := by
  have marks :
      ("-[]!@#%^&*()+_=\x7b\x7d|'<>.?/".toList.all fun c => decide (c.toNat < 128)) = true :=
    by decide
  simp only [beginsToken, isTrailingMark, isSpacing, isLineBreak, Bool.or_eq_true,
    decide_eq_true_eq] at h
  rcases h with (((((letter | digit) | rfl | rfl) | rfl) | mark) | rfl | rfl) | rfl | rfl
  · exact toNat_lt_of_isAlpha letter
  · have high : c.toNat ≤ 57 := (Char.isDigit_iff_toNat.mp digit).2
    omega
  · decide
  · decide
  · decide
  · simpa using List.all_eq_true.mp marks c (by simpa [isPunctuation] using mark)
  · decide
  · decide
  · decide
  · decide

/-- A character that begins nothing is in none of the classes. -/
theorem beginsToken_eq_false {c : Char} (foreign : isForeign c = true) :
    c ≠ '"' ∧ beginsToken c = false := by
  by_cases ascii : c.toNat < 128
  · revert foreign
    apply of_ascii ascii
    decide +kernel
  · refine ⟨?_, ?_⟩
    · rintro rfl
      exact ascii (by decide)
    · rw [Bool.eq_false_iff]
      exact mt toNat_lt_of_beginsToken ascii

/-- At such a character no rule has an answer. -/
theorem Rule.first_of_isForeign {c : Char} (foreign : isForeign c = true) (s : Text) :
    first (c :: s) = none := by
  obtain ⟨notQuote, other⟩ := beginsToken_eq_false foreign
  simp only [beginsToken, Bool.or_eq_false_iff, decide_eq_false_iff_not] at other
  obtain ⟨⟨⟨⟨⟨⟨letter, digit⟩, trailing⟩, colon⟩, mark⟩, space⟩, isBreak⟩ := other
  have operators : ("+-*/^><=".toList.all isPunctuation) = true := by decide
  have operator : Keyword.isOperator c = false := by
    rw [Keyword.isOperator, decide_eq_false_iff_not]
    intro member
    rw [List.all_eq_true.mp operators c member] at mark
    contradiction
  have notPoint : c ≠ '.' := by
    rintro rfl
    contradiction
  have wordless : Wordless c := ⟨letter, operator, digit, notQuote⟩
  rw [first_of_wordless wordless (wordless.number_eq_none notPoint s), run_eq_none space,
    run_eq_none isBreak]
  simp [single, trailing, colon, mark]

/-- No token can be read at a quote that opens a string which is not closed, and at a character
that begins nothing. There are no other places. -/
theorem firstToken_eq_error_iff {c : Char} {s : Text} {fault : LexicalFault} :
    firstToken c s = .error fault ↔
      c = '"' ∧ Unclosed s ∧ fault = .unterminatedString ∨
        isForeign c = true ∧ fault = .unexpectedCharacter c := by
  refine ⟨cause_of_firstToken, ?_⟩
  rintro (⟨rfl, unclosed, rfl⟩ | ⟨foreign, rfl⟩)
  · have read : Rule.string ('"' :: s) = some (.error .unterminatedString) :=
      Rule.string_eq_error_iff.mpr ⟨rfl, s, rfl, unclosed⟩
    have noKeyword : Rule.keyword ('"' :: s) = none := Rule.keyword_eq_none rfl
    have noComment : Rule.comment ('"' :: s) = none := Rule.comment_eq_none rfl
    rw [firstToken, Rule.first, noKeyword, noComment, read]
    rfl
  · rw [firstToken, Rule.first_of_isForeign foreign]
    rfl

/-! ## Texts -/

/-- A text is not lexed if there is a fault in it, and then the error stands after the pieces. -/
theorem lex_eq_error_iff {e : Encoding} {s : Text} {error : LexicalError} :
    lex e s = .error error ↔
      ∃ fault, (cut s).fault = some fault ∧ error = ⟨endOf e .start (cut s).pieces, fault⟩ := by
  simp only [lex]
  cases (cut s).fault with
  | none => simp
  | some fault => simp [eq_comm]

/-- A text that is not lexed is lexed up to a character, and its error stands where the input ends
there. At this character a string begins that is not closed, or nothing can begin. -/
theorem lexical_error_of_lex {e : Encoding} {s : Text} {error : LexicalError}
    (h : lex e s = .error error) :
    readLines e s = .error (.lexical error) ∧
      ∃ before c rest ls, s = before ++ c :: rest ∧
        lex e before = .ok (ls ++ [⟨.endOfInput, error.position, 0⟩]) ∧
        (c = '"' ∧ Unclosed rest ∧ error.fault.message = "unterminated string".toList ∨
          isForeign c = true ∧
            error.fault.message = "unexpected character '".toList ++ [c, '\'']) := by
  refine ⟨readLines_eq_error_iff.mpr (Or.inl ⟨error, h, rfl⟩), ?_⟩
  obtain ⟨fault, faulty, rfl⟩ := lex_eq_error_iff.mp h
  obtain ⟨unread, whole, chain, ⟨clean, -⟩ | ⟨c, rest, fault', stuck, rfl, read⟩⟩ := chained_cut s
  · rw [clean] at faulty
    contradiction
  obtain rfl : fault' = fault := Option.some.inj (stuck.symm.trans faulty)
  have alone : Chained [] (cut s).pieces := @Chained.of_append _ [] (c :: rest) chain
  have lexed := cut_of_chained alone
  rw [cut_nil, List.append_nil, List.append_nil] at lexed
  refine ⟨Piece.textOf (cut s).pieces, c, rest, place e .start (cut s).pieces, whole, ?_, ?_⟩
  · rw [lex_eq_ok_iff, lexed]
    exact ⟨rfl, rfl⟩
  · rcases cause_of_firstToken read with ⟨isQuote, unclosed, rfl⟩ | ⟨foreign, rfl⟩
    · exact Or.inl ⟨isQuote, unclosed, rfl⟩
    · exact Or.inr ⟨foreign, rfl⟩

/-- A character of two units in a string that is read, then on the next line a string whose only
other quote is part of it. -/
theorem lexical_error_of_lex_unclosed :
    lex .utf16 "1 print\"𝄞\\\"\"\r2 a$=\"x\\\"\n3 end".toList =
        .error ⟨⟨2, 6⟩, .unterminatedString⟩ ∧
      readLines .utf16 "1 print\"𝄞\\\"\"\r2 a$=\"x\\\"\n3 end".toList =
        .error (.lexical ⟨⟨2, 6⟩, .unterminatedString⟩) ∧
      ∃ before c rest ls,
        "1 print\"𝄞\\\"\"\r2 a$=\"x\\\"\n3 end".toList = before ++ c :: rest ∧
        lex .utf16 before = .ok (ls ++ [⟨.endOfInput, ⟨2, 6⟩, 0⟩]) ∧
        (c = '"' ∧ Unclosed rest ∧
            LexicalFault.unterminatedString.message = "unterminated string".toList ∨
          isForeign c = true ∧ LexicalFault.unterminatedString.message =
            "unexpected character '".toList ++ [c, '\'']) := by
  have failed : lex .utf16 "1 print\"𝄞\\\"\"\r2 a$=\"x\\\"\n3 end".toList =
      .error ⟨⟨2, 6⟩, .unterminatedString⟩ := by rfl
  exact ⟨failed, lexical_error_of_lex failed⟩

end CommodoreBasic
