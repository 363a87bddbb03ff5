import CommodoreBasic.Program.Basic
import CommodoreBasic.Proofs.Grammar.Refusal
import CommodoreBasic.Proofs.Grammar.Viability
import CommodoreBasic.Proofs.Lexical.Form
import CommodoreBasic.Proofs.Numeric.RoundTrip

/-!
# What a text is refused for

The numbers of a text are numerals, and numerals can be read (`IsNumeral.readable`); a remark is the
last lexeme on its line. So the parser's error for a number that cannot be read is never seen, and a
number is refused as a label only: `Program.refusals_of_lex`.
-/

namespace CommodoreBasic

theorem IsNumeral.readable {digits : Text} (h : IsNumeral digits) :
    Binary64.ofText digits ≠ none := by
  obtain ⟨whole, fraction, wholeDigits, fractionDigits, nonempty, rfl⟩ := h
  rw [Binary64.ofText_numeral wholeDigits nonempty,
    Magnitude.ofNumeral_numeral wholeDigits fractionDigits nonempty]
  simp

theorem Token.Formed.readable {token : Token} (h : token.Formed) : token.Readable := by
  rintro digits rfl
  exact IsNumeral.readable h

namespace GrammarError.Ordinary

variable {e : GrammarError}

/-- What a text can be refused for, in words. -/
theorem text_mem (h : e.Ordinary) :
    e.expected.text ∈ ["line label".toList, "statement".toList, "')'".toList,
      "':' or end of line".toList] := by
  cases h with
  | label => exact .head _
  | statement => exact .tail _ (.head _)
  | closingParenthesis => exact .tail _ (.tail _ (.head _))
  | colonOrEndOfLine => exact .tail _ (.tail _ (.tail _ (.head _)))

theorem text_of_isNumber (h : e.Ordinary) (number : e.found.IsNumber) :
    e.expected.text = "line label".toList := by
  cases h with
  | label => rfl
  | _ => contradiction

end GrammarError.Ordinary

/-- The lexemes of a text can be read where they are numbers, and no number follows a remark. -/
theorem legible_of_lex {e : Encoding} {s : Text} {ls : List Lexeme} (h : lex e s = .ok ls) :
    Parser.Legible ls.toArray := by
  refine ⟨fun l member => (formed_of_lex h l (by simpa using member)).readable, ?_⟩
  rintro i l m text here next remark ⟨digits, number⟩
  rw [List.getElem?_toArray] at here next
  obtain ⟨inside, rfl⟩ := List.getElem?_eq_some_iff.mp here
  have split : ls = ls.take i ++ ls[i] :: ls.drop (i + 1) := by simp
  obtain ⟨n, rest, whole, ends⟩ := follows_comment h split remark
  have first : some m = some n := by rw [← next, ← List.head?_drop, whole, List.head?_cons]
  obtain rfl := Option.some.inj first
  rcases ends with other | other <;> simp [number] at other

/-- The tokens of a text are well formed, and a remark is followed by an end of line or the end of
input. A grammatical error asks for a label, a statement, a closing parenthesis or the end of a
statement, and for nothing else; at a number it asks for a label. -/
theorem Program.refusals_of_lex {e : Encoding} {s : Text} {ls : List Lexeme}
    (h : lex e s = .ok ls) :
    (∀ l ∈ ls, l.token.Formed) ∧
      (∀ before l after text, ls = before ++ l :: after → l.token = .comment text →
        ∃ next rest, after = next :: rest ∧
          (next.token = .endOfLine ∨ next.token = .endOfInput)) ∧
      ∀ source error, parse e source s = .error (.grammatical error) →
        error.expected.text ∈ ["line label".toList, "statement".toList, "')'".toList,
          "':' or end of line".toList] ∧
        ∀ l ∈ ls, l.position = error.position → ∀ digits, l.token = .number digits →
          error.expected.text = "line label".toList := by
  have formed := formed_of_lex h
  refine ⟨formed, fun before l after text split remark => follows_comment h split remark, ?_⟩
  intro source error refused
  have failed : CommodoreBasic.parse ls = .error error := by
    rcases readLines_eq_error_iff.mp (parse_eq_error_iff.mp refused) with
      ⟨fault, lexed, -⟩ | ⟨ls', wrong, lexed, failed, same⟩
    · rw [h] at lexed
      contradiction
    · rw [h] at lexed
      cases lexed
      cases same
      exact failed
  have ordinary := refused_of_legible (legible_of_lex h) failed
  refine ⟨ordinary.text_mem, ?_⟩
  intro m member same digits number
  have eof : ∃ z ∈ ls, z.token = .endOfInput := by
    obtain ⟨-, rfl⟩ := lex_eq_ok_iff.mp h
    exact ⟨_, List.mem_append_right _ (List.mem_singleton.mpr rfl), rfl⟩
  obtain ⟨before, l, after, _, _, split, -, refuses⟩ := Parse.exists_refused_of_parse eof failed
  have inside : l ∈ ls := split ▸ by simp
  obtain rfl : m = l := eq_of_position_eq h member inside (same.trans refuses.position)
  exact ordinary.text_of_isNumber ⟨digits, refuses.found.trans number⟩

/-- A remark at the end of its line, and on the next line a number that is no label. -/
theorem refusals_of_lex_fraction :
    ∃ ls, lex .utf16 "10 Rem +1\r1.5 go".toList = .ok ls ∧
      Program.parse .utf16 [] "10 Rem +1\r1.5 go".toList =
        .error (.grammatical ⟨⟨2, 1⟩, .lineLabel, .number "1.5".toList⟩) ∧
      (∃ l ∈ ls, l.position = ⟨2, 1⟩ ∧ l.token = .number "1.5".toList) ∧
      (∀ l ∈ ls, l.token.Formed) ∧
      (∀ before l after text, ls = before ++ l :: after → l.token = .comment text →
        ∃ next rest, after = next :: rest ∧
          (next.token = .endOfLine ∨ next.token = .endOfInput)) ∧
      Expectation.lineLabel.text = "line label".toList := by
  obtain ⟨ls, lexed, l, member, position, token⟩ : ∃ ls,
      lex .utf16 "10 Rem +1\r1.5 go".toList = .ok ls ∧
        ∃ l ∈ ls, l.position = ⟨2, 1⟩ ∧ l.token = .number "1.5".toList :=
    ⟨_, rfl, ⟨.number "1.5".toList, ⟨2, 1⟩, 3⟩, .tail _ (.tail _ (.tail _ (.head _))), rfl, rfl⟩
  have refused : Program.parse .utf16 [] "10 Rem +1\r1.5 go".toList =
      .error (.grammatical ⟨⟨2, 1⟩, .lineLabel, .number "1.5".toList⟩) :=
    Program.parse_eq_error_iff.mpr (by decide +kernel)
  obtain ⟨formed, remarks, errors⟩ := Program.refusals_of_lex lexed
  have label := (errors [] _ refused).2 l member position _ token
  exact ⟨ls, lexed, refused, ⟨l, member, position, token⟩, formed, remarks, label⟩

end CommodoreBasic
