import CommodoreBasic.Proofs.Lexical.Keyword
import CommodoreBasic.Proofs.Lexical.StringLiteral

/-!
# What a token is read from

`Token.Reads token segment rest` holds if `segment`, with `rest` after it, is read as `token`. The
relation is the lexical grammar without the order of the rules: it has one case for each kind of
token, which says what the segment looks like and where it may end.
-/

namespace CommodoreBasic

namespace Text

/-- A text that is at its end, or goes on with a character outside the class. -/
def Stops (accepts : Char → Bool) (rest : Text) : Prop :=
  ∀ c, rest.head? = some c → accepts c = false

theorem stops_nil (accepts : Char → Bool) : Stops accepts [] := by
  intro c hc
  simp at hc

theorem stops_cons {accepts : Char → Bool} {c : Char} {s : Text} (h : accepts c = false) :
    Stops accepts (c :: s) := by
  intro d hd
  cases hd
  exact h

/-- A class of characters takes a text that consists of them up to where they stop. -/
theorem takeWhile_append_of_stops {accepts : Char → Bool} {s rest : Text}
    (inside : ∀ c ∈ s, accepts c = true) (stop : Stops accepts rest) :
    (s ++ rest).takeWhile accepts = s := by
  rw [List.takeWhile_append_of_pos inside]
  cases rest with
  | nil => simp
  | cons c rest => simp [stop c rfl]

/-- And it is dropped from there up to where they stop. -/
theorem dropWhile_append_of_stops {accepts : Char → Bool} {s rest : Text}
    (inside : ∀ c ∈ s, accepts c = true) (stop : Stops accepts rest) :
    (s ++ rest).dropWhile accepts = rest := by
  rw [List.dropWhile_append_of_pos inside]
  cases rest with
  | nil => rfl
  | cons c rest => exact List.dropWhile_cons_of_neg (by simp [stop c rfl])

theorem stops_dropWhile (accepts : Char → Bool) (s : Text) :
    Stops accepts (s.dropWhile accepts) := by
  intro c hc
  have outside := List.head?_dropWhile_not accepts s
  rw [hc] at outside
  simpa using outside

/-- Where a class of characters takes as many as a segment has, it takes the segment and stops. -/
theorem stops_of_length_takeWhile {accepts : Char → Bool} {s rest : Text}
    (length : ((s ++ rest).takeWhile accepts).length = s.length) :
    (∀ c ∈ s, accepts c = true) ∧ Stops accepts rest := by
  have parts := List.takeWhile_append_dropWhile (p := accepts) (l := s ++ rest)
  obtain ⟨taken, dropped⟩ := List.append_inj parts length
  refine ⟨?_, dropped ▸ stops_dropWhile accepts (s ++ rest)⟩
  intro c hc
  rw [← taken] at hc
  exact List.all_eq_true.mp List.all_takeWhile c hc

end Text

theorem isOutside_of_isLineBreak {c : Char} (h : isLineBreak c = true) :
    Keyword.isOutside c = true := by
  simp only [isLineBreak, Bool.or_eq_true, decide_eq_true_eq] at h
  rcases h with rfl | rfl <;> rfl

/-- A decimal numeral: its whole part and, after a point, its fraction if it has one. -/
def numeral (whole fraction : Text) : Text :=
  whole ++ if fraction = [] then [] else '.' :: fraction

/-- The token that a segment of text is read as, `rest` being the text after it. -/
inductive Token.Reads : Token → Text → Text → Prop
  | keyword {k : ReservedWord} {segment rest : Text} (same : segment.upper = k.spelling)
      (longest : ∀ k' : ReservedWord, Text.beginsWith k'.spelling (segment ++ rest) = true →
        k'.spelling.length ≤ segment.length) : Reads (.keyword k) segment rest
  | comment {text rest : Text} (remark : Text.beginsWith "REM".toList text = true)
      (line : ∀ c ∈ text, isLineBreak c = false)
      (stop : Text.Stops (fun c => !isLineBreak c) rest) : Reads (.comment text) text rest
  | string {body rest : Text} (quotable : Quotable body) :
      Reads (.string body) (quote body) rest
  | number {whole fraction rest : Text} (wholeDigits : ∀ c ∈ whole, c.isDigit = true)
      (fractionDigits : ∀ c ∈ fraction, c.isDigit = true) (nonempty : whole ++ fraction ≠ [])
      (stop : Text.Stops Char.isDigit rest) (point : fraction = [] → Rule.fractionLength rest = 0) :
      Reads (.number (numeral whole fraction)) (numeral whole fraction) rest
  /-- A name keeps clear of keywords and remarks, even of those that would end after it. -/
  | identifier {letters sigil rest : Text} (nonempty : letters ≠ [])
      (alpha : ∀ c ∈ letters, c.isAlpha = true)
      (stop : sigil = [] ∧ Text.Stops (fun c => c.isAlpha || isSigil c) rest ∨
        ∃ c, isSigil c = true ∧ sigil = [c])
      (noKeyword : ∀ k : ReservedWord,
        Text.beginsWith k.spelling (letters ++ sigil ++ rest) = false)
      (noRemark : Text.beginsWith "REM".toList (letters ++ sigil ++ rest) = false) :
      Reads (.identifier (letters ++ sigil)) (letters ++ sigil) rest
  | trailing {c : Char} {rest : Text} (mark : isTrailingMark c = true) :
      Reads (.trailing c) [c] rest
  | colon {rest : Text} : Reads .colon [':'] rest
  | punctuation {c : Char} {rest : Text} (mark : isPunctuation c = true)
      (plain : Keyword.isOperator c = false) (point : c = '.' → Text.Stops Char.isDigit rest) :
      Reads (.punctuation c) [c] rest
  | whitespace {segment rest : Text} (nonempty : segment ≠ [])
      (spacing : ∀ c ∈ segment, isSpacing c = true) (stop : Text.Stops isSpacing rest) :
      Reads (.whitespace segment.length) segment rest
  | endOfLine {segment rest : Text} (nonempty : segment ≠ [])
      (breaks : ∀ c ∈ segment, isLineBreak c = true) (stop : Text.Stops isLineBreak rest) :
      Reads .endOfLine segment rest

end CommodoreBasic
