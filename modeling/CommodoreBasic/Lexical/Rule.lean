import CommodoreBasic.Lexical.Token
import CommodoreBasic.Text.Lines

/-!
# Lexical rules

One rule for each kind of token. A rule looks at the start of a text and answers with the token
that it sees there and the number of characters that belong to it. `firstToken` asks the rules in
their order, and the first that answers decides: a sign is a keyword before it could begin a
number, and a name is whatever begins with letters and with no keyword.

The main statement is `firstToken_length`: a token takes at least one character and none beyond
the end of the text, so that reading token after token gets through every text.
-/

namespace CommodoreBasic

/-- Why no token can be read. -/
inductive LexicalFault where
  /-- The line ends before a quote that would close the string. -/
  | unterminatedString
  /-- No rule knows a token that begins with this character. -/
  | unexpectedCharacter (c : Char)
deriving DecidableEq, Repr

/-- The wording of each cause. -/
def LexicalFault.message : LexicalFault → Text
  | unterminatedString => "unterminated string".toList
  | unexpectedCharacter c => "unexpected character '".toList ++ [c, '\'']

/-- Blanks and tabs stand between tokens; no other character does. -/
def isSpacing (c : Char) : Bool := c = ' ' || c = '\t'

/-- A name may end in one of these, which tell the type of its values. -/
def isSigil (c : Char) : Bool := c = '$' || c = '%'

/-- A comma or a semicolon. -/
def isTrailingMark (c : Char) : Bool := c = ',' || c = ';'

/-- The marks that make up a token each, when no rule before has taken them. -/
def isPunctuation (c : Char) : Bool := c ∈ "-[]!@#%^&*()+_=\x7b\x7d|'<>.?/".toList

namespace Rule

/-- What a rule says of a text: nothing, if its kind of token does not begin there; else the token
and the number of characters that it takes, or what is wrong with it. -/
abbrev Answer := Option (Except LexicalFault (Token × Nat))

/-- The answer takes at least one character of the text and none beyond its end. -/
def Fits (s : Text) (answer : Answer) : Prop :=
  ∀ token n, answer = some (.ok (token, n)) → 0 < n ∧ n ≤ s.length

theorem Fits.orElse {s : Text} {a b : Answer} (ha : Fits s a) (hb : Fits s b) :
    Fits s (a <|> b) := by
  intro token n h
  cases a with
  | none => exact hb token n (by simpa using h)
  | some x => exact ha token n (by simpa using h)

/-- The longest keyword, as far as it goes. -/
def keyword (s : Text) : Answer :=
  (Keyword.atStart s).map fun k : ReservedWord => .ok (.keyword k, k.spelling.length)

theorem fits_keyword (s : Text) : Fits s (keyword s) := by
  intro token n h
  simp only [keyword, Option.map_eq_some_iff, Except.ok.injEq, Prod.mk.injEq] at h
  obtain ⟨k, read, -, rfl⟩ := h
  exact ⟨List.length_pos_iff.mpr k.spelling_plain.1, Keyword.length_le_of_atStart read⟩

/-- `REM` takes the line. -/
def comment (s : Text) : Answer :=
  if Text.beginsWith "REM".toList s then
    let text := s.takeWhile fun c => !isLineBreak c
    some (.ok (.comment text, text.length))
  else none

theorem fits_comment (s : Text) : Fits s (comment s) := by
  intro token n h
  simp only [comment] at h
  split at h
  · next begins =>
    simp only [Option.some.injEq, Except.ok.injEq, Prod.mk.injEq] at h
    obtain ⟨-, rfl⟩ := h
    refine ⟨?_, (List.takeWhile_prefix _).length_le⟩
    cases s with
    | nil => simp [Text.beginsWith] at begins
    | cons c s =>
      have other : isLineBreak c = false := by
        cases same : isLineBreak c with
        | false => rfl
        | true =>
          simp only [isLineBreak, Bool.or_eq_true, decide_eq_true_eq] at same
          rcases same with rfl | rfl <;> simp [Text.beginsWith] at begins
      simp [other]
  · simp at h

/-- Reads a string after its opening quote: its body, and the number of characters up to the
closing quote and with it. A backslash makes the quote after it part of the body and is otherwise
an ordinary character. There is no answer if the line ends first. -/
def stringBody : Text → Option (Text × Nat)
  | [] => none
  | '"' :: _ => some ([], 1)
  | '\\' :: '"' :: s => (stringBody s).map fun (body, n) => ('"' :: body, n + 2)
  | c :: s =>
    if isLineBreak c then none
    else (stringBody s).map fun (body, n) => (c :: body, n + 1)

theorem stringBody_le {s body : Text} {n : Nat} (h : stringBody s = some (body, n)) :
    n ≤ s.length := by
  fun_induction stringBody s generalizing body n with
  | case1 => simp at h
  | case2 => simp only [Option.some.injEq, Prod.mk.injEq] at h; simp [← h.2]
  | case3 s ih =>
    simp only [Option.map_eq_some_iff, Prod.exists, Prod.mk.injEq] at h
    obtain ⟨b, m, read, -, rfl⟩ := h
    have := ih read
    simp only [List.length_cons]
    omega
  | case4 => simp at h
  | case5 c s _ _ _ ih =>
    simp only [Option.map_eq_some_iff, Prod.exists, Prod.mk.injEq] at h
    obtain ⟨b, m, read, -, rfl⟩ := h
    have := ih read
    simp only [List.length_cons]
    omega

/-- A quote opens a string, and then nothing else will do. -/
def string : Text → Answer
  | '"' :: s =>
    match stringBody s with
    | some (body, n) => some (.ok (.string body, n + 1))
    | none => some (.error .unterminatedString)
  | _ => none

theorem fits_string (s : Text) : Fits s (string s) := by
  intro token n h
  unfold string at h
  split at h
  · split at h
    · next read =>
      simp only [Option.some.injEq, Except.ok.injEq, Prod.mk.injEq] at h
      have := stringBody_le read
      simp only [List.length_cons]
      omega
    · simp at h
  · simp at h

/-- The number of digits at the start. -/
def countDigits (s : Text) : Nat := (s.takeWhile Char.isDigit).length

theorem countDigits_le (s : Text) : countDigits s ≤ s.length :=
  (List.takeWhile_prefix _).length_le

/-- The length of a fraction: a point with at least one digit after it. -/
def fractionLength : Text → Nat
  | '.' :: s => if countDigits s = 0 then 0 else countDigits s + 1
  | _ => 0

theorem fractionLength_le (s : Text) : fractionLength s ≤ s.length := by
  unfold fractionLength
  split
  · next s =>
    have := countDigits_le s
    simp only [List.length_cons]
    split <;> omega
  · omega

/-- The length of a sign, if one stands at the start. -/
def signLength : Text → Nat
  | '+' :: _ => 1
  | '-' :: _ => 1
  | _ => 0

theorem signLength_le (s : Text) : signLength s ≤ s.length := by
  unfold signLength
  split <;> simp

/-- A number: a sign, digits and a fraction, of which digits or fraction may be missing but not
both. A point without digits after it stays outside. -/
def number (s : Text) : Answer :=
  let sign := signLength s
  let whole := countDigits (s.drop sign)
  let fraction := fractionLength (s.drop (sign + whole))
  if whole + fraction = 0 then none
  else some (.ok (.number (s.take (sign + whole + fraction)), sign + whole + fraction))

theorem fits_number (s : Text) : Fits s (number s) := by
  intro token n h
  simp only [number] at h
  split at h
  · simp at h
  · simp only [Option.some.injEq, Except.ok.injEq, Prod.mk.injEq] at h
    have sign := signLength_le s
    have whole := countDigits_le (s.drop (signLength s))
    have fraction := fractionLength_le (s.drop (signLength s + countDigits (s.drop (signLength s))))
    simp only [List.length_drop] at whole fraction
    omega

/-- The length of a sigil, if one stands at the start. -/
def sigilLength : Text → Nat
  | c :: _ => if isSigil c then 1 else 0
  | [] => 0

theorem sigilLength_le (s : Text) : sigilLength s ≤ s.length := by
  unfold sigilLength
  split
  · split <;> simp
  · simp

/-- A name: letters, and one sigil if it follows at once. -/
def identifier (s : Text) : Answer :=
  let letters := (s.takeWhile Char.isAlpha).length
  let length := letters + sigilLength (s.drop letters)
  if letters = 0 then none else some (.ok (.identifier (s.take length), length))

theorem fits_identifier (s : Text) : Fits s (identifier s) := by
  intro token n h
  simp only [identifier] at h
  split at h
  · simp at h
  · simp only [Option.some.injEq, Except.ok.injEq, Prod.mk.injEq] at h
    have letters : (s.takeWhile Char.isAlpha).length ≤ s.length :=
      (List.takeWhile_prefix _).length_le
    have sigil := sigilLength_le (s.drop (s.takeWhile Char.isAlpha).length)
    simp only [List.length_drop] at sigil
    omega

/-- One character of a class, alone. -/
def single (accepts : Char → Bool) (token : Char → Token) : Text → Answer
  | c :: _ => if accepts c then some (.ok (token c, 1)) else none
  | [] => none

theorem fits_single (accepts : Char → Bool) (token : Char → Token) (s : Text) :
    Fits s (single accepts token s) := by
  intro t n h
  unfold single at h
  split at h
  · split at h
    · simp only [Option.some.injEq, Except.ok.injEq, Prod.mk.injEq] at h
      simp only [List.length_cons]
      omega
    · simp at h
  · simp at h

/-- A run of characters of a class, as long as it goes. -/
def run (accepts : Char → Bool) (token : Nat → Token) (s : Text) : Answer :=
  let n := (s.takeWhile accepts).length
  if n = 0 then none else some (.ok (token n, n))

theorem fits_run (accepts : Char → Bool) (token : Nat → Token) (s : Text) :
    Fits s (run accepts token s) := by
  intro t n h
  simp only [run] at h
  split at h
  · simp at h
  · simp only [Option.some.injEq, Except.ok.injEq, Prod.mk.injEq] at h
    have : (s.takeWhile accepts).length ≤ s.length := (List.takeWhile_prefix _).length_le
    omega

/-- The answer of the first rule that has one. -/
def first (s : Text) : Answer :=
  keyword s
    <|> comment s
    <|> string s
    <|> number s
    <|> identifier s
    <|> single isTrailingMark .trailing s
    <|> single (· = ':') (fun _ => .colon) s
    <|> single isPunctuation .punctuation s
    <|> run isSpacing .whitespace s
    <|> run isLineBreak (fun _ => .endOfLine) s

theorem fits_first (s : Text) : Fits s (first s) :=
  (fits_keyword s).orElse <| (fits_comment s).orElse <| (fits_string s).orElse <|
    (fits_number s).orElse <| (fits_identifier s).orElse <| (fits_single _ _ s).orElse <|
    (fits_single _ _ s).orElse <| (fits_single _ _ s).orElse <| (fits_run _ _ s).orElse <|
    fits_run _ _ s

end Rule

/-- The token at the start of the text `c :: s` and the number of characters that it takes. -/
def firstToken (c : Char) (s : Text) : Except LexicalFault (Token × Nat) :=
  (Rule.first (c :: s)).getD (.error (.unexpectedCharacter c))

/-- A token takes at least one character and none beyond the end of the text. -/
theorem firstToken_length {c : Char} {s : Text} {token : Token} {n : Nat}
    (h : firstToken c s = .ok (token, n)) : 0 < n ∧ n ≤ s.length + 1 := by
  refine Rule.fits_first (c :: s) token n ?_
  unfold firstToken at h
  generalize Rule.first (c :: s) = answer at h
  cases answer with
  | none => simp at h
  | some x => simpa using h

end CommodoreBasic
