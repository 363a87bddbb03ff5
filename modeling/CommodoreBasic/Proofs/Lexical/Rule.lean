import CommodoreBasic.Proofs.Lexical.Reading

/-!
# The rules read the lexical grammar

`Rule.first` asks the rules in their order; `Token.Reads` has no order. `Rule.reads_of_first` takes
the answer of each rule, with what it means that no rule before it answered, to the case of the
grammar. `Rule.first_of_reads` goes back: in each case of the grammar the earlier rules have no
answer. Together they are `firstToken_eq_ok_iff`.
-/

namespace CommodoreBasic

namespace Rule

/-! ## What each rule reads -/

theorem reads_of_keyword {segment rest : Text} {token : Token}
    (h : keyword (segment ++ rest) = some (.ok (token, segment.length))) :
    token.Reads segment rest := by
  simp only [keyword, Option.map_eq_some_iff, Except.ok.injEq, Prod.mk.injEq] at h
  obtain ⟨k, found, rfl, length⟩ := h
  obtain ⟨begins, longest⟩ := (Keyword.atStart_eq_some_iff _ _).mp found
  refine .keyword ?_ (length ▸ longest)
  have same := Text.beginsWith_take begins
  rwa [length, List.take_left, k.spelling_plain.2] at same

theorem reads_of_comment {segment rest : Text} {token : Token}
    (h : comment (segment ++ rest) = some (.ok (token, segment.length))) :
    token.Reads segment rest := by
  simp only [comment] at h
  split at h
  · next begins =>
    simp only [Option.some.injEq, Except.ok.injEq, Prod.mk.injEq] at h
    obtain ⟨rfl, length⟩ := h
    obtain ⟨line, stop⟩ := Text.stops_of_length_takeWhile length
    rw [Text.takeWhile_append_of_stops line stop]
    have noBreak : ∀ c ∈ segment, isLineBreak c = false := by
      intro c hc
      simpa using line c hc
    have outside : ∀ c, rest.head? = some c → Keyword.isOutside c = true := by
      intro c hc
      exact isOutside_of_isLineBreak (by simpa using stop c hc)
    refine .comment ?_ noBreak stop
    rwa [Keyword.beginsWith_remark_append outside] at begins
  · simp at h

theorem reads_of_string {segment rest : Text} {token : Token}
    (h : string (segment ++ rest) = some (.ok (token, segment.length))) :
    token.Reads segment rest := by
  obtain ⟨body, rest', quotable, split, rfl, length⟩ := string_eq_ok_iff.mp h
  obtain ⟨rfl, rfl⟩ := List.append_inj split length
  exact .string quotable

theorem reads_of_single {accepts : Char → Bool} {make : Char → Token} {segment rest : Text}
    {token : Token}
    (h : single accepts make (segment ++ rest) = some (.ok (token, segment.length))) :
    ∃ c, segment = [c] ∧ accepts c = true ∧ token = make c := by
  unfold single at h
  split at h
  · next c s whole =>
    split at h
    · next accepted =>
      simp only [Option.some.injEq, Except.ok.injEq, Prod.mk.injEq] at h
      obtain ⟨rfl, length⟩ := h
      obtain ⟨d, rfl⟩ := List.length_eq_one_iff.mp length.symm
      cases whole
      exact ⟨c, rfl, accepted, rfl⟩
    · simp at h
  · simp at h

theorem reads_of_run {accepts : Char → Bool} {make : Nat → Token} {segment rest : Text}
    {token : Token} (h : run accepts make (segment ++ rest) = some (.ok (token, segment.length))) :
    segment ≠ [] ∧ (∀ c ∈ segment, accepts c = true) ∧ Text.Stops accepts rest ∧
      token = make segment.length := by
  simp only [run] at h
  split at h
  · simp at h
  · next nonempty =>
    simp only [Option.some.injEq, Except.ok.injEq, Prod.mk.injEq] at h
    obtain ⟨rfl, length⟩ := h
    obtain ⟨inside, stop⟩ := Text.stops_of_length_takeWhile length
    refine ⟨?_, inside, stop, by rw [length]⟩
    rintro rfl
    exact nonempty length

/-- A class of characters cuts a text in two. -/
theorem takeWhile_split (accepts : Char → Bool) (s : Text) :
    ∃ inside rest, s = inside ++ rest ∧ s.takeWhile accepts = inside ∧
      (∀ c ∈ inside, accepts c = true) ∧ Text.Stops accepts rest :=
  ⟨s.takeWhile accepts, s.dropWhile accepts, List.takeWhile_append_dropWhile.symm, rfl,
    fun c hc => List.all_eq_true.mp List.all_takeWhile c hc, Text.stops_dropWhile accepts s⟩

/-- There is no fraction, or a point and digits. -/
theorem fractionLength_cases (s : Text) :
    fractionLength s = 0 ∨
      ∃ fraction rest, s = '.' :: (fraction ++ rest) ∧ fraction ≠ [] ∧
        (∀ c ∈ fraction, c.isDigit = true) ∧ Text.Stops Char.isDigit rest ∧
        fractionLength s = fraction.length + 1 := by
  unfold fractionLength
  split
  · next s =>
    obtain ⟨fraction, rest, rfl, taken, digits, stop⟩ := takeWhile_split Char.isDigit s
    rw [countDigits, taken]
    by_cases empty : fraction = []
    · simp [empty]
    · have length : fraction.length ≠ 0 := by simpa using empty
      rw [if_neg length]
      exact Or.inr ⟨fraction, rest, rfl, empty, digits, stop, rfl⟩
  · exact Or.inl rfl

theorem reads_of_number {segment rest : Text} {token : Token}
    (unsigned : signLength (segment ++ rest) = 0)
    (h : number (segment ++ rest) = some (.ok (token, segment.length))) :
    token.Reads segment rest := by
  obtain ⟨whole, after, split, taken, wholeDigits, wholeStop⟩ :=
    takeWhile_split Char.isDigit (segment ++ rest)
  simp only [number, unsigned, Nat.zero_add, List.drop_zero] at h
  rw [countDigits, taken, split, List.drop_left] at h
  rcases fractionLength_cases after with none | ⟨fraction, after', rfl, some, digits, stop, length⟩
  · rw [none, Nat.add_zero] at h
    split at h
    · simp at h
    · next positive =>
      simp only [List.take_left, Option.some.injEq, Except.ok.injEq, Prod.mk.injEq] at h
      obtain ⟨rfl, length⟩ := h
      obtain ⟨rfl, rfl⟩ := List.append_inj split length.symm
      have nonempty : segment ≠ [] := by simpa using positive
      have read : Token.Reads (.number (numeral segment [])) (numeral segment []) rest :=
        .number wholeDigits (by simp) (by simpa using nonempty) wholeStop (fun _ => none)
      simpa [numeral] using read
  · rw [length] at h
    have regroup : whole ++ '.' :: (fraction ++ after') = numeral whole fraction ++ after' := by
      simp [numeral, some]
    have size : whole.length + (fraction.length + 1) = (numeral whole fraction).length := by
      simp [numeral, some]
    rw [if_neg (by omega), regroup, size, List.take_left] at h
    simp only [Option.some.injEq, Except.ok.injEq, Prod.mk.injEq] at h
    obtain ⟨rfl, length⟩ := h
    obtain ⟨rfl, rfl⟩ := List.append_inj (split.trans regroup) length.symm
    exact .number wholeDigits digits (by simp [some]) stop (fun empty => absurd empty some)

theorem reads_of_identifier {segment rest : Text} {token : Token}
    (noKeyword : ∀ k : ReservedWord, Text.beginsWith k.spelling (segment ++ rest) = false)
    (noRemark : Text.beginsWith "REM".toList (segment ++ rest) = false)
    (h : identifier (segment ++ rest) = some (.ok (token, segment.length))) :
    token.Reads segment rest := by
  obtain ⟨letters, after, split, taken, alpha, stop⟩ :=
    takeWhile_split Char.isAlpha (segment ++ rest)
  simp only [identifier] at h
  rw [taken, split, List.drop_left] at h
  by_cases empty : letters = []
  · simp [empty] at h
  rw [if_neg (by simpa using empty)] at h
  -- the name with its sigil, if it has one, and what stops it
  obtain ⟨sigil, after', rfl, length, stop'⟩ : ∃ sigil after', after = sigil ++ after' ∧
      sigilLength after = sigil.length ∧
      (sigil = [] ∧ Text.Stops (fun c => c.isAlpha || isSigil c) after' ∨
        ∃ c, isSigil c = true ∧ sigil = [c]) := by
    cases after with
    | nil => exact ⟨[], [], rfl, rfl, Or.inl ⟨rfl, Text.stops_nil _⟩⟩
    | cons c after =>
      by_cases isSigil : isSigil c = true
      · exact ⟨[c], after, rfl, by simp [sigilLength, isSigil], Or.inr ⟨c, isSigil, rfl⟩⟩
      · have letter := stop c rfl
        refine ⟨[], c :: after, rfl, by simp [sigilLength, isSigil], Or.inl ⟨rfl, ?_⟩⟩
        exact Text.stops_cons (by simp [letter, isSigil])
  rw [length, ← List.append_assoc, ← List.length_append, List.take_left] at h
  simp only [Option.some.injEq, Except.ok.injEq, Prod.mk.injEq] at h
  obtain ⟨rfl, size⟩ := h
  obtain ⟨rfl, rfl⟩ := List.append_inj (split.trans (List.append_assoc ..).symm) size.symm
  exact .identifier empty alpha stop' noKeyword noRemark

/-! ## Which rules have no answer -/

theorem keyword_eq_none {c : Char} {s : Text} (h : Keyword.startsKeyword c = false) :
    keyword (c :: s) = none := by
  rw [keyword, Option.map_eq_none_iff, Keyword.atStart_eq_none_iff]
  intro k
  cases begins : Text.beginsWith k.spelling (c :: s) with
  | false => rfl
  | true => exact absurd (Keyword.startsKeyword_of_beginsWith begins) (Bool.eq_false_iff.mp h)

/-- Where no keyword begins, no operator stands. -/
theorem stops_isOperator {s : Text}
    (noKeyword : ∀ k : ReservedWord, Text.beginsWith k.spelling s = false) :
    Text.Stops Keyword.isOperator s := by
  have operators : ("+-*/^><=".toList.all fun c => decide ([c] ∈ Keyword.table)) = true := by
    decide +kernel
  intro c hc
  cases isOperator : Keyword.isOperator c with
  | false => rfl
  | true =>
    rw [Keyword.isOperator, decide_eq_true_eq] at isOperator
    have member := List.all_eq_true.mp operators c isOperator
    have none := noKeyword ⟨⟨[c]⟩, by simpa using member⟩
    cases s with
    | nil => simp at hc
    | cons d s =>
      cases hc
      simp [Text.beginsWith] at none

theorem comment_eq_none_iff (s : Text) :
    comment s = none ↔ Text.beginsWith "REM".toList s = false := by
  simp [comment]

/-- A remark begins with a letter. -/
theorem comment_eq_none {c : Char} {s : Text} (h : c.isAlpha = false) :
    comment (c :: s) = none := by
  rw [comment_eq_none_iff]
  show ('R'.toUpper == c.toUpper && Text.beginsWith ['E', 'M'] s) = false
  rw [Keyword.toUpper_eq_of_not_isAlpha h]
  have other : c ≠ 'R' := by
    rintro rfl
    contradiction
  simp [Ne.symm other]

theorem string_eq_none {c : Char} {s : Text} (h : c ≠ '"') : string (c :: s) = none := by
  unfold string
  split
  · next same => exact absurd (List.cons.inj same).1 h
  · rfl

theorem signLength_eq_zero {s : Text} (h : Text.Stops Keyword.isOperator s) : signLength s = 0 := by
  unfold signLength
  split
  · exact absurd (h '+' rfl) (by decide)
  · exact absurd (h '-' rfl) (by decide)
  · rfl

theorem number_eq_none_iff {s : Text} (unsigned : signLength s = 0) :
    number s = none ↔ countDigits s = 0 ∧ fractionLength s = 0 := by
  simp only [number, unsigned, Nat.zero_add, List.drop_zero]
  constructor
  · intro h
    split at h
    · next none =>
      obtain ⟨whole, fraction⟩ := Nat.add_eq_zero_iff.mp none
      rw [whole, List.drop_zero] at fraction
      exact ⟨whole, fraction⟩
    · simp at h
  · rintro ⟨whole, fraction⟩
    rw [whole, List.drop_zero, fraction, if_pos rfl]

theorem countDigits_eq_zero_iff (s : Text) : countDigits s = 0 ↔ Text.Stops Char.isDigit s := by
  cases s with
  | nil => simp [countDigits, Text.stops_nil]
  | cons c s =>
    cases digit : c.isDigit with
    | false => simp [countDigits, digit, Text.stops_cons]
    | true =>
      have stuck : ¬ Text.Stops Char.isDigit (c :: s) := by
        intro stop
        have := stop c rfl
        rw [digit] at this
        contradiction
      simp [countDigits, digit, stuck]

theorem fractionLength_eq_zero {s : Text} (h : s.head? ≠ some '.') : fractionLength s = 0 := by
  unfold fractionLength
  split
  · exact absurd rfl h
  · rfl

/-- Where neither digit nor point nor operator stands, no number begins. -/
theorem number_eq_none {c : Char} {s : Text} (operator : Keyword.isOperator c = false)
    (digit : c.isDigit = false) (point : c ≠ '.') : number (c :: s) = none := by
  rw [number_eq_none_iff (signLength_eq_zero (Text.stops_cons operator))]
  exact ⟨(countDigits_eq_zero_iff _).mpr (Text.stops_cons digit),
    fractionLength_eq_zero (by simpa using point)⟩

theorem identifier_eq_none {c : Char} {s : Text} (h : c.isAlpha = false) :
    identifier (c :: s) = none := by
  simp [identifier, h]

theorem run_eq_none {accepts : Char → Bool} {make : Nat → Token} {c : Char} {s : Text}
    (h : accepts c = false) : run accepts make (c :: s) = none := by
  simp [run, h]

/-- What the rules in their order read is what the grammar says. -/
theorem reads_of_first {segment rest : Text} {token : Token}
    (h : first (segment ++ rest) = some (.ok (token, segment.length))) :
    token.Reads segment rest := by
  simp only [first, Option.orElse_eq_orElse, Option.orElse_eq_or, Option.or_eq_some_iff] at h
  rcases h with h | ⟨noKeyword, h⟩
  · exact reads_of_keyword h
  rw [keyword, Option.map_eq_none_iff, Keyword.atStart_eq_none_iff] at noKeyword
  have noOperator := stops_isOperator noKeyword
  have unsigned := signLength_eq_zero noOperator
  rcases h with h | ⟨noRemark, h⟩
  · exact reads_of_comment h
  rw [comment_eq_none_iff] at noRemark
  rcases h with h | ⟨-, h⟩
  · exact reads_of_string h
  rcases h with h | ⟨noNumber, h⟩
  · exact reads_of_number unsigned h
  rw [number_eq_none_iff unsigned] at noNumber
  rcases h with h | ⟨-, h⟩
  · exact reads_of_identifier noKeyword noRemark h
  rcases h with h | ⟨-, h⟩
  · obtain ⟨c, rfl, mark, rfl⟩ := reads_of_single h
    exact .trailing mark
  rcases h with h | ⟨-, h⟩
  · obtain ⟨c, rfl, isColon, rfl⟩ := reads_of_single h
    obtain rfl : c = ':' := by simpa using isColon
    exact .colon
  rcases h with h | ⟨-, h⟩
  · obtain ⟨c, rfl, mark, rfl⟩ := reads_of_single h
    refine .punctuation mark (noOperator c rfl) ?_
    rintro rfl
    -- a point with digits after it would have been a number
    rw [← countDigits_eq_zero_iff]
    have fraction := noNumber.2
    by_cases none : countDigits rest = 0
    · exact none
    · simp [fractionLength, none] at fraction
  rcases h with h | ⟨-, h⟩
  · obtain ⟨nonempty, spacing, stop, rfl⟩ := reads_of_run h
    exact .whitespace nonempty spacing stop
  · obtain ⟨nonempty, breaks, stop, rfl⟩ := reads_of_run h
    exact .endOfLine nonempty breaks stop

/-! ## What the grammar allows is read -/

theorem first_of_keyword {k : ReservedWord} {segment rest : Text}
    (same : segment.upper = k.spelling)
    (longest : ∀ k' : ReservedWord, Text.beginsWith k'.spelling (segment ++ rest) = true →
      k'.spelling.length ≤ segment.length) :
    first (segment ++ rest) = some (.ok (.keyword k, segment.length)) := by
  have length : k.spelling.length = segment.length := by rw [← same, Text.length_upper]
  have found : Keyword.atStart (segment ++ rest) = some k := by
    rw [Keyword.atStart_eq_some_iff, length]
    refine ⟨?_, longest⟩
    rw [Text.beginsWith_iff, Text.upper_append, same, k.spelling_plain.2]
    exact List.prefix_append _ _
  simp [first, keyword, found, length]

theorem first_of_comment {text rest : Text} (remark : Text.beginsWith "REM".toList text = true)
    (line : ∀ c ∈ text, isLineBreak c = false)
    (stop : Text.Stops (fun c => !isLineBreak c) rest) :
    first (text ++ rest) = some (.ok (.comment text, text.length)) := by
  have remark' := Text.beginsWith_append_right remark rest
  have noKeyword : keyword (text ++ rest) = none := by
    rw [keyword, Option.map_eq_none_iff, Keyword.atStart_eq_none_iff]
    exact Keyword.not_beginsWith_of_remark remark'
  have taken : (text ++ rest).takeWhile (fun c => !isLineBreak c) = text :=
    Text.takeWhile_append_of_stops (by simpa using line) stop
  have read : comment (text ++ rest) = some (.ok (.comment text, text.length)) := by
    rw [comment, if_pos remark', taken]
  simp [first, noKeyword, read]

theorem first_of_string {body rest : Text} (quotable : Quotable body) :
    first (quote body ++ rest) = some (.ok (.string body, (quote body).length)) := by
  have whole : quote body ++ rest = '"' :: (escape body ++ '"' :: rest) := by simp [quote_eq]
  have read : string (quote body ++ rest) = some (.ok (.string body, (quote body).length)) :=
    string_eq_ok_iff.mpr ⟨body, rest, quotable, rfl, rfl, rfl⟩
  have noKeyword : keyword (quote body ++ rest) = none := by
    rw [whole]
    exact keyword_eq_none rfl
  have noComment : comment (quote body ++ rest) = none := by
    rw [whole]
    exact comment_eq_none rfl
  simp [first, noKeyword, noComment, read]

theorem isDigit_plain {c : Char} (h : c.isDigit = true) :
    c.isAlpha = false ∧ Keyword.isOperator c = false ∧ c ≠ '"' := by
  refine ⟨?_, ?_, ?_⟩
  · -- the digits lie below all letters
    have high : c.toNat ≤ 57 := (Char.isDigit_iff_toNat.mp h).2
    have upper : ¬ 65 ≤ c.toNat := by omega
    have lower : ¬ 97 ≤ c.toNat := by omega
    show (decide (c.val ≥ 65 ∧ c.val ≤ 90) || (decide (c.val ≥ 97) && _)) = false
    simp [UInt32.le_iff_toNat_le, upper, lower]
  · have operators : ("+-*/^><=".toList.all fun c => !c.isDigit) = true := by decide
    rw [Keyword.isOperator, decide_eq_false_iff_not]
    intro member
    have := List.all_eq_true.mp operators c member
    simp [h] at this
  · rintro rfl
    contradiction

/-- A numeral begins with a digit or a point. -/
theorem numeral_head {whole fraction : Text} (wholeDigits : ∀ c ∈ whole, c.isDigit = true)
    (nonempty : whole ++ fraction ≠ []) :
    ∃ c t, numeral whole fraction = c :: t ∧ (c.isDigit = true ∨ c = '.') := by
  cases whole with
  | nil =>
    have some : fraction ≠ [] := by simpa using nonempty
    exact ⟨'.', fraction, by simp [numeral, some], Or.inr rfl⟩
  | cons c whole =>
    exact ⟨c, _, rfl, Or.inl (wholeDigits c List.mem_cons_self)⟩

theorem number_of_numeral {whole fraction rest : Text}
    (wholeDigits : ∀ c ∈ whole, c.isDigit = true)
    (fractionDigits : ∀ c ∈ fraction, c.isDigit = true) (nonempty : whole ++ fraction ≠ [])
    (stop : Text.Stops Char.isDigit rest) (point : fraction = [] → fractionLength rest = 0)
    (unsigned : signLength (numeral whole fraction ++ rest) = 0) :
    number (numeral whole fraction ++ rest) =
      some (.ok (.number (numeral whole fraction), (numeral whole fraction).length)) := by
  simp only [number, unsigned, Nat.zero_add, List.drop_zero]
  by_cases none : fraction = []
  · subst none
    have same : numeral whole [] = whole := by simp [numeral]
    have positive : whole.length ≠ 0 := by simpa using nonempty
    rw [same, countDigits, Text.takeWhile_append_of_stops wholeDigits stop, List.drop_left,
      point rfl]
    simp [positive]
  · have regroup : numeral whole fraction ++ rest = whole ++ '.' :: (fraction ++ rest) := by
      simp [numeral, none]
    have dot : Text.Stops Char.isDigit ('.' :: (fraction ++ rest)) := Text.stops_cons rfl
    have size : (numeral whole fraction).length = whole.length + (fraction.length + 1) := by
      simp [numeral, none]
    have length : fraction.length ≠ 0 := by simpa using none
    have fractional : fractionLength ('.' :: (fraction ++ rest)) = fraction.length + 1 := by
      rw [fractionLength, countDigits, Text.takeWhile_append_of_stops fractionDigits stop,
        if_neg length]
    have counted : countDigits (numeral whole fraction ++ rest) = whole.length := by
      rw [regroup, countDigits, Text.takeWhile_append_of_stops wholeDigits dot]
    have dropped : (numeral whole fraction ++ rest).drop whole.length =
        '.' :: (fraction ++ rest) := by
      rw [regroup, List.drop_left]
    rw [counted, dropped, fractional, ← size, List.take_left, if_neg (by omega)]

theorem first_of_number {whole fraction rest : Text}
    (wholeDigits : ∀ c ∈ whole, c.isDigit = true)
    (fractionDigits : ∀ c ∈ fraction, c.isDigit = true) (nonempty : whole ++ fraction ≠ [])
    (stop : Text.Stops Char.isDigit rest) (point : fraction = [] → fractionLength rest = 0) :
    first (numeral whole fraction ++ rest) =
      some (.ok (.number (numeral whole fraction), (numeral whole fraction).length)) := by
  obtain ⟨c, t, whole_eq, head⟩ := numeral_head wholeDigits nonempty
  have plain : c.isAlpha = false ∧ Keyword.isOperator c = false ∧ c ≠ '"' := by
    rcases head with digit | rfl
    · exact isDigit_plain digit
    · decide
  obtain ⟨letter, operator, notQuote⟩ := plain
  have noKeyword : keyword (numeral whole fraction ++ rest) = none := by
    rw [whole_eq]
    exact keyword_eq_none (by simp [Keyword.startsKeyword, letter, operator])
  have noComment : comment (numeral whole fraction ++ rest) = none := by
    rw [whole_eq]
    exact comment_eq_none letter
  have noString : string (numeral whole fraction ++ rest) = none := by
    rw [whole_eq]
    exact string_eq_none notQuote
  have unsigned : signLength (numeral whole fraction ++ rest) = 0 := by
    rw [whole_eq]
    exact signLength_eq_zero (Text.stops_cons operator)
  have read := number_of_numeral wholeDigits fractionDigits nonempty stop point unsigned
  simp [first, noKeyword, noComment, noString, read]

theorem isAlpha_plain {c : Char} (h : c.isAlpha = true) :
    c.isDigit = false ∧ Keyword.isOperator c = false ∧ c ≠ '"' ∧ c ≠ '.' := by
  refine ⟨?_, ?_, ?_, ?_⟩
  · cases digit : c.isDigit with
    | false => rfl
    | true => exact absurd h (Bool.eq_false_iff.mp (isDigit_plain digit).1)
  · have operators : ("+-*/^><=".toList.all fun c => !c.isAlpha) = true := by decide
    rw [Keyword.isOperator, decide_eq_false_iff_not]
    intro member
    have := List.all_eq_true.mp operators c member
    simp [h] at this
  · rintro rfl
    contradiction
  · rintro rfl
    contradiction

theorem identifier_of_letters {letters sigil rest : Text} (nonempty : letters ≠ [])
    (alpha : ∀ c ∈ letters, c.isAlpha = true)
    (stop : sigil = [] ∧ Text.Stops (fun c => c.isAlpha || isSigil c) rest ∨
      ∃ c, isSigil c = true ∧ sigil = [c]) :
    identifier (letters ++ sigil ++ rest) =
      some (.ok (.identifier (letters ++ sigil), (letters ++ sigil).length)) := by
  have ends : Text.Stops Char.isAlpha (sigil ++ rest) ∧
      sigilLength (sigil ++ rest) = sigil.length := by
    rcases stop with ⟨rfl, stop⟩ | ⟨c, isSigil, rfl⟩
    · cases rest with
      | nil => exact ⟨Text.stops_nil _, rfl⟩
      | cons d rest =>
        have outside := stop d rfl
        simp only [Bool.or_eq_false_iff] at outside
        exact ⟨Text.stops_cons outside.1, by simp [sigilLength, outside.2]⟩
    · have letter : c.isAlpha = false := by
        simp only [CommodoreBasic.isSigil, Bool.or_eq_true, decide_eq_true_eq] at isSigil
        rcases isSigil with rfl | rfl <;> rfl
      exact ⟨Text.stops_cons letter, by simp [sigilLength, isSigil]⟩
  have taken : (letters ++ sigil ++ rest).takeWhile Char.isAlpha = letters := by
    rw [List.append_assoc, Text.takeWhile_append_of_stops alpha ends.1]
  have dropped : (letters ++ sigil ++ rest).drop letters.length = sigil ++ rest := by
    rw [List.append_assoc, List.drop_left]
  simp only [identifier]
  rw [taken, dropped, ends.2, ← List.length_append, List.take_left,
    if_neg (by simpa using nonempty)]

theorem first_of_identifier {letters sigil rest : Text} (nonempty : letters ≠ [])
    (alpha : ∀ c ∈ letters, c.isAlpha = true)
    (stop : sigil = [] ∧ Text.Stops (fun c => c.isAlpha || isSigil c) rest ∨
      ∃ c, isSigil c = true ∧ sigil = [c])
    (noKeyword : ∀ k : ReservedWord, Text.beginsWith k.spelling (letters ++ sigil ++ rest) = false)
    (noRemark : Text.beginsWith "REM".toList (letters ++ sigil ++ rest) = false) :
    first (letters ++ sigil ++ rest) =
      some (.ok (.identifier (letters ++ sigil), (letters ++ sigil).length)) := by
  obtain ⟨c, letters', whole⟩ := List.exists_cons_of_ne_nil nonempty
  obtain ⟨digit, operator, notQuote, notPoint⟩ := isAlpha_plain (alpha c (by simp [whole]))
  have noString : string (letters ++ sigil ++ rest) = none := by
    rw [whole]
    exact string_eq_none notQuote
  have noNumber : number (letters ++ sigil ++ rest) = none := by
    rw [whole]
    exact number_eq_none operator digit notPoint
  have read := @identifier_of_letters _ _ rest nonempty alpha stop
  rw [← Keyword.atStart_eq_none_iff] at noKeyword
  have noKeyword' : keyword (letters ++ sigil ++ rest) = none := by rw [keyword, noKeyword]; rfl
  have noComment := (comment_eq_none_iff _).mpr noRemark
  rw [first, noKeyword', noComment, noString, noNumber, read]
  rfl

/-- A character that begins no keyword, remark, string or name, and no number unless it is a
point. -/
structure Wordless (c : Char) : Prop where
  letter : c.isAlpha = false
  operator : Keyword.isOperator c = false
  digit : c.isDigit = false
  notQuote : c ≠ '"'

/-- Such a character leaves the answer to the rules for marks and for runs. -/
theorem first_of_wordless {c : Char} (wordless : Wordless c) {s : Text}
    (noNumber : number (c :: s) = none) :
    first (c :: s) =
      (single isTrailingMark .trailing (c :: s)
        <|> single (· = ':') (fun _ => .colon) (c :: s)
        <|> single isPunctuation .punctuation (c :: s)
        <|> run isSpacing .whitespace (c :: s)
        <|> run isLineBreak (fun _ => .endOfLine) (c :: s)) := by
  have noStart : Keyword.startsKeyword c = false := by
    simp [Keyword.startsKeyword, wordless.letter, wordless.operator]
  simp [first, keyword_eq_none noStart, comment_eq_none wordless.letter,
    string_eq_none wordless.notQuote, noNumber, identifier_eq_none wordless.letter]

theorem Wordless.number_eq_none {c : Char} (wordless : Wordless c) (notPoint : c ≠ '.') (s : Text) :
    number (c :: s) = none :=
  Rule.number_eq_none wordless.operator wordless.digit notPoint

theorem first_of_punctuation {c : Char} {rest : Text} (mark : isPunctuation c = true)
    (operator : Keyword.isOperator c = false) (point : c = '.' → Text.Stops Char.isDigit rest) :
    first (c :: rest) = some (.ok (.punctuation c, 1)) := by
  have plain : ("-[]!@#%^&*()+_=\x7b\x7d|'<>.?/".toList.all fun c => !c.isAlpha && !c.isDigit &&
      c != '"' && !isTrailingMark c && c != ':') = true := by decide
  have other := List.all_eq_true.mp plain c (by simpa [isPunctuation] using mark)
  simp only [Bool.and_eq_true, Bool.not_eq_true', bne_iff_ne, and_assoc] at other
  obtain ⟨letter, digit, notQuote, notTrailing, notColon⟩ := other
  have wordless : Wordless c := ⟨letter, operator, digit, notQuote⟩
  have noNumber : number (c :: rest) = none := by
    by_cases isPoint : c = '.'
    · subst isPoint
      rw [number_eq_none_iff rfl]
      have none := (countDigits_eq_zero_iff rest).mpr (point rfl)
      exact ⟨rfl, by simp [fractionLength, none]⟩
    · exact wordless.number_eq_none isPoint rest
  simp [first_of_wordless wordless noNumber, single, notTrailing, notColon, mark]

theorem first_of_trailing {c : Char} {rest : Text} (mark : isTrailingMark c = true) :
    first (c :: rest) = some (.ok (.trailing c, 1)) := by
  have plain : Wordless c ∧ c ≠ '.' := by
    simp only [isTrailingMark, Bool.or_eq_true, decide_eq_true_eq] at mark
    rcases mark with rfl | rfl <;> exact ⟨⟨rfl, rfl, rfl, by decide⟩, by decide⟩
  rw [first_of_wordless plain.1 (plain.1.number_eq_none plain.2 rest)]
  simp [single, mark]

theorem first_of_colon {rest : Text} : first (':' :: rest) = some (.ok (.colon, 1)) := by
  have wordless : Wordless ':' := ⟨rfl, rfl, rfl, by decide⟩
  rw [first_of_wordless wordless (wordless.number_eq_none (by decide) rest)]
  simp [single, isTrailingMark]

/-- Before a space or a line end no mark is read either. -/
theorem first_of_space {c : Char} (blank : isSpacing c = true ∨ isLineBreak c = true) (s : Text) :
    first (c :: s) =
      (run isSpacing .whitespace (c :: s) <|> run isLineBreak (fun _ => .endOfLine) (c :: s)) := by
  have plain : Wordless c ∧ c ≠ '.' ∧ isTrailingMark c = false ∧ c ≠ ':' ∧
      isPunctuation c = false := by
    simp only [isSpacing, isLineBreak, Bool.or_eq_true, decide_eq_true_eq] at blank
    rcases blank with (rfl | rfl) | (rfl | rfl) <;>
      exact ⟨⟨rfl, rfl, rfl, by decide⟩, by decide, rfl, by decide, by decide⟩
  obtain ⟨wordless, notPoint, notTrailing, notColon, notMark⟩ := plain
  rw [first_of_wordless wordless (wordless.number_eq_none notPoint s)]
  simp [single, notTrailing, notColon, notMark]

theorem run_of_stops {accepts : Char → Bool} (make : Nat → Token) {segment rest : Text}
    (nonempty : segment ≠ []) (inside : ∀ c ∈ segment, accepts c = true)
    (stop : Text.Stops accepts rest) :
    run accepts make (segment ++ rest) = some (.ok (make segment.length, segment.length)) := by
  simp only [run]
  rw [Text.takeWhile_append_of_stops inside stop, if_neg (by simpa using nonempty)]

/-- What the grammar says is what the rules in their order read. -/
theorem first_of_reads {segment rest : Text} {token : Token} (h : token.Reads segment rest) :
    first (segment ++ rest) = some (.ok (token, segment.length)) := by
  cases h with
  | keyword same longest => exact first_of_keyword same longest
  | comment remark line stop => exact first_of_comment remark line stop
  | string quotable => exact first_of_string quotable
  | number wholeDigits fractionDigits nonempty stop point =>
    exact first_of_number wholeDigits fractionDigits nonempty stop point
  | identifier nonempty alpha stop noKeyword noRemark =>
    exact first_of_identifier nonempty alpha stop noKeyword noRemark
  | trailing mark => exact first_of_trailing mark
  | colon => exact first_of_colon
  | punctuation mark plain point => exact first_of_punctuation mark plain point
  | whitespace nonempty spacing stop =>
    obtain ⟨c, t, rfl⟩ := List.exists_cons_of_ne_nil nonempty
    have read := run_of_stops .whitespace nonempty spacing stop
    rw [List.cons_append] at *
    rw [first_of_space (Or.inl (spacing c List.mem_cons_self)), read]
    rfl
  | endOfLine nonempty breaks stop =>
    obtain ⟨c, t, rfl⟩ := List.exists_cons_of_ne_nil nonempty
    have read := run_of_stops (fun _ => .endOfLine) nonempty breaks stop
    have notSpacing : isSpacing c = false := by
      have isBreak := breaks c List.mem_cons_self
      simp only [isLineBreak, Bool.or_eq_true, decide_eq_true_eq] at isBreak
      rcases isBreak with rfl | rfl <;> rfl
    rw [List.cons_append] at *
    rw [first_of_space (Or.inr (breaks c List.mem_cons_self)), run_eq_none notSpacing, read]
    rfl

end Rule

theorem Token.Reads.nonempty {token : Token} {segment rest : Text}
    (h : token.Reads segment rest) : segment ≠ [] := by
  rintro rfl
  have read := Rule.first_of_reads h
  exact absurd (Rule.fits_first _ _ _ read).1 (by simp)

/-- The first token of a text is read from a segment exactly if the grammar reads it there. -/
theorem firstToken_eq_ok_iff {c : Char} {s segment rest : Text} {token : Token}
    (whole : c :: s = segment ++ rest) :
    firstToken c s = .ok (token, segment.length) ↔ token.Reads segment rest := by
  rw [firstToken, whole]
  constructor
  · intro h
    cases answer : Rule.first (segment ++ rest) with
    | none => simp [answer] at h
    | some found =>
      simp only [answer, Option.getD_some] at h
      exact Rule.reads_of_first (answer.trans (congrArg some h))
  · intro h
    rw [Rule.first_of_reads h]
    rfl

end CommodoreBasic
