import CommodoreBasic.Proofs.Lexical.Segmentation

/-!
# The lexer does not look past the end of a line

No token but the end of a line depends on what comes after the line that it stands on
(`Token.Reads.append_iff`), and neither does a fault (`firstToken_append_error`). So a line is cut
in one way whether the text goes on after it or not: `cut_append` and `cut_append_of_fault`.
-/

namespace CommodoreBasic

namespace Text

/-- A place where a line ends, or the text. -/
abbrev EndsLine (rest : Text) : Prop := Stops (fun c => !isLineBreak c) rest

/-- A text without line ends. -/
abbrev IsLine (s : Text) : Prop := ∀ c ∈ s, isLineBreak c = false

/-- The classes of characters that tokens consist of stop at the end of a line. -/
theorem stops_of_endsLine {accepts : Char → Bool} (feed : accepts '\n' = false)
    (ret : accepts '\r' = false) {rest : Text} (ends : EndsLine rest) : Stops accepts rest := by
  intro c hc
  have isBreak := ends c hc
  simp only [isLineBreak, Bool.not_eq_false', Bool.or_eq_true, decide_eq_true_eq] at isBreak
  rcases isBreak with rfl | rfl
  · exact feed
  · exact ret

/-- What stops before more text stops before less. -/
theorem stops_of_append {accepts : Char → Bool} {s rest : Text} (stop : Stops accepts (s ++ rest)) :
    Stops accepts s := by
  intro c first
  exact stop c (by rw [List.head?_append, first]; rfl)

theorem stops_append_iff {accepts : Char → Bool} {rest : Text} (stop : Stops accepts rest)
    (s : Text) : Stops accepts (s ++ rest) ↔ Stops accepts s := by
  refine ⟨stops_of_append, fun h => ?_⟩
  cases s with
  | nil => exact stop
  | cons c s => exact h

end Text

theorem Rule.fractionLength_eq_zero_iff (s : Text) :
    fractionLength s = 0 ↔ ∀ t, s = '.' :: t → Text.Stops Char.isDigit t := by
  unfold fractionLength
  split
  · next t =>
    rw [ite_eq_left_iff]
    constructor
    · intro none t' same
      cases same
      rw [← countDigits_eq_zero_iff]
      by_cases digits : countDigits t = 0
      · exact digits
      · exact absurd (none digits) (by omega)
    · intro stop digits
      exact absurd ((countDigits_eq_zero_iff t).mpr (stop t rfl)) digits
  · next other =>
    simp only [true_iff]
    intro t same
    exact absurd same (other t)

theorem Rule.fractionLength_of_append {s rest : Text} (h : fractionLength (s ++ rest) = 0) :
    fractionLength s = 0 := by
  rw [fractionLength_eq_zero_iff] at h ⊢
  rintro t rfl
  exact Text.stops_of_append (h (t ++ rest) rfl)

theorem Rule.fractionLength_append {rest : Text} (point : rest.head? ≠ some '.')
    (digits : Text.Stops Char.isDigit rest) (s : Text) :
    fractionLength (s ++ rest) = 0 ↔ fractionLength s = 0 := by
  refine ⟨fractionLength_of_append, fun h => ?_⟩
  rw [fractionLength_eq_zero_iff] at h ⊢
  cases s with
  | nil =>
    rintro t rfl
    exact absurd rfl point
  | cons c s =>
    rintro t same
    cases same
    exact (Text.stops_append_iff digits s).mpr (h s rfl)

/-- Nothing that is read from a segment goes on into `later` further than into `rest`. -/
structure Shields (segment rest later : Text) : Prop where
  keyword : ∀ k : ReservedWord, Text.beginsWith k.spelling (segment ++ later) = true →
    Text.beginsWith k.spelling (segment ++ rest) = true
  remark : Text.beginsWith "REM".toList (segment ++ later) = true →
    Text.beginsWith "REM".toList (segment ++ rest) = true
  line : Text.EndsLine rest → Text.EndsLine later
  stops : ∀ accepts : Char → Bool, accepts '\n' = false → accepts '\r' = false →
    Text.Stops accepts rest → Text.Stops accepts later
  fraction : Rule.fractionLength rest = 0 → Rule.fractionLength later = 0

theorem Token.Reads.transfer {token : Token} {segment rest later : Text}
    (h : token.Reads segment rest) (other : token ≠ .endOfLine)
    (shields : Shields segment rest later) : token.Reads segment later := by
  cases h with
  | keyword same longest => exact .keyword same fun k begins => longest k (shields.keyword k begins)
  | comment remark line stop => exact .comment remark line (shields.line stop)
  | string quotable => exact .string quotable
  | number whole fraction nonempty stop point =>
    exact .number whole fraction nonempty (shields.stops _ rfl rfl stop) fun empty =>
      shields.fraction (point empty)
  | identifier nonempty alpha stop noKeyword noRemark =>
    refine .identifier nonempty alpha ?_ ?_ ?_
    · exact stop.imp_left fun ⟨empty, stop⟩ => ⟨empty, shields.stops _ rfl rfl stop⟩
    · intro k
      rw [Bool.eq_false_iff]
      exact mt (shields.keyword k) (Bool.eq_false_iff.mp (noKeyword k))
    · rw [Bool.eq_false_iff]
      exact mt shields.remark (Bool.eq_false_iff.mp noRemark)
  | trailing mark => exact .trailing mark
  | colon => exact .colon
  | punctuation mark plain point =>
    exact .punctuation mark plain fun same => shields.stops _ rfl rfl (point same)
  | whitespace nonempty spacing stop =>
    exact .whitespace nonempty spacing (shields.stops _ rfl rfl stop)
  | endOfLine => exact absurd rfl other

/-- What a token is read from does not depend on what comes after its line. -/
theorem Token.Reads.append_iff {token : Token} {segment rest : Text} (s : Text)
    (other : token ≠ .endOfLine) (ends : Text.EndsLine rest) :
    token.Reads segment (s ++ rest) ↔ token.Reads segment s := by
  have outside : ∀ c, rest.head? = some c → Keyword.isOutside c = true :=
    fun c hc => isOutside_of_isLineBreak (by simpa using ends c hc)
  have keyword : ∀ k : ReservedWord, Text.beginsWith k.spelling (segment ++ (s ++ rest)) =
      Text.beginsWith k.spelling (segment ++ s) := by
    intro k
    rw [← List.append_assoc, Keyword.beginsWith_append outside]
  have remark : Text.beginsWith "REM".toList (segment ++ (s ++ rest)) =
      Text.beginsWith "REM".toList (segment ++ s) := by
    rw [← List.append_assoc, Keyword.beginsWith_remark_append outside]
  have line := Text.stops_append_iff ends s
  have stops : ∀ accepts : Char → Bool, accepts '\n' = false → accepts '\r' = false →
      (Text.Stops accepts (s ++ rest) ↔ Text.Stops accepts s) :=
    fun _ feed ret => Text.stops_append_iff (Text.stops_of_endsLine feed ret ends) s
  have point : rest.head? ≠ some '.' := fun first => absurd (ends '.' first) (by decide)
  have fraction := Rule.fractionLength_append point (Text.stops_of_endsLine rfl rfl ends) s
  -- all that the grammar asks about the text after a token has one answer on both sides
  constructor
  · intro h
    refine h.transfer other ⟨?_, ?_, line.mp, fun a f r => (stops a f r).mp, fraction.mp⟩
    · intro k begins
      rwa [keyword]
    · intro begins
      rwa [remark]
  · intro h
    refine h.transfer other ⟨?_, ?_, line.mpr, fun a f r => (stops a f r).mpr, fraction.mpr⟩
    · intro k begins
      rwa [keyword] at begins
    · intro begins
      rwa [remark] at begins

theorem Token.Reads.ne_endOfInput {token : Token} {segment rest : Text}
    (h : token.Reads segment rest) : token ≠ .endOfInput := by
  cases h <;> simp

/-- Nothing that is cut from a text ends the input. -/
theorem ne_endOfInput_of_mem_place {e : Encoding} {p : Position} {s : Text} {l : Lexeme}
    (h : l ∈ place e p (cut s).pieces) : l.token ≠ .endOfInput := by
  obtain ⟨segment, later, reads⟩ := reads_of_mem_place h
  exact reads.ne_endOfInput

/-- On a line no end of line is read. -/
theorem Token.Reads.ne_endOfLine {token : Token} {segment rest : Text}
    (h : token.Reads segment rest) {c : Char} (first : segment.head? = some c)
    (plain : isLineBreak c = false) : token ≠ .endOfLine := by
  rintro rfl
  cases h with
  | endOfLine nonempty breaks stop =>
    rw [breaks c (List.mem_of_head? first)] at plain
    contradiction

/-! ## Faults -/

/-- No rule but the one for strings finds fault with a text. -/
theorem Rule.string_of_first {s : Text} {fault : LexicalFault}
    (h : first s = some (.error fault)) : string s = some (.error fault) := by
  have single : ∀ (accepts : Char → Bool) make, single accepts make s ≠ some (.error fault) := by
    intro accepts make
    unfold Rule.single
    split
    · split <;> simp
    · simp
  have run : ∀ (accepts : Char → Bool) make, run accepts make s ≠ some (.error fault) := by
    intro accepts make
    simp only [Rule.run]
    split <;> simp
  simp only [first, Option.orElse_eq_orElse, Option.orElse_eq_or, Option.or_eq_some_iff] at h
  rcases h with h | ⟨-, h | ⟨-, h | ⟨-, h | ⟨-, h | ⟨-, h | ⟨-, h | ⟨-, h | ⟨-, h | ⟨-, h⟩⟩⟩⟩⟩⟩⟩⟩⟩
  · simp [keyword] at h
  · simp [comment] at h
  · exact h
  · simp [number] at h
  · simp [identifier] at h
  · exact absurd h (single _ _)
  · exact absurd h (single _ _)
  · exact absurd h (single _ _)
  · exact absurd h (run _ _)
  · exact absurd h (run _ _)

/-- What is wrong where no token can be read is a matter of the character that stands there. -/
theorem fault_of_firstToken {c : Char} {s : Text} {fault : LexicalFault}
    (h : firstToken c s = .error fault) :
    fault = if c = '"' then .unterminatedString else .unexpectedCharacter c := by
  unfold firstToken at h
  cases answer : Rule.first (c :: s) with
  | none =>
    have notQuote : c ≠ '"' := by
      rintro rfl
      simp only [Rule.first, Option.orElse_eq_orElse, Option.orElse_eq_or, Option.or_eq_none_iff,
        Rule.string] at answer
      split at answer <;> simp at answer
    rw [answer] at h
    cases h
    rw [if_neg notQuote]
  | some found =>
    rw [answer, Option.getD_some] at h
    subst h
    have opened := Rule.string_of_first answer
    unfold Rule.string at opened
    split at opened
    · next same =>
      obtain ⟨rfl, -⟩ := List.cons.inj same
      split at opened <;> simp_all
    · contradiction

/-- A line end is always read. -/
theorem isLineBreak_of_fault {c : Char} {s : Text} {fault : LexicalFault}
    (h : firstToken c s = .error fault) : isLineBreak c = false := by
  cases isBreak : isLineBreak c with
  | false => rfl
  | true =>
    obtain ⟨run, rest, whole, -, breaks, stop⟩ := Rule.takeWhile_split isLineBreak (c :: s)
    have nonempty : run ≠ [] := by
      rintro rfl
      have stopped : isLineBreak c = false :=
        stop c (by rw [← whole.trans (List.nil_append rest)]; rfl)
      exact Bool.noConfusion (isBreak.symm.trans stopped)
    have read := (firstToken_eq_ok_iff whole).mpr (.endOfLine nonempty breaks stop)
    cases h.symm.trans read

theorem Text.append_of_line {segment after s rest : Text} (line : IsLine segment)
    (ends : EndsLine rest) (whole : segment ++ after = s ++ rest) :
    ∃ left, s = segment ++ left ∧ after = left ++ rest := by
  rcases List.append_eq_append_iff.mp whole with ⟨left, same, split⟩ | ⟨tail, same, split⟩
  · exact ⟨left, same, split⟩
  · cases tail with
    | nil => exact ⟨[], by simpa using same.symm, by simpa using split.symm⟩
    | cons c tail =>
      have isBreak : (!isLineBreak c) = false := ends c (by rw [split]; rfl)
      have plain := line c (by rw [same]; simp)
      rw [plain] at isBreak
      contradiction

/-- Where no token can be read, none can be read with more text after the line. -/
theorem firstToken_append_error {c : Char} {s rest : Text} {fault : LexicalFault}
    (plain : isLineBreak c = false) (ends : Text.EndsLine rest)
    (h : firstToken c s = .error fault) : firstToken c (s ++ rest) = .error fault := by
  cases read : firstToken c (s ++ rest) with
  | error fault' => rw [fault_of_firstToken h, fault_of_firstToken read]
  | ok found =>
    obtain ⟨token, n⟩ := found
    obtain ⟨positive, within⟩ := firstToken_length read
    obtain ⟨segment, after, whole, rfl⟩ : ∃ segment after, c :: (s ++ rest) = segment ++ after ∧
        n = segment.length :=
      ⟨(c :: (s ++ rest)).take n, (c :: (s ++ rest)).drop n, (List.take_append_drop ..).symm, by
        rw [List.length_take, List.length_cons, Nat.min_eq_left within]⟩
    have reads := (firstToken_eq_ok_iff whole).mp read
    have first : segment.head? = some c := by
      obtain ⟨d, t, rfl⟩ := List.exists_cons_of_ne_nil reads.nonempty
      rw [(List.cons.inj whole).1]
      rfl
    have other := reads.ne_endOfLine first plain
    -- the token ends on the line, so it is read there without the rest too
    have split : segment ++ after = (c :: s) ++ rest := whole.symm
    obtain ⟨left, whole', rfl⟩ := Text.append_of_line (reads.line other) ends split
    have reads' := (Token.Reads.append_iff left other ends).mp reads
    have read' := (firstToken_eq_ok_iff whole').mpr reads'
    rw [h] at read'
    contradiction

/-! ## Cutting a line -/

theorem Chained.ne_endOfLine {pieces : List Piece} {rest : Text} (chain : Chained rest pieces)
    (line : Text.IsLine (Piece.textOf pieces)) : ∀ piece ∈ pieces, piece.token ≠ .endOfLine := by
  induction chain with
  | nil => simp
  | @cons head pieces reads _ ih =>
    rw [Piece.textOf_cons] at line
    intro piece member
    rcases List.mem_cons.mp member with rfl | member
    · obtain ⟨c, t, split⟩ := List.exists_cons_of_ne_nil reads.nonempty
      exact reads.ne_endOfLine (c := c) (by rw [split]; rfl) (line c (by simp [split]))
    · exact ih (fun c hc => line c (List.mem_append_right _ hc)) piece member

/-- A line is cut into pieces that end no line. -/
theorem pieces_of_line {s : Text} (line : Text.IsLine s) :
    ∀ piece ∈ (cut s).pieces, piece.token ≠ .endOfLine := by
  obtain ⟨unread, whole, chain, -⟩ := chained_cut s
  exact chain.ne_endOfLine fun c hc => line c (whole ▸ List.mem_append_left unread hc)

/-- A chain of tokens on a line stays one with more text after the line. -/
theorem Chained.append_rest {pieces : List Piece} {s rest : Text} (chain : Chained s pieces)
    (other : ∀ piece ∈ pieces, piece.token ≠ .endOfLine) (ends : Text.EndsLine rest) :
    Chained (s ++ rest) pieces := by
  induction chain with
  | nil => exact .nil
  | @cons piece pieces reads _ ih =>
    refine .cons ?_ (ih fun p member => other p (List.mem_cons_of_mem _ member))
    rw [← List.append_assoc]
    exact (Token.Reads.append_iff _ (other piece List.mem_cons_self) ends).mpr reads

/-- A line without a fault is cut in the same way whatever comes after it. -/
theorem cut_append {s rest : Text} (line : Text.IsLine s) (ends : Text.EndsLine rest)
    (clean : (cut s).fault = none) :
    cut (s ++ rest) = ⟨(cut s).pieces ++ (cut rest).pieces, (cut rest).fault⟩ := by
  obtain ⟨whole, chain⟩ := chained_of_fault_eq_none clean
  have longer := chain.append_rest (chain.ne_endOfLine (whole ▸ line)) ends
  have read := cut_of_chained longer
  rwa [← whole, List.nil_append] at read

/-- A line with a fault is cut up to the fault whatever comes after it. -/
theorem cut_append_of_fault {s rest : Text} (line : Text.IsLine s) (ends : Text.EndsLine rest)
    {fault : LexicalFault} (faulty : (cut s).fault = some fault) : cut (s ++ rest) = cut s := by
  obtain ⟨unread, whole, chain, ⟨clean, -⟩ | ⟨c, t, fault', stuck, rfl, read⟩⟩ := chained_cut s
  · rw [clean] at faulty
    contradiction
  · have before : Text.IsLine (Piece.textOf (cut s).pieces) :=
      fun d hd => line d (whole ▸ List.mem_append_left _ hd)
    have plain : isLineBreak c = false := line c (whole ▸ by simp)
    have stuck' : cut (c :: t ++ rest) = ⟨[], some fault'⟩ := by
      rw [List.cons_append, cut_cons, firstToken_append_error plain ends read]
    have longer := cut_of_chained (chain.append_rest (chain.ne_endOfLine before) ends)
    rw [← List.append_assoc, ← whole, stuck', List.append_nil, ← stuck] at longer
    exact longer

end CommodoreBasic
