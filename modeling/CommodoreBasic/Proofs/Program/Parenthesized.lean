import CommodoreBasic.Proofs.Grammar.Enclosing
import CommodoreBasic.Proofs.Lexical.Joining
import CommodoreBasic.Proofs.Program.LineByLine
import CommodoreBasic.Proofs.Program.Lines
import CommodoreBasic.Proofs.Program.Relisting

/-!
# Parentheses around the statement of a line

If what comes after the label of a line is one statement, then the same text in parentheses is one
statement too, and the statement that it was stands in them, as many columns to the right as there
are parentheses before it. The lexer reads parentheses alone and what is between them as before
(`lex_parenthesized`); the grammar makes a group of each pair (`DerivesStatement.enclose`).

Spaces after the label are read in one run with the blank there, and with parentheses they are not;
so the text is taken apart at the first character that is no space. The main statement is
`Program.parse_parenthesized`.
-/

namespace CommodoreBasic

open Parse

/-! ## Parentheses in a text -/

/-- Opening parentheses, with spaces before the first of them and after the last. -/
theorem lexesAt_openings (e : Encoding) (p : Position) {left right rest : Text}
    (spacing : ∀ c ∈ left, isSpacing c = true) (spacing' : ∀ c ∈ right, isSpacing c = true)
    (stop : Text.Stops isSpacing rest) (depth : Nat) :
    LexesAt e p (left ++ (List.replicate depth '(' ++ right))
      (openings (p.right (e.width left)) depth)
      ((p.right (e.width (left ++ right))).right depth) rest := by
  induction depth generalizing p left with
  | zero =>
    have both : ∀ c ∈ left ++ right, isSpacing c = true := by
      intro c member
      rcases List.mem_append.mp member with member | member
      · exact spacing c member
      · exact spacing' c member
    exact LexesAt.gap both stop
  | succ depth ih =>
    -- the spaces, one parenthesis, and the others with no space before them
    have one : e.width ['('] = 1 := by cases e <;> rfl
    have reads : Token.Reads (.punctuation '(') ['('] (List.replicate depth '(' ++ right ++ rest) :=
      .punctuation rfl rfl (by simp)
    have opened := LexesAt.token reads rfl (by simp) (e := e) (p := p.right (e.width left))
    have others := @ih ((p.right (e.width left)).right 1) [] (by simp)
    rw [one] at opened
    have all := (LexesAt.gap spacing (Text.stops_cons rfl)).append (opened.append others)
    have stops : (((p.right (e.width left)).right 1).right (e.width ([] ++ right))).right depth =
        (p.right (e.width (left ++ right))).right (depth + 1) := by
      rw [List.nil_append, e.width_append]
      simp only [Position.right_right]
      congr 1
      omega
    rwa [stops] at all

theorem lexesAt_closings (e : Encoding) (p : Position) (depth : Nat) :
    ∃ closings q, closings.length = depth ∧ (∀ m ∈ closings, m.token = .punctuation ')') ∧
      LexesAt e p (List.replicate depth ')') closings q [] := by
  induction depth generalizing p with
  | zero => exact ⟨[], p, rfl, by simp, .nil e p []⟩
  | succ depth ih =>
    obtain ⟨closings, q, length, close, lexes⟩ := ih (p.right (e.width [')']))
    have reads : Token.Reads (.punctuation ')') [')'] (List.replicate depth ')' ++ []) :=
      .punctuation rfl rfl (by simp)
    have closed := (LexesAt.token reads rfl (by simp)).append lexes
    refine ⟨_, q, ?_, ?_, closed⟩
    · simp [length]
    · simpa using close

/-! ## The line of a statement -/

/-- A label, spaces and then a text that begins with none are cut apart. -/
theorem cut_labelled (n : Nat) {gap s : Text} (spacing : ∀ c ∈ gap, isSpacing c = true)
    (stop : Text.Stops isSpacing s) :
    cut (decimal n ++ ' ' :: (gap ++ s)) =
      ((cut s).cons ⟨.whitespace (' ' :: gap).length, ' ' :: gap⟩).cons
        ⟨.number (decimal n), decimal n⟩ := by
  have blanks : Token.Reads (.whitespace (' ' :: gap).length) (' ' :: gap) s :=
    .whitespace (by simp) (List.forall_mem_cons.mpr ⟨rfl, spacing⟩) stop
  rw [cut_of_reads (reads_label n (Text.delimited_cons (by decide) _)), ← List.cons_append,
    cut_of_reads blanks]

/-- Where the first character stands that is no space. -/
def bodyStart (e : Encoding) (n : Nat) (gap : Text) : Position :=
  (Position.start.right (e.width (decimal n ++ [' ']))).right (e.width gap)

theorem place_labelled (e : Encoding) (n : Nat) {gap s : Text}
    (spacing : ∀ c ∈ gap, isSpacing c = true) (stop : Text.Stops isSpacing s) :
    place e .start (cut (decimal n ++ ' ' :: (gap ++ s))).pieces =
      ⟨.number (decimal n), .start, e.width (decimal n)⟩ ::
        place e (bodyStart e n gap) (cut s).pieces := by
  have moved : (Position.start.right (e.width (decimal n))).right (e.width (' ' :: gap)) =
      bodyStart e n gap := by
    rw [bodyStart, Position.right_right, Position.right_right, ← List.singleton_append,
      e.width_append, e.width_append, Nat.add_assoc]
  rw [cut_labelled n spacing stop, ← moved]
  rfl

/-- A text after a label that is one statement is derived as this statement. -/
theorem derives_of_labelled {e : Encoding} {n : Nat} {gap s : Text} {line : Line}
    {statement : Statement} (spacing : ∀ c ∈ gap, isSpacing c = true)
    (stop : Text.Stops isSpacing s) (plain : Text.IsLine s)
    (h : readLines e (decimal n ++ ' ' :: (gap ++ s)) = .ok [line])
    (one : line.statements = [statement]) :
    IsLabel (.number (decimal n)) n ∧ (cut s).fault = none ∧
      DerivesStatement (place e (bodyStart e n gap) (cut s).pieces) statement := by
  obtain ⟨clean, derived⟩ := derives_of_readLines h
  rw [place_labelled e n spacing stop] at derived
  rw [cut_labelled n spacing stop] at clean
  have inner : ∀ l ∈ ⟨.number (decimal n), .start, e.width (decimal n)⟩ ::
      place e (bodyStart e n gap) (cut s).pieces, l.token ≠ .endOfLine := by
    intro l member
    rcases List.mem_cons.mp member with rfl | member
    · simp
    · exact (mem_place_of_line plain member).2
  have content := derived.of_line inner
  generalize whole : Lexeme.mk _ _ _ :: place _ _ _ = ls at content
  cases content with
  | comment => contradiction
  | statements label statements =>
    obtain ⟨rfl, rfl⟩ := List.cons.inj whole
    obtain rfl : _ = [statement] := one
    refine ⟨?_, clean, statements.of_one⟩
    cases label with
    | digits _ _ word =>
      rw [ofDigitChars_decimal] at word
      exact isLabel_decimal word

/-- Lexemes that a statement is derived from are cut from no remark. -/
theorem ne_comment_of_derives {e : Encoding} {p : Position} {pieces : List Piece}
    {statement : Statement} (h : DerivesStatement (place e p pieces) statement) :
    ∀ piece ∈ pieces, ∀ text, piece.token ≠ .comment text := by
  intro piece member text same
  have kept : piece.token ∈ (place e p pieces).map Lexeme.token := by
    rw [map_token_place]
    exact List.mem_filter.mpr ⟨List.mem_map_of_mem member, by rw [same]; rfl⟩
  obtain ⟨l, placed, token⟩ := List.mem_map.mp kept
  exact h.ne_comment l placed text (token.trans same)

/-- The lexemes of a text in parentheses after a label: the parentheses, and between them the
lexemes that the text has without them, further to the right. -/
theorem lex_parenthesized (e : Encoding) (n : Nat) {gap s : Text}
    (spacing : ∀ c ∈ gap, isSpacing c = true) (stop : Text.Stops isSpacing s)
    (plain : Text.IsLine s) (clean : (cut s).fault = none)
    (other : ∀ piece ∈ (cut s).pieces, ∀ text, piece.token ≠ .comment text) (depth : Nat) :
    ∃ closings q, closings.length = depth ∧ (∀ m ∈ closings, m.token = .punctuation ')') ∧
      lex e (decimal n ++
          ' ' :: (List.replicate depth '(' ++ (gap ++ s) ++ List.replicate depth ')')) =
        .ok (⟨.number (decimal n), .start, e.width (decimal n)⟩ ::
          (openings (Position.start.right (e.width (decimal n ++ [' ']))) depth ++
            ((place e (bodyStart e n gap) (cut s).pieces).map
              (Lexeme.relocate (Position.right depth)) ++ closings)) ++
            [⟨.endOfInput, q, 0⟩]) := by
  obtain ⟨closings, q, length, close, closed⟩ := lexesAt_closings e
    ((endOf e (bodyStart e n gap) (cut s).pieces).right depth) depth
  refine ⟨closings, q, length, close, ?_⟩
  -- no word, space or line end goes on into a closing parenthesis
  have ends : ∀ accepts : Char → Bool, accepts ')' = false →
      Text.Stops accepts (List.replicate depth ')' ++ []) := by
    intro accepts outside
    cases depth with
    | zero => exact Text.stops_nil _
    | succ depth => exact Text.stops_cons outside
  have body := LexesAt.of_cut (e := e) (bodyStart e n gap) plain clean other depth
    (ends _ (by decide)) (ends _ rfl) (ends _ rfl)
  have inside := body.append closed
  have blank : ∀ c ∈ [' '], isSpacing c = true := by simp [isSpacing]
  have follows : Text.Stops isSpacing (s ++ List.replicate depth ')' ++ []) := by
    rw [List.append_assoc]
    exact (Text.stops_append_iff (ends _ rfl) s).mpr stop
  have opened := lexesAt_openings e (Position.start.right (e.width (decimal n))) blank spacing
    follows depth
  have first : (Position.start.right (e.width (decimal n))).right (e.width [' ']) =
      Position.start.right (e.width (decimal n ++ [' '])) := by
    rw [Position.right_right, e.width_append]
  have last : (Position.start.right (e.width (decimal n))).right (e.width ([' '] ++ gap)) =
      bodyStart e n gap := by
    rw [e.width_append, ← Position.right_right, first, bodyStart]
  rw [first, last] at opened
  have number : Token.Reads (.number (decimal n)) (decimal n)
      ([' '] ++ (List.replicate depth '(' ++ gap) ++ (s ++ List.replicate depth ')') ++ []) :=
    reads_label n (Text.delimited_cons (by decide) _)
  have labelled := LexesAt.token (e := e) (p := .start) number rfl (by simp)
  have lexed := (labelled.append (opened.append inside)).lex
  simpa only [List.append_assoc, List.cons_append, List.nil_append] using lexed

/-- If a label and a text on its line are one statement, they are one statement with the text in
any number of parentheses. The first of these stands where the text began, each of the others in
the next column, and the statement that the text was stands in them, as many columns further to the
right. -/
theorem Program.parse_parenthesized {e : Encoding} {source : Text} {n : Nat} {text : Text}
    {p : Program} {line : Line} {statement : Statement} (plain : Text.IsLine text)
    (h : parse e source (decimal n ++ ' ' :: text) = .ok p) (single : p.lines = [line])
    (one : line.statements = [statement]) (depth : Nat) :
    parse e source
        (decimal n ++ ' ' :: (List.replicate depth '(' ++ text ++ List.replicate depth ')')) =
      .ok (ofLines source [⟨n, .start, .statements
        [(statement.relocate (Position.right depth)).enclose
          (Position.start.right (e.width (decimal n ++ [' ']))) depth]⟩]) := by
  obtain ⟨gap, s, rfl, -, spacing, stop⟩ := Rule.takeWhile_split isSpacing text
  obtain ⟨lines, read, rfl⟩ := parse_eq_ok_iff.mp h
  obtain rfl : lines = [line] := single
  have inner : Text.IsLine s := fun c member => plain c (List.mem_append_right _ member)
  obtain ⟨label, clean, derived⟩ := derives_of_labelled spacing stop inner read one
  obtain ⟨closings, q, length, close, lexed⟩ :=
    lex_parenthesized e n spacing stop inner clean (ne_comment_of_derives derived) depth
  have statements := (derived.relocate (Position.right depth)).enclose
    (Position.start.right (e.width (decimal n ++ [' ']))) length close
  have content := @DerivesLine.statements ⟨.number (decimal n), .start, e.width (decimal n)⟩ n _ _
    label (.one statements)
  have ends : EndsInput [⟨.endOfInput, q, 0⟩] := by
    rintro l ⟨⟩
    rfl
  refine parse_eq_ok_iff.mpr ⟨_, readLines_eq_ok_iff.mpr ⟨_, lexed, ?_⟩, rfl⟩
  exact (DerivesProgram.last content).parse ends

/-- A string that holds a parenthesis, a group and trailing marks, with a tab before them, in two
pairs of parentheses. -/
theorem parse_parenthesized_twice :
    ∃ p line statement, Text.IsLine "\tprint\"ü(\",(x%;);".toList ∧
      Program.parse .utf8 [] (decimal 10 ++ ' ' :: "\tprint\"ü(\",(x%;);".toList) = .ok p ∧
      p.lines = [line] ∧ line.statements = [statement] ∧
      statement.position = ⟨1, 5⟩ ∧
      Program.parse .utf8 [] "10 ((\tprint\"ü(\",(x%;);))".toList =
        .ok (Program.ofLines [] [⟨10, .start, .statements
          [(statement.relocate (Position.right 2)).enclose ⟨1, 4⟩ 2]⟩]) := by
  have read : (Program.parse .utf8 []
      (decimal 10 ++ ' ' :: "\tprint\"ü(\",(x%;);".toList)).toOption.map
        (fun p => p.lines.map fun l => l.statements.map Statement.position) =
      some [[⟨1, 5⟩]] := by
    decide +kernel
  obtain ⟨p, parsed, begins⟩ := Program.exists_parse_of_map read
  obtain ⟨line, single, statements⟩ := List.map_eq_singleton_iff.mp begins
  obtain ⟨statement, one, position⟩ := List.map_eq_singleton_iff.mp statements
  have none : ("\tprint\"ü(\",(x%;);".toList.all fun c => !isLineBreak c) = true := by rfl
  have plain : Text.IsLine "\tprint\"ü(\",(x%;);".toList := by
    intro c member
    simpa using List.all_eq_true.mp none c member
  exact ⟨p, line, statement, plain, parsed, single, one, position,
    Program.parse_parenthesized plain parsed single one 2⟩

end CommodoreBasic
