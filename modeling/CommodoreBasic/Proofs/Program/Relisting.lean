import CommodoreBasic.Program.Basic
import CommodoreBasic.Proofs.Grammar.Acceptance
import CommodoreBasic.Proofs.Grammar.Reread
import CommodoreBasic.Proofs.Lexical.Respacing

/-!
# Listing a program and reading it again

The canonical text of a program that was read is read to the same lines, at other places. What the
texts of the nodes of a tree are cut into is put together by `LexesTo`: every word of a listing is
followed by one of a few characters that end it (`Text.Delimited`), so no keyword, name or number
goes on into the next one.

The main statements are `Program.parse_text` and, for programs with numbers too large for a numeral
in them, `Program.text_parse_text`.
-/

namespace CommodoreBasic

/-! ## What follows a word of a listing -/

namespace Text

/-- The text goes on with one of the characters that end every word. -/
def Delimited (rest : Text) : Prop := ∃ c s, c ∈ " ),;\n".toList ∧ rest = c :: s

theorem delimited_cons {c : Char} (delimiter : c ∈ " ),;\n".toList) (s : Text) :
    Delimited (c :: s) := ⟨c, s, delimiter, rfl⟩

/-- Words end there. -/
theorem Delimited.endsWord {rest : Text} (h : Delimited rest) : EndsWord rest := by
  have plain : (" ),;\n".toList.all isWordEnd) = true := by decide
  obtain ⟨c, s, delimiter, rfl⟩ := h
  exact stops_cons (by simpa using List.all_eq_true.mp plain c delimiter)

end Text

/-- The text of an item of one token is read as this token. -/
theorem Atom.Listed.reads {a : Atom} {t : Token} (h : a.Listed t) {rest : Text}
    (ends : rest.Delimited) : t.Reads a.text rest ∧ t.isSpace = false := by
  cases h with
  | keyword k => exact ⟨reads_keyword k ends.endsWord, rfl⟩
  | @number x finite =>
    obtain ⟨whole, fraction, shown, nonempty, wholeDigits, fractionDigits, -⟩ :=
      Magnitude.text_eq_numeral finite
    refine ⟨?_, rfl⟩
    show Token.Reads (.number x.text) x.text rest
    rw [shown]
    exact .number wholeDigits fractionDigits (by simp [nonempty]) ends.endsWord.digits
      fun _ => ends.endsWord.fractionLength
  | name nonempty alpha mark noKeyword noRemark =>
    exact ⟨reads_name nonempty alpha mark noKeyword noRemark ends.endsWord, rfl⟩
  | string quotable => exact ⟨.string quotable, rfl⟩

/-! ## The text of a tree -/

theorem LexesTo.mark {mark : Option Char} (trail : ∀ c ∈ mark, isTrailingMark c = true)
    {t rest : Text} {ts : List Token} (later : LexesTo t ts rest) :
    LexesTo (mark.toList ++ t) (markTokens mark ++ ts) rest := by
  cases mark with
  | none => exact later
  | some c => exact later.cons (.trailing (trail c rfl)) rfl

theorem Text.Delimited.mark {mark : Option Char} (trail : ∀ c ∈ mark, isTrailingMark c = true)
    {rest : Text} (h : Delimited rest) : Delimited (mark.toList ++ rest) := by
  cases mark with
  | none => exact h
  | some c =>
    have isMark := trail c rfl
    simp only [isTrailingMark, Bool.or_eq_true, decide_eq_true_eq] at isMark
    refine delimited_cons ?_ rest
    rcases isMark with rfl | rfl <;> decide

/-- The text of the items after the first one. -/
def Item.tailText (items : List Item) : Text :=
  if items = [] then [] else ' ' :: Item.listText items

theorem Item.listText_cons (i : Item) (items : List Item) :
    Item.listText (i :: items) = i.text ++ Item.tailText items := by
  cases items with
  | nil => simp [Item.listText, Item.tailText]
  | cons j items => simp [Item.listText, Item.tailText]

/-- What holds of the text of items before a delimiter: it gives their tokens, and it does not
begin with a space. -/
def ItemsLex (items : List Item) (ts : List Token) (rest : Text) : Prop :=
  LexesTo (Item.listText items) ts rest ∧
    (items ≠ [] → Text.Stops isSpacing (Item.listText items ++ rest))

theorem ItemsLex.tail {items : List Item} {ts : List Token} {rest : Text}
    (h : ItemsLex items ts rest) (ends : rest.Delimited) :
    LexesTo (Item.tailText items) ts rest ∧ (Item.tailText items ++ rest).Delimited := by
  unfold Item.tailText
  split
  · next none =>
    subst none
    exact ⟨h.1, ends⟩
  · next some => exact ⟨h.1.blank (h.2 some), Text.delimited_cons (by decide) _⟩

theorem Item.Listed.lex {items : List Item} {ts : List Token} (h : Item.Listed items ts)
    {rest : Text} (ends : rest.Delimited) : ItemsLex items ts rest := by
  induction h generalizing rest with
  | nil => exact ⟨.nil rest, fun some => absurd rfl some⟩
  | @atom p a t mark items ts head trail _ ih =>
    obtain ⟨tail, delimited⟩ := (ih ends).tail ends
    have text : Item.listText (.atom p a mark :: items) =
        a.text ++ (mark.toList ++ Item.tailText items) := by
      rw [Item.listText_cons, Item.text, List.append_assoc]
    -- a mark, or else the blank before the next item, or else what follows all items ends the word
    have after : Text.Delimited (mark.toList ++ Item.tailText items ++ rest) := by
      rw [List.append_assoc]
      exact delimited.mark trail
    obtain ⟨reads, kept⟩ := head.reads after
    unfold ItemsLex
    rw [text]
    refine ⟨(tail.mark trail).cons reads kept, ?_⟩
    intro _
    rw [List.append_assoc]
    exact reads.stops_isSpacing kept _
  | @group p start inner items mark ts us nonempty inside trail _ inside_ih ih =>
    obtain ⟨tail, delimited⟩ := (ih ends).tail ends
    have text : Item.listText (.group p start inner mark :: items) =
        ['('] ++ (Item.listText inner ++ ([')'] ++ (mark.toList ++ Item.tailText items))) := by
      simp [Item.listText_cons, Item.text]
    have closing : LexesTo ([')'] ++ (mark.toList ++ Item.tailText items)) _ rest :=
      (tail.mark trail).cons (.punctuation rfl rfl (by simp)) rfl
    have content := (inside_ih (Text.delimited_cons (by decide) _)).1.append closing
    unfold ItemsLex
    rw [text]
    exact ⟨content.cons (.punctuation rfl rfl (by simp)) rfl, fun _ => Text.stops_cons rfl⟩

theorem Statement.listText_cons (s : Statement) {ss : List Statement} (nonempty : ss ≠ []) :
    Statement.listText (s :: ss) = ' ' :: (s.text ++ ' ' :: ([':'] ++ Statement.listText ss)) := by
  obtain ⟨s', ss, rfl⟩ := List.exists_cons_of_ne_nil nonempty
  simp [Statement.listText, List.intercalate_cons_cons]

theorem Statement.Listed.ne_nil {ss : List Statement} {ts : List Token}
    (h : Statement.Listed ss ts) : ss ≠ [] := by
  cases h <;> simp

/-- The text of statements gives their tokens, and the blank before the first of them ends a word
before it. -/
theorem Statement.Listed.lex {ss : List Statement} {ts : List Token} (h : Statement.Listed ss ts)
    {rest : Text} (ends : rest.Delimited) :
    LexesTo (Statement.listText ss) ts rest ∧ (Statement.listText ss ++ rest).Delimited := by
  induction h with
  | @one s ts nonempty content =>
    have text : Statement.listText [s] = ' ' :: Item.listText s.items := List.intercalate_singleton
    obtain ⟨lexes, stops⟩ := content.lex ends
    rw [text]
    exact ⟨lexes.blank (stops nonempty), Text.delimited_cons (by decide) _⟩
  | @cons s ss ts us nonempty content later ih =>
    have colon : LexesTo ([':'] ++ Statement.listText ss) (.colon :: ts) rest :=
      ih.1.cons .colon rfl
    have separated := colon.blank (Text.stops_cons rfl)
    obtain ⟨lexes, stops⟩ := content.lex
      (@Text.delimited_cons ' ' (by decide) (([':'] ++ Statement.listText ss) ++ rest))
    rw [Statement.listText_cons s later.ne_nil]
    refine ⟨(lexes.append separated).blank ?_, Text.delimited_cons (by decide) _⟩
    rw [List.append_assoc]
    exact stops nonempty

/-- A label is read as a number. -/
theorem reads_label (n : Nat) {rest : Text} (ends : rest.Delimited) :
    Token.Reads (.number (decimal n)) (decimal n) rest := by
  have alone : numeral (decimal n) [] = decimal n := by simp [numeral]
  have reads : Token.Reads (.number (numeral (decimal n) [])) (numeral (decimal n) []) rest :=
    .number isDigit_of_mem_decimal (by simp) (by simp [decimal]) ends.endsWord.digits
      fun _ => ends.endsWord.fractionLength
  rwa [alone] at reads

theorem Line.listText_cons (line : Line) (lines : List Line) :
    Line.listText (line :: lines) = line.text ++ (['\n'] ++ Line.listText lines) := by
  rw [Line.listText, List.flatMap_cons, List.append_assoc]
  rfl

/-- A listing begins with a label, which is no line end. -/
theorem stops_listText (lines : List Line) : Text.Stops isLineBreak (Line.listText lines) := by
  cases lines with
  | nil => exact Text.stops_nil _
  | cons line lines =>
    obtain ⟨rest, text⟩ : ∃ rest, Line.listText (line :: lines) = decimal line.label ++ rest :=
      ⟨_, by rw [Line.listText_cons, Line.text, List.append_assoc]⟩
    obtain ⟨c, t, split⟩ := List.exists_cons_of_ne_nil (@Nat.toDigits_ne_nil line.label 10)
    have digit := isDigit_of_mem_decimal c (split ▸ List.mem_cons_self)
    rw [text, decimal, split]
    exact Text.stops_cons (isLineBreak_of_class Char.isDigit rfl rfl c digit)

/-- A line and its end, in front of what can be listed. -/
theorem lexesTo_line {n : Nat} {body : Text} {ts us : List Token} {lines : List Line}
    (content : LexesTo body us ('\n' :: Line.listText lines))
    (ends : (body ++ '\n' :: Line.listText lines).Delimited)
    (later : LexesTo (Line.listText lines) ts []) :
    LexesTo (decimal n ++ (body ++ (['\n'] ++ Line.listText lines)))
      (.number (decimal n) :: (us ++ .endOfLine :: ts)) [] := by
  -- from the end of the text to its start, for each token needs to see what comes after it
  have ending : LexesTo (['\n'] ++ Line.listText lines) (.endOfLine :: ts) [] := by
    refine later.cons (.endOfLine (by simp) (by simp [isLineBreak]) ?_) rfl
    rw [List.append_nil]
    exact stops_listText lines
  have line : LexesTo (body ++ (['\n'] ++ Line.listText lines)) (us ++ .endOfLine :: ts) [] := by
    refine .append ?_ ending
    rw [List.append_nil]
    exact content
  refine line.cons (reads_label n ?_) rfl
  rw [List.append_nil]
  exact ends

/-- The text of lines that can be listed gives the tokens of the listing. -/
theorem Line.Listed.lexesTo {lines : List Line} {ts : List Token} (h : Line.Listed lines ts) :
    LexesTo (Line.listText lines) ts [] := by
  induction h with
  | nil => exact .nil []
  | @comment n p comment lines ts word remark line _ ih =>
    have reads : Token.Reads (.comment comment) comment ('\n' :: Line.listText lines) :=
      .comment remark line (Text.stops_cons rfl)
    have lexes : LexesTo comment [.comment comment] ('\n' :: Line.listText lines) :=
      .token reads rfl
    rw [Line.listText_cons, Line.text, List.append_assoc]
    exact lexesTo_line (lexes.blank (reads.stops_isSpacing rfl _))
      (Text.delimited_cons (by decide) _) ih
  | @statements n p ss lines ts us word content _ ih =>
    obtain ⟨lexes, ends⟩ :=
      content.lex (@Text.delimited_cons '\n' (by decide) (Line.listText lines))
    rw [Line.listText_cons, Line.text, List.append_assoc]
    exact lexesTo_line lexes ends ih

/-! ## Programs -/

/-- The lexemes of a text before its end are read from it. -/
theorem areRead_of_lex {e : Encoding} {s : Text} {ls : List Lexeme} (h : lex e s = .ok ls) :
    Parse.AreRead (Parse.beforeEnd ls) := by
  obtain ⟨-, rfl⟩ := lex_eq_ok_iff.mp h
  rw [Parse.beforeEnd_append_cons (fun l member => ne_endOfInput_of_mem_place member) rfl]
  intro l member
  exact reads_of_mem_place member

/-- What a text is read to can be listed, with names for infinite numbers. -/
theorem listed_reread_of_readLines {e : Encoding} {s : Text} {lines : List Line}
    (h : readLines e s = .ok lines) : ∃ ts, Line.Listed (lines.map Line.reread) ts := by
  obtain ⟨ls, lexed, parsed⟩ := readLines_eq_ok_iff.mp h
  exact Parse.listed_of_derivesProgram (Parse.derives_of_parse parsed) (areRead_of_lex lexed)

/-- It can be listed as it is, if its numbers are finite. -/
theorem listed_of_readLines {e : Encoding} {s : Text} {lines : List Line}
    (h : readLines e s = .ok lines)
    (finite : ∀ x ∈ lines.flatMap Line.numbers, x.isInfinite = false) :
    ∃ ts, Line.Listed lines ts := by
  have same : ∀ line ∈ lines, line.reread = id line := fun line member =>
    Line.reread_of_finite fun x hx => finite x (List.mem_flatMap.mpr ⟨line, member, hx⟩)
  have listed := listed_reread_of_readLines h
  rwa [List.map_congr_left same, List.map_id] at listed

/-- A listing is read to what is listed, but for the places. -/
theorem readLines_of_listed {lines : List Line} {ts : List Token} (h : Line.Listed lines ts)
    (e : Encoding) :
    ∃ lines', readLines e (Line.listText lines) = .ok lines' ∧
      lines'.map (Line.relocate nowhere) = lines.map (Line.relocate nowhere) := by
  obtain ⟨ls, stop, lexed, tokens⟩ := h.lexesTo.lex e
  obtain ⟨lines', derived, same⟩ := Parse.derivesProgram_of_tokens h tokens
  have ends : Parse.EndsInput [⟨.endOfInput, stop, 0⟩] := by
    intro l hl
    cases hl
    rfl
  exact ⟨lines', readLines_eq_ok_iff.mpr ⟨_, lexed, derived.parse ends⟩, same⟩

/-- What a text is read to is listed, and the listing is read to the same lines, with names for
infinite numbers and at other places. -/
theorem readLines_listText {e : Encoding} {s : Text} {lines : List Line}
    (h : readLines e s = .ok lines) (e' : Encoding) :
    ∃ lines', readLines e' (Line.listText lines) = .ok lines' ∧
      lines'.map (Line.relocate nowhere) = (lines.map Line.reread).map (Line.relocate nowhere) := by
  obtain ⟨ts, listed⟩ := listed_reread_of_readLines h
  obtain ⟨lines', read, same⟩ := readLines_of_listed listed e'
  rw [Line.listText_map Line.text_reread] at read
  exact ⟨lines', read, same⟩

/-- A program that was read is read again from its text, in any encoding, if none of its numbers is
infinite: the lines are the same but for the places in them. -/
theorem Program.parse_text {e : Encoding} {source s : Text} {p : Program}
    (parsed : Program.parse e source s = .ok p)
    (finite : ∀ x ∈ p.lines.flatMap Line.numbers, x.isInfinite = false) (e' : Encoding)
    (source' : Text) :
    ∃ q, Program.parse e' source' p.text = .ok q ∧
      q.lines.map (Line.relocate nowhere) = p.lines.map (Line.relocate nowhere) := by
  obtain ⟨lines, read, rfl⟩ := Program.parse_eq_ok_iff.mp parsed
  obtain ⟨ts, listed⟩ := listed_of_readLines read finite
  obtain ⟨lines', reread, same⟩ := readLines_of_listed listed e'
  exact ⟨.ofLines source' lines', Program.parse_eq_ok_iff.mpr ⟨lines', reread, rfl⟩, same⟩

/-- Brackets in brackets, a quote in a string, two statements on a line, then a remark. -/
theorem parse_text_nested :
    ∃ p, Program.parse .utf8 [] "10 a$=left$(b$,(1.5)); \"\\\"\":end\r\n20 rem x".toList = .ok p ∧
      ∃ q, Program.parse .utf16 [] p.text = .ok q ∧
        q.lines.map (Line.relocate nowhere) = p.lines.map (Line.relocate nowhere) := by
  have read : (Program.parse .utf8 []
      "10 a$=left$(b$,(1.5)); \"\\\"\":end\r\n20 rem x".toList).toOption.map
        (fun p => (p.lines.flatMap Line.numbers).all fun x => x.isInfinite = false) =
      some true := by
    decide +kernel
  obtain ⟨p, parsed, numbers⟩ := Program.exists_parse_of_map read
  have finite : ∀ x ∈ p.lines.flatMap Line.numbers, x.isInfinite = false := fun x member =>
    of_decide_eq_true (List.all_eq_true.mp numbers x member)
  exact ⟨p, parsed, Program.parse_text parsed finite .utf16 []⟩

/-- The text of a program that was read is the text of the program that it is read to, whatever
numbers are in it. -/
theorem Program.text_parse_text {e : Encoding} {source s : Text} {p : Program}
    (parsed : Program.parse e source s = .ok p) (e' : Encoding) (source' : Text) :
    ∃ q, Program.parse e' source' p.text = .ok q ∧ q.text = p.text := by
  obtain ⟨lines, read, rfl⟩ := Program.parse_eq_ok_iff.mp parsed
  obtain ⟨lines', reread, same⟩ := readLines_listText read e'
  refine ⟨.ofLines source' lines', Program.parse_eq_ok_iff.mpr ⟨lines', reread, rfl⟩, ?_⟩
  calc Line.listText lines'
      = Line.listText (lines'.map (Line.relocate nowhere)) :=
        (Line.listText_map (Line.text_relocate nowhere) lines').symm
    _ = Line.listText ((lines.map Line.reread).map (Line.relocate nowhere)) := by rw [same]
    _ = Line.listText (lines.map Line.reread) := Line.listText_map (Line.text_relocate nowhere) _
    _ = Line.listText lines := Line.listText_map Line.text_reread lines

/-- A numeral of 310 digits in parentheses, before a mark. -/
theorem text_parse_text_infinite :
    ∃ p, Program.parse .utf8 []
        ("10 print(".toList ++ List.replicate 310 '9' ++ ",b):end".toList) = .ok p ∧
      p.lines.flatMap Line.numbers = [.signed false .infinity] ∧
      ∃ q, Program.parse .utf16 [] p.text = .ok q ∧ q.text = p.text := by
  have numbers : (Program.parse .utf8 []
      ("10 print(".toList ++ List.replicate 310 '9' ++ ",b):end".toList)).toOption.map
        (fun p => p.lines.flatMap Line.numbers) = some [.signed false .infinity] := by
    decide +kernel
  obtain ⟨p, parsed, infinite⟩ := Program.exists_parse_of_map numbers
  exact ⟨p, parsed, infinite, Program.text_parse_text parsed .utf16 []⟩

end CommodoreBasic
