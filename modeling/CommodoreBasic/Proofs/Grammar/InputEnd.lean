import CommodoreBasic.Proofs.Grammar.Recursion

/-!
# Where the input ends

A parser may be given an end of input or may run out of lexemes; it cannot tell one from the other.
Parsers agree (`Parser.Agrees`) if they see the same tokens at the same places as far as the first
end of input, and that one too: it may be a lexeme or the place where the lexemes run out, and
anything may come after it. Wherever parsers that agree stand, each function gives the same error
for them, or the same value and parsers that agree again (`Parser.Blind`): none of the functions
looks or moves past an end of input.

`RunsOutAt` says where lexemes run out. The main statement is `parse_to_end`: lexemes are read as if
an end of input stood after the last one, and nothing after an end of input is read.
-/

namespace CommodoreBasic

namespace Parser

/-! ## Parsers that agree -/

/-- The parsers see the same tokens at the same places, as far as the first end of input. -/
def Agrees (p q : Parser) : Prop :=
  ∀ n, (∀ m < n, p.token m ≠ .endOfInput) → p.token n = q.token n ∧ p.position n = q.position n

namespace Agrees

variable {p q : Parser}

theorem here (h : p.Agrees q) : p.token 0 = q.token 0 ∧ p.position 0 = q.position 0 :=
  h 0 fun _ before => absurd before (Nat.not_lt_zero _)

theorem startsStatement (h : p.Agrees q) : p.startsStatement 0 = q.startsStatement 0 := by
  rw [Parser.startsStatement, Parser.startsStatement, h.here.1]

theorem error (h : p.Agrees q) (expected : Expectation) : p.error expected = q.error expected := by
  rw [Parser.error, Parser.error, h.here.1, h.here.2]

/-- Parsers that agree still do one lexeme further on. -/
theorem next (h : p.Agrees q) (more : p.token 0 ≠ .endOfInput) : p.next.Agrees q.next := by
  intro n none
  have more' : q.token 0 ≠ .endOfInput := h.here.1 ▸ more
  rw [token_next more, position_next more, token_next more', position_next more']
  refine h (n + 1) fun m before => ?_
  cases m with
  | zero => exact more
  | succ m =>
    rw [← token_next more]
    exact none m (Nat.lt_of_succ_lt_succ before)

end Agrees

/-! ## Functions that cannot tell them apart -/

/-- The error is the same, or what has been read is, and the parsers agree after it. -/
inductive Alike {p q : Parser} {least : Nat} {α : Type} :
    Except GrammarError (p.Read least α) → Except GrammarError (q.Read least α) → Prop
  | error (e : GrammarError) : Alike (.error e) (.error e)
  | ok {r : p.Read least α} {s : q.Read least α} (value : r.value = s.value)
      (rest : r.rest.Agrees s.rest) : Alike (.ok r) (.ok s)

/-- The function is the same for the parser and for all that agree with it. -/
def Blind {least : Nat} {α : Type} (f : (p : Parser) → Except GrammarError (p.Read least α))
    (p : Parser) : Prop :=
  ∀ q, p.Agrees q → Alike (f p) (f q)

section

variable {p q : Parser} {least : Nat} {α : Type}

theorem Alike.bind {p' q' : Parser} {least' : Nat} {β : Type}
    {x : Except GrammarError (p.Read least α)} {y : Except GrammarError (q.Read least α)}
    {f : p.Read least α → Except GrammarError (p'.Read least' β)}
    {g : q.Read least α → Except GrammarError (q'.Read least' β)} (h : Alike x y)
    (later : ∀ r s, r.value = s.value → r.rest.Agrees s.rest → Alike (f r) (g s)) :
    Alike (x >>= f) (y >>= g) := by
  cases h with
  | error e => exact .error e
  | ok value rest => exact later _ _ value rest

theorem Agrees.take (h : p.Agrees q) (more : p.token 0 ≠ .endOfInput)
    (more' : q.token 0 ≠ .endOfInput) {a b : α} (same : a = b) :
    Alike (.ok (p.take more a)) (.ok (q.take more' b)) := .ok same (h.next more)

theorem Agrees.blame (h : p.Agrees q) {p' q' : Parser} (expected : Expectation) :
    @Alike p' q' least α (.error (p.error expected)) (.error (q.error expected)) := by
  rw [h.error]
  exact .error _

theorem Agrees.trailed {i : p.Read 1 Item} {j : q.Read 1 Item} (value : i.value = j.value)
    (rest : i.rest.Agrees j.rest) : Alike (.ok i.trailed) (.ok j.trailed) := by
  unfold Read.trailed
  rw [← rest.here.1]
  split
  · next c mark => exact .ok (by rw [value]) (rest.next (by simp [mark]))
  · exact .ok value rest

end

theorem blind_value (p : Parser) (inner : p.token 0 = .punctuation '(' → Blind statement p.next) :
    Blind value p := by
  intro q same
  obtain ⟨tokens, positions⟩ := same.here
  have other : (∀ s, p.token 0 ≠ .number s) → (∀ s, p.token 0 ≠ .identifier s) →
      (∀ s, p.token 0 ≠ .string s) → p.token 0 ≠ .punctuation '(' → Alike p.value q.value := by
    intro number identifier string opening
    rw [value_of_other number identifier string opening]
    rw [tokens] at number identifier string opening
    rw [value_of_other number identifier string opening]
    exact same.blame _
  cases token : p.token 0 with
  | number digits =>
    rw [value_of_number token, value_of_number (tokens.symm.trans token)]
    cases Binary64.ofText digits with
    | some x => exact same.take _ _ (by rw [positions])
    | none => exact same.blame _
  | identifier name =>
    rw [value_of_identifier token, value_of_identifier (tokens.symm.trans token)]
    exact same.take _ _ (by rw [positions])
  | string body =>
    rw [value_of_string token, value_of_string (tokens.symm.trans token)]
    exact same.take _ _ (by rw [positions])
  | punctuation c =>
    by_cases opens : c = '('
    · subst opens
      have inside := same.next (by simp [token])
      have ahead : p.startsStatement 1 = q.startsStatement 1 := by
        rw [← startsStatement_next (by simp [token]), inside.startsStatement,
          startsStatement_next (by simp [← tokens, token])]
      rw [value_of_opening token, value_of_opening (tokens.symm.trans token), ← ahead]
      split
      · refine (inner token _ inside).bind ?_
        intro s s' value rest
        rw [← rest.here.1, value, positions]
        split
        · next closes => exact .ok rfl (rest.next (by simp [closes]))
        · exact rest.blame _
      · exact inside.blame _
    · exact other (by simp [token]) (by simp [token]) (by simp [token]) (by simp [token, opens])
  | _ => exact other (by simp [token]) (by simp [token]) (by simp [token]) (by simp [token])

theorem blind_item (p : Parser) (inner : Blind value p) : Blind item p := by
  intro q same
  obtain ⟨tokens, positions⟩ := same.here
  by_cases keyword : ∃ k, p.token 0 = .keyword k
  · obtain ⟨k, token⟩ := keyword
    rw [item_of_keyword token, item_of_keyword (tokens.symm.trans token)]
    refine Agrees.trailed ?_ (same.next (by simp [token]))
    show Item.atom (p.position 0) _ _ = .atom (q.position 0) _ _
    rw [positions]
  · have other : ∀ k, p.token 0 ≠ .keyword k := fun k token => keyword ⟨k, token⟩
    rw [item_of_other other]
    rw [tokens] at other
    rw [item_of_other other]
    exact (inner q same).bind fun i j value rest => Agrees.trailed value rest

theorem blind_items (p : Parser) (first : Blind item p)
    (later : ∀ i : p.Read 1 Item, Blind items i.rest) : Blind items p := by
  intro q same
  rw [items, items, ← same.startsStatement]
  split
  · refine (first q same).bind fun i j value rest => ?_
    refine (later i j.rest rest).bind fun is js values rest' => ?_
    exact .ok (congr (congrArg _ value) values) rest'
  · exact .ok rfl same

theorem blind_statement (p : Parser) (inner : Blind items p) : Blind statement p := by
  intro q same
  rw [statement, statement]
  refine (inner q same).bind fun is js values rest => ?_
  rw [values, same.here.2]
  split
  · exact rest.blame _
  · exact .ok rfl rest

theorem blind_statements (p : Parser) : Blind statements p := by
  induction p using Parser.statements.induct with
  | case1 p ih =>
    intro q same
    have first := statement_induction blind_value blind_item blind_items blind_statement p
    rw [statements, statements]
    refine (first q same).bind fun s s' value rest => ?_
    by_cases colon : s.rest.token 0 = .colon
    · rw [dif_pos colon, dif_pos (rest.here.1.symm.trans colon)]
      have onward := rest.next (by simp [colon])
      refine (ih s colon _ onward).bind fun ss ss' values rest' => ?_
      exact .ok (congr (congrArg _ value) values) rest'
    · rw [dif_neg colon, dif_neg (rest.here.1 ▸ colon)]
      exact .ok (congrArg ([·]) value) rest

theorem blind_label (p : Parser) : Blind label p := by
  intro q same
  have tokens := same.here.1
  by_cases number : ∃ digits, p.token 0 = .number digits
  · obtain ⟨digits, token⟩ := number
    rw [label_of_number token, label_of_number (tokens.symm.trans token)]
    cases Parse.label? digits with
    | some n => exact same.take _ _ rfl
    | none => exact same.blame _
  · have other : ∀ s, p.token 0 ≠ .number s := fun s token => number ⟨s, token⟩
    rw [label_of_other other]
    rw [tokens] at other
    rw [label_of_other other]
    exact same.blame _

theorem blind_body (p : Parser) : Blind body p := by
  intro q same
  unfold body
  rw [← same.here.1]
  split
  · next text remark => exact .ok rfl (same.next (by simp [remark]))
  · refine (blind_statements p q same).bind fun ss ss' values rest => ?_
    exact .ok (congrArg _ values) rest

theorem blind_line (p : Parser) : Blind line p := by
  intro q same
  unfold line
  refine (blind_label p q same).bind fun n n' labels rest => ?_
  refine (blind_body n.rest _ rest).bind fun b b' bodies rest' => ?_
  dsimp only
  rw [← rest'.here.1, labels, bodies, same.here.2]
  split
  · next ends => exact .ok rfl (rest'.next (by simp [ends]))
  · exact .ok rfl rest'
  · exact rest'.blame _

/-- Parsers that agree read the same lines, or fail with the same error. -/
theorem Agrees.lines_eq {p q : Parser} (h : p.Agrees q) : p.lines = q.lines := by
  induction p using Parser.lines.induct generalizing q with
  | case1 p eof => rw [lines_of_endOfInput eof, lines_of_endOfInput (h.here.1.symm.trans eof)]
  | case2 p ends ih =>
    rw [lines_of_endOfLine ends, lines_of_endOfLine (h.here.1.symm.trans ends)]
    exact ih (h.next (by simp [ends]))
  | case3 p eof ends ih =>
    have alike := blind_line p q h
    rw [lines_of_other eof ends]
    rw [h.here.1] at eof ends
    rw [lines_of_other eof ends]
    generalize p.line = x, q.line = y at alike ⊢
    cases alike with
    | error => rfl
    | @ok l m value rest =>
      show (l.rest.lines >>= _) = m.rest.lines >>= _
      rw [ih l rest, value]

/-! ## Lexemes -/

theorem token_ofLexemes_of_lt {ls : List Lexeme} {n : Nat} (inside : n < ls.length)
    (more : List Lexeme) :
    (ofLexemes (ls ++ more)).token n = (ofLexemes ls).token n ∧
      (ofLexemes (ls ++ more)).position n = (ofLexemes ls).position n := by
  have same : (ls ++ more)[n]? = ls[n]? := List.getElem?_append_left inside
  simp [ofLexemes, token, position, same, List.getElem?_eq_getElem inside]

theorem token_ofLexemes_length (ls : List Lexeme) (l : Lexeme) (more : List Lexeme) :
    (ofLexemes (ls ++ l :: more)).token ls.length = l.token ∧
      (ofLexemes (ls ++ l :: more)).position ls.length = l.position := by
  simp [ofLexemes, token, position]

/-- The end of the input may be left out. -/
theorem agrees_end {ls : List Lexeme} {stop : Position} (out : Parse.stopOf ls = stop) :
    (ofLexemes ls).Agrees (ofLexemes (ls ++ [⟨.endOfInput, stop, 0⟩])) := by
  intro n none
  have ended : (ofLexemes ls).token ls.length = .endOfInput := by simp [ofLexemes, token]
  rcases Nat.lt_trichotomy n ls.length with inside | rfl | beyond
  · obtain ⟨tokens, positions⟩ := token_ofLexemes_of_lt inside [⟨.endOfInput, stop, 0⟩]
    exact ⟨tokens.symm, positions.symm⟩
  · obtain ⟨tokens, positions⟩ := token_ofLexemes_length ls ⟨.endOfInput, stop, 0⟩ []
    rw [tokens, positions, ended]
    exact ⟨rfl, by simp [ofLexemes, position, out]⟩
  · exact absurd ended (none _ beyond)

/-- What comes after an end of input may be left out. -/
theorem agrees_after {z : Lexeme} (eof : z.token = .endOfInput) (ls more : List Lexeme) :
    (ofLexemes (ls ++ z :: more)).Agrees (ofLexemes (ls ++ [z])) := by
  intro n none
  obtain ⟨tokens, positions⟩ := token_ofLexemes_length ls z more
  rcases Nat.lt_trichotomy n ls.length with inside | rfl | beyond
  · obtain ⟨first, places⟩ := token_ofLexemes_of_lt inside (z :: more)
    obtain ⟨second, places'⟩ := token_ofLexemes_of_lt inside [z]
    exact ⟨first.trans second.symm, places.trans places'.symm⟩
  · obtain ⟨tokens', positions'⟩ := token_ofLexemes_length ls z []
    exact ⟨tokens.trans tokens'.symm, positions.trans positions'.symm⟩
  · exact absurd (tokens.trans eof) (none _ beyond)

end Parser

namespace Parse

/-- The lexemes run out behind the last one, or at the start if there is none. -/
inductive RunsOutAt : List Lexeme → Position → Prop
  | nil : RunsOutAt [] .start
  | last {ls : List Lexeme} {l : Lexeme} (word : l.position.column + l.width < wordCount) :
      RunsOutAt (ls ++ [l]) ⟨l.position.line, l.position.column + l.width⟩

theorem RunsOutAt.stopOf_eq {ls : List Lexeme} {stop : Position} (h : RunsOutAt ls stop) :
    stopOf ls = stop := by
  cases h with
  | nil => rfl
  | last word =>
    rw [stopOf, List.getLast?_concat]
    simp only [Nat.mod_eq_of_lt word]

end Parse

open Parse in
/-- Lexemes without an end of input are read as those with one where they run out, and lexemes
after an end of input are not read: the lines are the same, and so is every error, its place and
its texts. -/
theorem parse_to_end (ls : List Lexeme) :
    (∀ stop, RunsOutAt ls stop → parse ls = parse (ls ++ [⟨.endOfInput, stop, 0⟩])) ∧
      ∀ z : Lexeme, z.token = .endOfInput →
        ∀ more : List Lexeme, parse (ls ++ z :: more) = parse (ls ++ [z]) := by
  refine ⟨?_, ?_⟩
  · intro stop out
    exact (Parser.agrees_end out.stopOf_eq).lines_eq
  · intro z eof more
    exact (Parser.agrees_after eof ls more).lines_eq

/-- A parenthesis that is open when the lexemes run out: both ways the place behind it is blamed. -/
theorem parse_to_end_parenthesis :
    let ls : List Lexeme := [⟨.number "10".toList, ⟨1, 1⟩, 2⟩, ⟨.identifier "X".toList, ⟨1, 4⟩, 1⟩,
      ⟨.punctuation '(', ⟨1, 9⟩, 1⟩]
    let more : List Lexeme := [⟨.colon, ⟨1, 10⟩, 1⟩]
    Parse.RunsOutAt ls ⟨1, 10⟩ ∧
      parse ls = .error ⟨⟨1, 10⟩, .statement, .endOfInput⟩ ∧
      parse ls = parse (ls ++ [⟨.endOfInput, ⟨1, 10⟩, 0⟩]) ∧
      parse (ls ++ ⟨.endOfInput, ⟨1, 10⟩, 0⟩ :: more) =
        parse (ls ++ [⟨.endOfInput, ⟨1, 10⟩, 0⟩]) := by
  intro ls more
  have out : Parse.RunsOutAt ls ⟨1, 10⟩ :=
    @Parse.RunsOutAt.last ls.dropLast ⟨.punctuation '(', ⟨1, 9⟩, 1⟩ (by decide)
  refine ⟨out, ?_, (parse_to_end ls).1 _ out, (parse_to_end ls).2 _ rfl more⟩
  decide +kernel

end CommodoreBasic
