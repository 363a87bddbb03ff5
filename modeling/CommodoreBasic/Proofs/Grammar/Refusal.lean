import CommodoreBasic.Proofs.Grammar.Recursion

/-!
# What the parser refuses, and what for

Two errors of the parser are about what a token holds: `Parser.value` asks for a value if it stands
at a token that is none, and for a number if it cannot read the one that is there. The first is
never seen, for the function is called on tokens only with which a statement can begin, and on no
keyword (`refuses_item`). The second is not seen if all numbers can be read.

A number begins a statement or goes on with one. So behind a statement there is none
(`refuses_statement`), and if none comes after a remark either, a number is refused as a label only.
`refused_of_legible` puts this together.
-/

namespace CommodoreBasic

/-- The token is no number, or one that can be read. -/
def Token.Readable (token : Token) : Prop :=
  ∀ digits, token = .number digits → Binary64.ofText digits ≠ none

/-- The token is a number. -/
def Token.IsNumber (token : Token) : Prop := ∃ digits, token = .number digits

/-- What is refused when all numbers can be read: a label is asked for, or something else, and then
not in place of a number. -/
inductive GrammarError.Ordinary : GrammarError → Prop
  | label (p : Position) (found : Token) : Ordinary ⟨p, .lineLabel, found⟩
  | statement (p : Position) {found : Token} (other : ¬ found.IsNumber) :
      Ordinary ⟨p, .statement, found⟩
  | closingParenthesis (p : Position) {found : Token} (other : ¬ found.IsNumber) :
      Ordinary ⟨p, .closingParenthesis, found⟩
  | colonOrEndOfLine (p : Position) {found : Token} (other : ¬ found.IsNumber) :
      Ordinary ⟨p, .colonOrEndOfLine, found⟩

namespace Parser

/-- All numbers among the lexemes can be read, and none comes right after a remark. -/
structure Legible (lexemes : Array Lexeme) : Prop where
  readable : ∀ l ∈ lexemes, l.token.Readable
  remark : ∀ (i : Nat) (l m : Lexeme) (text : Text), lexemes[i]? = some l →
    lexemes[i + 1]? = some m → l.token = .comment text → ¬ m.token.IsNumber

section

variable {p : Parser}

theorem Legible.token (legible : Legible p.lexemes) (n : Nat) : (p.token n).Readable := by
  unfold Parser.token
  split
  · next l found => exact legible.readable l (Array.mem_of_getElem? found)
  · rintro digits ⟨⟩

theorem Legible.after_remark (legible : Legible p.lexemes) {text : Text}
    (h : p.token 0 = .comment text) : ¬ (p.next.token 0).IsNumber := by
  rw [token_next (by simp [h])]
  unfold Parser.token at h ⊢
  split at h
  · next l found =>
    split
    · next m next => exact legible.remark p.index l m text found next h
    · rintro ⟨digits, ⟨⟩⟩
  · contradiction

theorem not_isNumber (other : p.startsStatement 0 = false) : ¬ (p.token 0).IsNumber := by
  rintro ⟨digits, number⟩
  have starts : p.startsStatement 0 = true := startsStatement_iff.mpr (Or.inr (Or.inl ⟨_, number⟩))
  rw [other] at starts
  contradiction

end

/-! ## Statements -/

/-- Where a statement can begin, and not with a keyword, the function that reads a value is not at a
loss for one. -/
def RefusesValue (p : Parser) : Prop :=
  Legible p.lexemes → p.startsStatement 0 = true → (∀ k, p.token 0 ≠ .keyword k) →
    Settled GrammarError.Ordinary (fun _ => True) p.value

def RefusesItem (p : Parser) : Prop :=
  Legible p.lexemes → p.startsStatement 0 = true →
    Settled GrammarError.Ordinary (fun _ => True) p.item

/-- All items are read that there are. -/
def RefusesItems (p : Parser) : Prop :=
  Legible p.lexemes →
    Settled GrammarError.Ordinary (fun is => is.rest.startsStatement 0 = false) p.items

def RefusesStatement (p : Parser) : Prop :=
  Legible p.lexemes →
    Settled GrammarError.Ordinary (fun s => s.rest.startsStatement 0 = false) p.statement

theorem refuses_value (p : Parser)
    (inner : p.token 0 = .punctuation '(' → RefusesStatement p.next) : RefusesValue p := by
  intro legible starts noKeyword
  rcases startsStatement_iff.mp starts with
    ⟨k, token⟩ | ⟨digits, token⟩ | ⟨name, token⟩ | ⟨body, token⟩ | opens
  · exact absurd token (noKeyword k)
  · rw [value_of_number token]
    cases read : Binary64.ofText digits with
    | none => exact absurd read (legible.token 0 digits token)
    | some x => exact .ok trivial
  · rw [value_of_identifier token]
    exact .ok trivial
  · rw [value_of_string token]
    exact .ok trivial
  · rw [value_of_opening opens]
    split
    · refine (inner opens legible).bind fun s other => ?_
      split
      · exact .ok trivial
      · exact .error (.closingParenthesis _ (not_isNumber other))
    · next empty =>
      have other : p.next.startsStatement 0 = false := by
        rw [startsStatement_next (by simp [opens])]
        exact eq_false_of_ne_true empty
      exact .error (.statement _ (not_isNumber other))

theorem refuses_item (p : Parser) (inner : RefusesValue p) : RefusesItem p := by
  intro legible starts
  by_cases keyword : ∃ k, p.token 0 = .keyword k
  · obtain ⟨k, token⟩ := keyword
    rw [item_of_keyword token]
    exact .ok trivial
  · have other : ∀ k, p.token 0 ≠ .keyword k := fun k token => keyword ⟨k, token⟩
    rw [item_of_other other]
    exact (inner legible starts other).bind fun _ _ => .ok trivial

theorem refuses_items (p : Parser) (first : RefusesItem p)
    (later : ∀ i : p.Read 1 Item, RefusesItems i.rest) : RefusesItems p := by
  intro legible
  rw [items]
  split
  · next starts =>
    refine (first legible starts).bind fun i _ => ?_
    exact (later i legible).bind fun is other => .ok other
  · next other => exact .ok (eq_false_of_ne_true other)

theorem refuses_statement (p : Parser) (inner : RefusesItems p) : RefusesStatement p := by
  intro legible
  rw [statement]
  refine (inner legible).bind fun is other => ?_
  split
  · exact .error (.statement _ (not_isNumber other))
  · exact .ok other

/-! ## Lines -/

theorem refuses_statements (p : Parser) (legible : Legible p.lexemes) :
    Settled GrammarError.Ordinary (fun ss => ss.rest.startsStatement 0 = false) p.statements := by
  induction p using Parser.statements.induct with
  | case1 p ih =>
    have first := statement_induction refuses_value refuses_item refuses_items refuses_statement p
    rw [statements]
    refine (first legible).bind fun s other => ?_
    split
    · next colon => exact (ih s colon legible).bind fun ss other' => .ok other'
    · exact .ok other

theorem refuses_body (p : Parser) (legible : Legible p.lexemes) :
    Settled GrammarError.Ordinary (fun b => ¬ (b.rest.token 0).IsNumber) p.body := by
  unfold body
  split
  · next text remark => exact .ok (legible.after_remark remark)
  · exact (refuses_statements p legible).bind fun ss other => .ok (not_isNumber other)

theorem refuses_line (p : Parser) (legible : Legible p.lexemes) :
    Settled GrammarError.Ordinary (fun _ => True) p.line := by
  have label : Settled GrammarError.Ordinary (fun _ => True) p.label := by
    unfold label
    split
    · split
      · exact .ok trivial
      · exact .error (.label _ _)
    · exact .error (.label _ _)
  unfold line
  refine label.bind fun n _ => (refuses_body n.rest legible).bind fun b other => ?_
  dsimp only
  split
  · exact .ok trivial
  · exact .ok trivial
  · exact .error (.colonOrEndOfLine _ other)

theorem refuses_lines (p : Parser) (legible : Legible p.lexemes) :
    Settled GrammarError.Ordinary (fun _ => True) p.lines := by
  induction p using Parser.lines.induct with
  | case1 p eof =>
    rw [lines_of_endOfInput eof]
    exact .ok trivial
  | case2 p ends ih =>
    rw [lines_of_endOfLine ends]
    exact ih legible
  | case3 p eof ends ih =>
    rw [lines_of_other eof ends]
    refine (refuses_line p legible).bind fun l _ => ?_
    exact (ih l legible).bind fun _ _ => .ok trivial

end Parser

/-- If all numbers can be read and none follows a remark, what is refused is asked for a label, or
is no number and asked for something else. -/
theorem refused_of_legible {ls : List Lexeme} {e : GrammarError}
    (legible : Parser.Legible ls.toArray) (h : parse ls = .error e) : e.Ordinary := by
  have outcome := Parser.refuses_lines (.ofLexemes ls) legible
  rw [show (Parser.ofLexemes ls).lines = .error e from h] at outcome
  cases outcome with
  | error ordinary => exact ordinary

end CommodoreBasic
