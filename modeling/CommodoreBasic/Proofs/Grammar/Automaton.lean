import CommodoreBasic.Grammar.Parse

/-!
# A parser without recursion

The grammar is also read by an automaton that takes one lexeme at a time and never looks ahead. What
has been read of the current line is kept in a `State`, the open parentheses in it as a stack of
frames; so a state tells what a parser is about to do and all that it has put aside, and one lexeme
makes one step. Lexemes after an end of input are not looked at, and running out of lexemes is an
end of input.

`run_append_endOfInput` states the last point.
-/

namespace CommodoreBasic

namespace Parse

/-- A statement that waits for a parenthesis inside it to be closed. -/
structure Frame where
  start : Position
  /-- The items before the parenthesis, the last one first. -/
  items : List Item
  /-- Where the parenthesis stands. -/
  parenthesis : Position

/-- What is known of the line that is being read. -/
structure Pending where
  label : Nat
  position : Position
  /-- The finished statements, the last one first. -/
  statements : List Statement
  /-- The open parentheses, the innermost one first. -/
  frames : List Frame

/-- How far reading has come. -/
inductive State where
  /-- At the start of a line. -/
  | between
  /-- After the label. -/
  | labelled (label : Nat) (position : Position)
  /-- After a remark. -/
  | remarked (label : Nat) (position : Position) (text : Text)
  /-- Where a statement has to begin. -/
  | opening (line : Pending)
  /-- After an item of a statement that began at `start`, `before` being the items before it, the
  last one first. -/
  | within (line : Pending) (start : Position) (last : Item) (before : List Item)

/-- Reads a lexeme as the beginning of an item, after the items `before` of a statement that began
at `start`. There is no answer if no item begins with such a token. -/
def item? (line : Pending) (start : Position) (before : List Item) (l : Lexeme) :
    Option (Except Expectation State) :=
  let atom (a : Atom) : State := .within line start (.atom l.position a none) before
  match l.token with
  | .keyword k => some (.ok (atom (.keyword k)))
  | .number digits =>
    match Binary64.ofText digits with
    | some value => some (.ok (atom (.number value)))
    | none => some (.error .number)
  | .identifier name => some (.ok (atom (.name name)))
  | .string body => some (.ok (atom (.string body)))
  | .punctuation '(' =>
    some (.ok (.opening { line with frames := ⟨start, before, l.position⟩ :: line.frames }))
  | _ => none

/-- Reads a lexeme after an item as something other than the next item: the mark that trails the
item, the parenthesis that closes the statement, or the colon that ends it. -/
def afterItem (line : Pending) (start : Position) (last : Item) (before : List Item)
    (token : Token) : Except Expectation State :=
  match token, last.trailing, line.frames with
  | .trailing c, none, _ => .ok (.within line start (last.trail c) before)
  | .punctuation ')', _, frame :: frames =>
    let group := .group frame.parenthesis start (last :: before).reverse none
    .ok (.within { line with frames := frames } frame.start group frame.items)
  | _, _, _ :: _ => .error .closingParenthesis
  | .colon, _, [] =>
    let statement := ⟨start, (last :: before).reverse⟩
    .ok (.opening { line with statements := statement :: line.statements })
  | _, _, [] => .error .colonOrEndOfLine

/-- Reads a lexeme where a statement has to begin. -/
def beginStatement (line : Pending) (l : Lexeme) : Except Expectation State :=
  (item? line l.position [] l).getD (.error .statement)

/-- Reads a lexeme that is not the end of a line. -/
def State.step (l : Lexeme) : State → Except Expectation State
  | between =>
    match l.token with
    | .number digits =>
      match label? digits with
      | some label => .ok (.labelled label l.position)
      | none => .error .lineLabel
    | _ => .error .lineLabel
  | labelled label position =>
    match l.token with
    | .comment text => .ok (.remarked label position text)
    | _ => beginStatement ⟨label, position, [], []⟩ l
  | remarked _ _ _ => .error .colonOrEndOfLine
  | opening line => beginStatement line l
  | within line start last before =>
    (item? line start (last :: before) l).getD (afterItem line start last before l.token)

/-- What has been read when a line ends: a line, or nothing if none had begun. -/
def State.finish : State → Except Expectation (List Line)
  | between => .ok []
  | labelled _ _ => .error .statement
  | remarked label position text => .ok [⟨label, position, .comment text⟩]
  | opening _ => .error .statement
  | within line start last before =>
    match line.frames with
    | [] =>
      let statement := ⟨start, (last :: before).reverse⟩
      .ok [⟨line.label, line.position, .statements (statement :: line.statements).reverse⟩]
    | _ :: _ => .error .closingParenthesis

/-- Blames a token for what it is not. -/
def blame {α : Type} (position : Position) (found : Token) :
    Except Expectation α → Except GrammarError α :=
  Except.mapError fun expected => ⟨position, expected, found⟩

/-- Reads lexemes from a state on. The end of input is at `stop` if no lexeme says where it is. -/
def run (stop : Position) : State → List Lexeme → Except GrammarError (List Line)
  | state, [] => blame stop .endOfInput state.finish
  | state, l :: ls =>
    match l.token with
    | .endOfInput => blame l.position .endOfInput state.finish
    | .endOfLine =>
      match blame l.position .endOfLine state.finish with
      | .ok lines => (run stop .between ls).map (lines ++ ·)
      | .error e => .error e
    | token =>
      match blame l.position token (state.step l) with
      | .ok next => run stop next ls
      | .error e => .error e

theorem run_cons_of_endOfInput {l : Lexeme} (eof : l.token = .endOfInput) (stop : Position)
    (state : State) (ls : List Lexeme) :
    run stop state (l :: ls) = blame l.position l.token state.finish := by
  rw [run, eof]

theorem run_cons_of_endOfLine {l : Lexeme} (ends : l.token = .endOfLine) (stop : Position)
    (state : State) (ls : List Lexeme) :
    run stop state (l :: ls) = (blame l.position l.token state.finish).bind fun lines =>
      (run stop .between ls).map (lines ++ ·) := by
  rw [run, ends]
  dsimp only
  cases blame l.position .endOfLine state.finish <;> rfl

theorem run_cons_of_ne {l : Lexeme} (eof : l.token ≠ .endOfInput) (ends : l.token ≠ .endOfLine)
    (stop : Position) (state : State) (ls : List Lexeme) :
    run stop state (l :: ls) = (blame l.position l.token (state.step l)).bind fun next =>
      run stop next ls := by
  rw [run]
  split
  · contradiction
  · contradiction
  · cases blame l.position l.token (state.step l) <;> rfl

/-- Nothing after an end of input is looked at. -/
theorem run_append_endOfInput {z : Lexeme} (eof : z.token = .endOfInput) (ls more : List Lexeme)
    (stop stop' : Position) (state : State) :
    run stop state (ls ++ z :: more) = run stop' state (ls ++ [z]) := by
  induction ls generalizing state with
  | nil => simp [run, eof]
  | cons l ls ih =>
    simp only [List.cons_append, run, ih]

end Parse

end CommodoreBasic
