import CommodoreBasic.Grammar.Tree
import CommodoreBasic.Lexical.Lexeme

/-!
# Reading program lines

The grammar, in terms of lexemes:

* a program is a sequence of lines, each ended by an end of line or the end of input, with any
  number of further ends of line around them;
* a line is a label, then a remark or one or more statements with colons between them;
* a statement is one or more items; an item is a keyword, a number, a name, a string or a
  statement in parentheses, with one trailing mark after it if one is there.

A `Parser` stands at one of the lexemes and has a function for each of these. It looks at the lexeme
where it stands, and at the one after it only behind a parenthesis that opens, so that parentheses
with nothing between them are reported at the one that closes. Lexemes after an end of input are not
looked at, and running out of lexemes is an end of input.
-/

namespace CommodoreBasic

/-- What could have stood in the place of a lexeme that does not fit. -/
inductive Expectation where
  | lineLabel
  | statement
  | closingParenthesis
  | colonOrEndOfLine
  | number
  | value
deriving DecidableEq, Repr

/-- The wording of each. -/
def Expectation.text : Expectation → Text
  | lineLabel => "line label".toList
  | statement => "statement".toList
  | closingParenthesis => "')'".toList
  | colonOrEndOfLine => "':' or end of line".toList
  | number => "number".toList
  | value => "value".toList

/-- A lexeme that does not fit. -/
structure GrammarError where
  position : Position
  expected : Expectation
  found : Token
deriving DecidableEq

/-- The error as it is reported. -/
def GrammarError.message (e : GrammarError) : Text :=
  e.position.text ++ ": expected ".toList ++ e.expected.text ++ ", found ".toList ++
    e.found.description

/-- Results can be compared if errors and values can be. -/
instance decidableEqExcept {ε α : Type} [DecidableEq ε] [DecidableEq α] : DecidableEq (Except ε α)
  | .ok a, .ok b => decidable_of_iff (a = b) (by simp)
  | .error e, .error e' => decidable_of_iff (e = e') (by simp)
  | .ok _, .error _ => .isFalse (by simp)
  | .error _, .ok _ => .isFalse (by simp)

namespace Parse

/-- The place after the last lexeme. Its column is a sum of 64-bit words and wraps around; a build
that checks sums for overflow stops there instead. -/
def stopOf (ls : List Lexeme) : Position :=
  match ls.getLast? with
  | some l => ⟨l.position.line, (l.position.column + l.width) % wordCount⟩
  | none => .start

/-- The label that digits denote, if it is a 64-bit word. -/
def label? (digits : Text) : Option Nat :=
  if digits.all Char.isDigit then (readWord digits).toOption else none

end Parse

/-- A parser: the lexemes, the place among them that it has come to, and where the input ends if
they run out. -/
structure Parser where
  lexemes : Array Lexeme
  index : Nat
  stop : Position

namespace Parser

/-- A parser at the first of the lexemes. -/
def ofLexemes (ls : List Lexeme) : Parser := ⟨ls.toArray, 0, Parse.stopOf ls⟩

/-! ## Looking and moving -/

section

variable (p : Parser)

/-- The token `n` lexemes ahead. After the last lexeme there are only ends of input. -/
def token (n : Nat) : Token :=
  match p.lexemes[p.index + n]? with
  | some l => l.token
  | none => .endOfInput

/-- The place `n` lexemes ahead. After the last lexeme it is the end of the input. -/
def position (n : Nat) : Position :=
  match p.lexemes[p.index + n]? with
  | some l => l.position
  | none => p.stop

/-- The parser one lexeme further on, unless no lexeme is left. -/
def next : Parser :=
  { p with index := if p.index < p.lexemes.size then p.index + 1 else p.index }

/-- Blames the lexeme where the parser stands. -/
def error (expected : Expectation) : GrammarError := ⟨p.position 0, expected, p.token 0⟩

/-- Whether a statement can begin with the token `n` lexemes ahead. -/
def startsStatement (n : Nat) : Bool :=
  match p.token n with
  | .keyword _ | .number _ | .identifier _ | .string _ | .punctuation '(' => true
  | _ => false

/-- The number of lexemes that are left. -/
def remaining : Nat := p.lexemes.size - p.index

theorem remaining_next_le : p.next.remaining ≤ p.remaining := by
  simp only [remaining, next]
  split <;> omega

/-- A lexeme is left where there is no end of input. -/
theorem index_lt_of_token {p : Parser} (h : p.token 0 ≠ .endOfInput) :
    p.index < p.lexemes.size := by
  apply Classical.byContradiction
  intro beyond
  apply h
  rw [token, Nat.add_zero, Array.getElem?_eq_none (Nat.le_of_not_lt beyond)]

theorem remaining_next_lt {p : Parser} (h : p.token 0 ≠ .endOfInput) :
    p.next.remaining < p.remaining := by
  have inside := index_lt_of_token h
  simp only [remaining, next, if_pos inside]
  omega

end

/-- What has been read, and how far: by `least` lexemes at least. -/
structure Read (p : Parser) (least : Nat) (α : Type) where
  value : α
  index : Nat
  taken : p.lexemes.size - index + least ≤ p.remaining

/-- The parser after what has been read. -/
def Read.rest {p : Parser} {least : Nat} {α : Type} (r : p.Read least α) : Parser :=
  { p with index := r.index }

/-- The lexeme where the parser stands has been read. -/
def take {α : Type} (p : Parser) (h : p.token 0 ≠ .endOfInput) (a : α) : p.Read 1 α :=
  ⟨a, p.next.index, remaining_next_lt h⟩

/-- The item that has been read, with the mark that comes next if there is one. -/
def Read.trailed {p : Parser} (i : p.Read 1 Item) : p.Read 1 Item :=
  match i.rest.token 0 with
  | .trailing c =>
    ⟨i.value.trail c, i.rest.next.index, Nat.lt_of_le_of_lt (remaining_next_le i.rest) i.taken⟩
  | _ => i

/-! ## Statements -/

mutual

/-- A statement: one or more items. -/
def statement (p : Parser) : Except GrammarError (p.Read 0 Statement) := do
  let is ← p.items
  if is.value = [] then
    throw (is.rest.error .statement)
  else
    return ⟨⟨p.position 0, is.value⟩, is.index, is.taken⟩
termination_by 4 * p.remaining + 3

/-- Items, as long as there are any. -/
def items (p : Parser) : Except GrammarError (p.Read 0 (List Item)) := do
  if p.startsStatement 0 then
    let i ← p.item
    let is ← i.rest.items
    return ⟨i.value :: is.value, is.index, Nat.le_trans is.taken (Nat.le_of_lt i.taken)⟩
  else
    return ⟨[], p.index, Nat.le_refl _⟩
termination_by 4 * p.remaining + 2
decreasing_by
  · omega
  · have fewer : i.rest.remaining < p.remaining := i.taken
    omega

/-- An item, with the mark that trails it if there is one. -/
def item (p : Parser) : Except GrammarError (p.Read 1 Item) := do
  match h : p.token 0 with
  | .keyword k =>
    return (p.take (by simp [h]) (.atom (p.position 0) (.keyword k) none)).trailed
  | _ =>
    let i ← p.value
    return i.trailed
termination_by 4 * p.remaining + 1

/-- An item that is no keyword. -/
def value (p : Parser) : Except GrammarError (p.Read 1 Item) :=
  match h : p.token 0 with
  | .number digits =>
    match Binary64.ofText digits with
    | some x => .ok (p.take (by simp [h]) (.atom (p.position 0) (.number x) none))
    | none => .error (p.error .number)
  | .identifier name => .ok (p.take (by simp [h]) (.atom (p.position 0) (.name name) none))
  | .string body => .ok (p.take (by simp [h]) (.atom (p.position 0) (.string body) none))
  | .punctuation '(' =>
    if p.startsStatement 1 then do
      let s ← p.next.statement
      if s.rest.token 0 = .punctuation ')' then
        return ⟨.group (p.position 0) s.value.position s.value.items none, s.rest.next.index,
          Nat.lt_of_le_of_lt (Nat.le_trans (remaining_next_le s.rest) s.taken)
            (remaining_next_lt (by simp [h]))⟩
      else
        throw (s.rest.error .closingParenthesis)
    else
      .error (p.next.error .statement)
  | _ => .error (p.error .value)
termination_by 4 * p.remaining
decreasing_by
  have fewer := @remaining_next_lt p (by simp [h])
  omega

end

/-- A statement, and the ones that colons part from it. -/
def statements (p : Parser) : Except GrammarError (p.Read 0 (List Statement)) := do
  let s ← p.statement
  if _ : s.rest.token 0 = .colon then
    let ss ← s.rest.next.statements
    return ⟨s.value :: ss.value, ss.index,
      Nat.le_trans ss.taken (Nat.le_trans (remaining_next_le s.rest) s.taken)⟩
  else
    return ⟨[s.value], s.index, s.taken⟩
termination_by p.remaining
decreasing_by
  have colon : s.rest.token 0 = .colon := ‹_›
  exact Nat.lt_of_lt_of_le (remaining_next_lt (by simp [colon])) s.taken

/-! ## Lines -/

/-- A label. -/
def label (p : Parser) : Except GrammarError (p.Read 1 Nat) :=
  match h : p.token 0 with
  | .number digits =>
    match Parse.label? digits with
    | some n => .ok (p.take (by simp [h]) n)
    | none => .error (p.error .lineLabel)
  | _ => .error (p.error .lineLabel)

/-- What follows a label: a remark or statements. -/
def body (p : Parser) : Except GrammarError (p.Read 0 Body) :=
  match p.token 0 with
  | .comment text => .ok ⟨.comment text, p.next.index, remaining_next_le p⟩
  | _ => do
    let ss ← p.statements
    return ⟨.statements ss.value, ss.index, ss.taken⟩

/-- A line, with its end. -/
def line (p : Parser) : Except GrammarError (p.Read 1 Line) := do
  let n ← p.label
  let b ← n.rest.body
  let line : Line := ⟨n.value, p.position 0, b.value⟩
  have taken : b.rest.remaining < p.remaining := Nat.lt_of_le_of_lt b.taken n.taken
  match b.rest.token 0 with
  | .endOfLine =>
    return ⟨line, b.rest.next.index, Nat.lt_of_le_of_lt (remaining_next_le b.rest) taken⟩
  | .endOfInput => return ⟨line, b.index, taken⟩
  | _ => throw (b.rest.error .colonOrEndOfLine)

/-- Lines, up to the end of input. -/
def lines (p : Parser) : Except GrammarError (List Line) :=
  match _ : p.token 0 with
  | .endOfInput => return []
  | .endOfLine => p.next.lines
  | _ => do
    let l ← p.line
    let ls ← l.rest.lines
    return l.value :: ls
termination_by p.remaining
decreasing_by
  · have ends : p.token 0 = .endOfLine := ‹_›
    exact remaining_next_lt (by simp [ends])
  · exact l.taken

end Parser

/-- Reads the lines of a program. -/
def parse (ls : List Lexeme) : Except GrammarError (List Line) := (Parser.ofLexemes ls).lines

end CommodoreBasic
