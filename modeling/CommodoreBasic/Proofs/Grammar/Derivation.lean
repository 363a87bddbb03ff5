import CommodoreBasic.Grammar.Parse
import CommodoreBasic.Proofs.Numeric.Word

/-!
# The grammar as a relation

What lexemes a program, a line or a sequence of items may consist of, and the tree that belongs to
them. Nothing here runs: there is no state, no stack and no lexeme to look at next. A node stands
where its first lexeme does.

A trailing mark begins nothing, so an item that has one after it can be followed by the rest of a
derivation only if the mark is its own.
-/

namespace CommodoreBasic

namespace Parse

/-- The label that a token gives to its line: one or more digits that denote a 64-bit word. -/
inductive IsLabel : Token → Nat → Prop
  | digits {digits : Text} (nonempty : digits ≠ []) (plain : ∀ c ∈ digits, c.isDigit = true)
      (word : Nat.ofDigitChars 10 digits 0 < wordCount) :
      IsLabel (.number digits) (Nat.ofDigitChars 10 digits 0)

/-- The item that a token makes up on its own. -/
inductive IsAtom : Token → Atom → Prop
  | keyword (k : Keyword) : IsAtom (.keyword k) (.keyword k)
  | number {digits : Text} {value : Binary64} (reads : Binary64.ofText digits = some value) :
      IsAtom (.number digits) (.number value)
  | name (name : Text) : IsAtom (.identifier name) (.name name)
  | string (body : Text) : IsAtom (.string body) (.string body)

/-- At most one trailing mark. -/
inductive DerivesMark : List Lexeme → Option Char → Prop
  | none : DerivesMark [] none
  | some {l : Lexeme} {c : Char} (mark : l.token = .trailing c) : DerivesMark [l] (some c)

/-- A sequence of items. The items in parentheses are one or more. -/
inductive DerivesItems : List Lexeme → List Item → Prop
  | nil : DerivesItems [] []
  | atom {l : Lexeme} {a : Atom} {marks ls : List Lexeme} {mark : Option Char} {items : List Item}
      (head : IsAtom l.token a) (trail : DerivesMark marks mark) (later : DerivesItems ls items) :
      DerivesItems (l :: (marks ++ ls)) (.atom l.position a mark :: items)
  | group {opening first closing : Lexeme} {inside marks ls : List Lexeme} {inner : List Item}
      {mark : Option Char} {items : List Item} (opens : opening.token = .punctuation '(')
      (statement : DerivesItems (first :: inside) inner) (closes : closing.token = .punctuation ')')
      (trail : DerivesMark marks mark) (later : DerivesItems ls items) :
      DerivesItems (opening :: (first :: inside ++ closing :: (marks ++ ls)))
        (.group opening.position first.position inner mark :: items)

/-- A statement: one or more items. -/
inductive DerivesStatement : List Lexeme → Statement → Prop
  | items {l : Lexeme} {ls : List Lexeme} {items : List Item}
      (content : DerivesItems (l :: ls) items) : DerivesStatement (l :: ls) ⟨l.position, items⟩

/-- Statements with colons between them. -/
inductive DerivesStatements : List Lexeme → List Statement → Prop
  | one {ls : List Lexeme} {s : Statement} (statement : DerivesStatement ls s) :
      DerivesStatements ls [s]
  | cons {ls ms : List Lexeme} {colon : Lexeme} {s : Statement} {ss : List Statement}
      (statement : DerivesStatement ls s) (isColon : colon.token = .colon)
      (later : DerivesStatements ms ss) : DerivesStatements (ls ++ colon :: ms) (s :: ss)

/-- A line: a label, then a remark or statements. -/
inductive DerivesLine : List Lexeme → Line → Prop
  | comment {l m : Lexeme} {n : Nat} {text : Text} (label : IsLabel l.token n)
      (remark : m.token = .comment text) : DerivesLine [l, m] ⟨n, l.position, .comment text⟩
  | statements {l : Lexeme} {n : Nat} {ls : List Lexeme} {ss : List Statement}
      (label : IsLabel l.token n) (statements : DerivesStatements ls ss) :
      DerivesLine (l :: ls) ⟨n, l.position, .statements ss⟩

/-- Lines and ends of line. A line is followed by an end of line, or is the last one. -/
inductive DerivesProgram : List Lexeme → List Line → Prop
  | nil : DerivesProgram [] []
  | endOfLine {l : Lexeme} {ls : List Lexeme} {lines : List Line} (ends : l.token = .endOfLine)
      (later : DerivesProgram ls lines) : DerivesProgram (l :: ls) lines
  | line {ls ms : List Lexeme} {l : Lexeme} {line : Line} {lines : List Line}
      (content : DerivesLine ls line) (ends : l.token = .endOfLine)
      (later : DerivesProgram ms lines) : DerivesProgram (ls ++ l :: ms) (line :: lines)
  | last {ls : List Lexeme} {line : Line} (content : DerivesLine ls line) : DerivesProgram ls [line]

/-- The lexemes before the first end of input, or all of them. -/
def beforeEnd (ls : List Lexeme) : List Lexeme := ls.takeWhile fun l => l.token ≠ .endOfInput

/-! ## Sequences of items -/

theorem DerivesItems.append {ls ms : List Lexeme} {is js : List Item} (first : DerivesItems ls is)
    (second : DerivesItems ms js) : DerivesItems (ls ++ ms) (is ++ js) := by
  induction first with
  | nil => exact second
  | atom head trail _ ih =>
    have joined := DerivesItems.atom head trail ih
    simpa only [List.cons_append, List.append_assoc] using joined
  | group opens statement closes trail _ _ ih =>
    have joined := DerivesItems.group opens statement closes trail ih
    simpa only [List.cons_append, List.append_assoc] using joined

theorem DerivesItems.nil_iff {ls : List Lexeme} {items : List Item} (h : DerivesItems ls items) :
    ls = [] ↔ items = [] := by
  cases h <;> simp

/-- An item of a derivation takes a mark after it, if it has none. -/
theorem DerivesItems.trail {ls : List Lexeme} {i : Item} (h : DerivesItems ls [i])
    (free : i.trailing = none) {l : Lexeme} {c : Char} (mark : l.token = .trailing c) :
    DerivesItems (ls ++ [l]) [i.trail c] := by
  cases h with
  | atom head trail later =>
    obtain rfl := later.nil_iff.mpr rfl
    obtain rfl : _ = none := free
    cases trail
    have marked := DerivesItems.atom head (.some mark) .nil
    simpa only [List.cons_append, List.nil_append, List.append_nil, Item.trail] using marked
  | group opens statement closes trail later =>
    obtain rfl := later.nil_iff.mpr rfl
    obtain rfl : _ = none := free
    cases trail
    have marked := DerivesItems.group opens statement closes (.some mark) .nil
    simpa only [List.cons_append, List.append_assoc, List.nil_append, List.append_nil, Item.trail]
      using marked

/-! ## Tokens -/

theorem IsAtom.ne {token : Token} {a : Atom} (h : IsAtom token a) :
    token ≠ .endOfInput ∧ token ≠ .endOfLine := by
  cases h <;> simp

/-! ## Labels -/

theorem label?_eq_some_iff (digits : Text) (n : Nat) :
    label? digits = some n ↔ IsLabel (.number digits) n := by
  constructor
  · intro h
    unfold label? at h
    split at h
    · next plain =>
      rw [List.all_eq_true] at plain
      cases digits with
      | nil => simp [readWord, Except.toOption] at h
      | cons c s =>
        rw [readWord_of_digits (plain c List.mem_cons_self)] at h
        cases read : readDigits 0 (c :: s) with
        | error e => simp [read, Except.toOption] at h
        | ok m =>
          obtain rfl : m = n := by simpa [read, Except.toOption] using h
          obtain ⟨-, rfl, word⟩ := digits_of_readDigits read (by decide)
          exact .digits (by simp) plain word
    · simp at h
  · rintro ⟨nonempty, plain, word⟩
    obtain ⟨c, s, rfl⟩ := List.exists_cons_of_ne_nil nonempty
    rw [label?, if_pos (List.all_eq_true.mpr plain),
      readWord_of_digits (plain c List.mem_cons_self), readDigits_eq_ok _ _ plain word]
    rfl

end Parse

end CommodoreBasic
