import CommodoreBasic.Grammar.Parse

/-!
# The recursion of the parser

Each function of the parser fails, or returns what it has read with the parser that goes on from
there. `Settled` states what holds in the one case and in the other, and `Settled.bind` puts two
functions one after the other. The functions for statements and items call each other;
`Parser.statement_induction` is the induction along these calls, for properties of parsers that a
parser further on has too.
-/

namespace CommodoreBasic

/-- The failures of a computation have one property, its results the other. -/
inductive Settled {ε α : Type} (failed : ε → Prop) (done : α → Prop) : Except ε α → Prop
  | error {e : ε} (h : failed e) : Settled failed done (.error e)
  | ok {a : α} (h : done a) : Settled failed done (.ok a)

namespace Settled

variable {ε α β : Type} {failed : ε → Prop} {done : α → Prop} {x : Except ε α}

/-- What comes after a computation may use what the computation has established. -/
theorem bind {after : β → Prop} (h : Settled failed done x) {f : α → Except ε β}
    (later : ∀ a, done a → Settled failed after (f a)) : Settled failed after (x >>= f) := by
  cases h with
  | error wrong => exact .error wrong
  | ok right => exact later _ right

end Settled

namespace Parser

/-! ## One lexeme further on -/

section

variable {p : Parser}

theorem token_next (h : p.token 0 ≠ .endOfInput) (n : Nat) : p.next.token n = p.token (n + 1) := by
  simp only [token, next, if_pos (index_lt_of_token h), Nat.add_assoc, Nat.add_comm 1 n]

theorem position_next (h : p.token 0 ≠ .endOfInput) (n : Nat) :
    p.next.position n = p.position (n + 1) := by
  simp only [position, next, if_pos (index_lt_of_token h), Nat.add_assoc, Nat.add_comm 1 n]

theorem startsStatement_next (h : p.token 0 ≠ .endOfInput) (n : Nat) :
    p.next.startsStatement n = p.startsStatement (n + 1) := by
  rw [startsStatement, startsStatement, token_next h]

/-- The tokens that can begin a statement. -/
theorem startsStatement_iff {n : Nat} :
    p.startsStatement n = true ↔ (∃ k, p.token n = .keyword k) ∨ (∃ s, p.token n = .number s) ∨
      (∃ s, p.token n = .identifier s) ∨ (∃ s, p.token n = .string s) ∨
      p.token n = .punctuation '(' := by
  unfold startsStatement
  split <;> simp_all

end

/-! ## Functions by the token where the parser stands -/

section

variable {p : Parser}

theorem value_of_number {digits : Text} (token : p.token 0 = .number digits) :
    p.value = match Binary64.ofText digits with
      | some x => .ok (p.take (by simp [token]) (.atom (p.position 0) (.number x) none))
      | none => .error (p.error .number) := by
  rw [value]
  split
  · next here => cases token.symm.trans here; rfl
  · next here => cases token.symm.trans here
  · next here => cases token.symm.trans here
  · next here => cases token.symm.trans here
  · next number _ _ _ => exact absurd token (number digits)

theorem value_of_identifier {name : Text} (token : p.token 0 = .identifier name) :
    p.value = .ok (p.take (by simp [token]) (.atom (p.position 0) (.name name) none)) := by
  rw [value]
  split
  · next here => cases token.symm.trans here
  · next here => cases token.symm.trans here; rfl
  · next here => cases token.symm.trans here
  · next here => cases token.symm.trans here
  · next _ identifier _ _ => exact absurd token (identifier name)

theorem value_of_string {body : Text} (token : p.token 0 = .string body) :
    p.value = .ok (p.take (by simp [token]) (.atom (p.position 0) (.string body) none)) := by
  rw [value]
  split
  · next here => cases token.symm.trans here
  · next here => cases token.symm.trans here
  · next here => cases token.symm.trans here; rfl
  · next here => cases token.symm.trans here
  · next _ _ string _ => exact absurd token (string body)

theorem value_of_opening (token : p.token 0 = .punctuation '(') :
    p.value =
      if p.startsStatement 1 then p.next.statement >>= fun s =>
        if s.rest.token 0 = .punctuation ')' then
          .ok ⟨.group (p.position 0) s.value.position s.value.items none, s.rest.next.index,
            Nat.lt_of_le_of_lt (Nat.le_trans (remaining_next_le s.rest) s.taken)
              (remaining_next_lt (by simp [token]))⟩
        else .error (s.rest.error .closingParenthesis)
      else .error (p.next.error .statement) := by
  rw [value]
  split
  · next here => cases token.symm.trans here
  · next here => cases token.symm.trans here
  · next here => cases token.symm.trans here
  · rfl
  · contradiction

theorem value_of_other (number : ∀ s, p.token 0 ≠ .number s)
    (identifier : ∀ s, p.token 0 ≠ .identifier s) (string : ∀ s, p.token 0 ≠ .string s)
    (opening : p.token 0 ≠ .punctuation '(') : p.value = .error (p.error .value) := by
  rw [value]
  split
  · next here => exact absurd here (number _)
  · next here => exact absurd here (identifier _)
  · next here => exact absurd here (string _)
  · contradiction
  · rfl

theorem item_of_keyword {k : Keyword} (token : p.token 0 = .keyword k) :
    p.item = .ok (p.take (by simp [token]) (.atom (p.position 0) (.keyword k) none)).trailed := by
  rw [item]
  split
  · next here => cases token.symm.trans here; rfl
  · next other => exact absurd token (other k)

theorem item_of_other (other : ∀ k, p.token 0 ≠ .keyword k) :
    p.item = p.value >>= fun i => .ok i.trailed := by
  rw [item]
  split
  · next here => exact absurd here (other _)
  · rfl

theorem label_of_number {digits : Text} (token : p.token 0 = .number digits) :
    p.label = match Parse.label? digits with
      | some n => .ok (p.take (by simp [token]) n)
      | none => .error (p.error .lineLabel) := by
  unfold label
  split
  · next here => cases token.symm.trans here; rfl
  · next other => exact absurd token (other digits)

theorem label_of_other (other : ∀ s, p.token 0 ≠ .number s) :
    p.label = .error (p.error .lineLabel) := by
  unfold label
  split
  · next here => exact absurd here (other _)
  · rfl

theorem lines_of_endOfInput (eof : p.token 0 = .endOfInput) : p.lines = .ok [] := by
  rw [lines]
  split
  · rfl
  · next ends => cases eof.symm.trans ends
  · contradiction

theorem lines_of_endOfLine (ends : p.token 0 = .endOfLine) : p.lines = p.next.lines := by
  rw [lines]
  split
  · next eof => cases ends.symm.trans eof
  · rfl
  · contradiction

theorem lines_of_other (eof : p.token 0 ≠ .endOfInput) (ends : p.token 0 ≠ .endOfLine) :
    p.lines = p.line >>= fun l => l.rest.lines >>= fun ls => .ok (l.value :: ls) := by
  rw [lines]
  split
  · contradiction
  · contradiction
  · rfl

end

/-! ## Induction -/

/-- Induction along the calls of the functions for statements and items. -/
theorem statement_induction {onValue onItem onItems onStatement : Parser → Prop}
    (value : ∀ p, (p.token 0 = .punctuation '(' → onStatement p.next) → onValue p)
    (item : ∀ p, onValue p → onItem p)
    (items : ∀ p, onItem p → (∀ i : p.Read 1 Item, onItems i.rest) → onItems p)
    (statement : ∀ p, onItems p → onStatement p) (p : Parser) : onStatement p := by
  suffices all : onItems p from statement p all
  generalize fewer : p.remaining = n
  induction n using Nat.strongRecOn generalizing p with
  | ind n ih =>
    subst fewer
    have inside : p.token 0 = .punctuation '(' → onStatement p.next := fun opens =>
      statement _ (ih _ (remaining_next_lt (by simp [opens])) p.next rfl)
    exact items p (item p (value p inside)) fun i => ih _ i.taken i.rest rfl

end Parser

end CommodoreBasic
