import CommodoreBasic.Proofs.Grammar.Derivation

/-!
# Parentheses are closed on their line

What the grammar derives a part of a line from is `Enclosed`: no line ends in it, it closes as many
parentheses as it opens, and none before it has been opened. Each nonterminal of the grammar up to
the line keeps this, `DerivesLine.enclosed` being the last of them.
-/

namespace CommodoreBasic

/-- An opening parenthesis. -/
def Lexeme.opens (l : Lexeme) : Bool := l.token = .punctuation '('

/-- A closing parenthesis. -/
def Lexeme.closes (l : Lexeme) : Bool := l.token = .punctuation ')'

namespace Parse

/-- Lexemes that end no line, with parentheses that match: as many are closed as are opened, and at
every place at most as many. -/
structure Enclosed (ls : List Lexeme) : Prop where
  inner : ∀ l ∈ ls, l.token ≠ .endOfLine
  even : ls.countP Lexeme.opens = ls.countP Lexeme.closes
  opened : ∀ n, (ls.take n).countP Lexeme.closes ≤ (ls.take n).countP Lexeme.opens

theorem enclosed_nil : Enclosed [] := ⟨by simp, rfl, by simp⟩

theorem enclosed_singleton {l : Lexeme} (inner : l.token ≠ .endOfLine) (opens : l.opens = false)
    (closes : l.closes = false) : Enclosed [l] := by
  refine ⟨by simpa using inner, by simp [opens, closes], ?_⟩
  intro n
  cases n with
  | zero => simp
  | succ n => simp [opens, closes]

theorem Enclosed.append {ls ms : List Lexeme} (first : Enclosed ls) (second : Enclosed ms) :
    Enclosed (ls ++ ms) := by
  refine ⟨?_, ?_, ?_⟩
  · intro l hl
    rcases List.mem_append.mp hl with hl | hl
    · exact first.inner l hl
    · exact second.inner l hl
  · rw [List.countP_append, List.countP_append, first.even, second.even]
  · intro n
    have left := first.opened n
    have right := second.opened (n - ls.length)
    rw [List.take_append, List.countP_append, List.countP_append]
    omega

theorem Enclosed.cons {l : Lexeme} {ls : List Lexeme} (first : Enclosed [l])
    (second : Enclosed ls) : Enclosed (l :: ls) := first.append second

/-- Parentheses around lexemes whose own ones match. -/
theorem Enclosed.group {opening closing : Lexeme} {ls : List Lexeme} (inside : Enclosed ls)
    (opens : opening.token = .punctuation '(') (closes : closing.token = .punctuation ')') :
    Enclosed (opening :: (ls ++ [closing])) := by
  have one : opening.opens = true ∧ opening.closes = false ∧ closing.opens = false ∧
      closing.closes = true := by
    simp [Lexeme.opens, Lexeme.closes, opens, closes]
  obtain ⟨isOpening, notClosing, notOpening, isClosing⟩ := one
  refine ⟨?_, ?_, ?_⟩
  · intro l hl
    rcases List.mem_cons.mp hl with rfl | hl
    · simp [opens]
    rcases List.mem_append.mp hl with hl | hl
    · exact inside.inner l hl
    · obtain rfl := List.mem_singleton.mp hl
      simp [closes]
  · simp [isOpening, notClosing, notOpening, isClosing, inside.even]
  · intro n
    cases n with
    | zero => simp
    | succ n =>
      have within := inside.opened n
      simp only [List.take_succ_cons, List.countP_cons, isOpening, notClosing, List.take_append,
        List.countP_append]
      -- the closing parenthesis comes in only after all that it encloses
      by_cases all : n ≤ ls.length
      · rw [Nat.sub_eq_zero_of_le all]
        simpa using Nat.le_succ_of_le within
      · have whole : ls.take n = ls := List.take_of_length_le (by omega)
        have last : [closing].take (n - ls.length) = [closing] :=
          List.take_of_length_le (by simp only [List.length_singleton]; omega)
        rw [whole, last]
        simp [isClosing, notOpening, inside.even]

/-- An atom is no parenthesis and ends no line. -/
theorem IsAtom.enclosed {l : Lexeme} {a : Atom} (h : IsAtom l.token a) : Enclosed [l] := by
  generalize token : l.token = t at h
  cases h <;> exact enclosed_singleton (by simp [token]) (by simp [Lexeme.opens, token])
    (by simp [Lexeme.closes, token])

theorem IsLabel.enclosed {l : Lexeme} {n : Nat} (h : IsLabel l.token n) : Enclosed [l] := by
  generalize token : l.token = t at h
  cases h with
  | digits =>
    exact enclosed_singleton (by simp [token]) (by simp [Lexeme.opens, token])
      (by simp [Lexeme.closes, token])

theorem DerivesMark.enclosed {marks : List Lexeme} {mark : Option Char}
    (h : DerivesMark marks mark) : Enclosed marks := by
  cases h with
  | none => exact enclosed_nil
  | some token =>
    exact enclosed_singleton (by simp [token]) (by simp [Lexeme.opens, token])
      (by simp [Lexeme.closes, token])

theorem DerivesItems.enclosed {ls : List Lexeme} {items : List Item} (h : DerivesItems ls items) :
    Enclosed ls := by
  induction h with
  | nil => exact enclosed_nil
  | atom head trail _ ih => exact head.enclosed.cons (trail.enclosed.append ih)
  | @group opening first closing inside marks ls _ _ _ opens _ closes trail _ inside_ih ih =>
    have group := (inside_ih.group opens closes).append (trail.enclosed.append ih)
    simpa only [List.cons_append, List.append_assoc, List.nil_append] using group

theorem DerivesStatement.enclosed {ls : List Lexeme} {s : Statement} (h : DerivesStatement ls s) :
    Enclosed ls := by
  cases h with
  | items content => exact content.enclosed

theorem enclosed_colon {l : Lexeme} (isColon : l.token = .colon) : Enclosed [l] :=
  enclosed_singleton (by simp [isColon]) (by simp [Lexeme.opens, isColon])
    (by simp [Lexeme.closes, isColon])

theorem DerivesStatements.enclosed {ls : List Lexeme} {ss : List Statement}
    (h : DerivesStatements ls ss) : Enclosed ls := by
  induction h with
  | one statement => exact statement.enclosed
  | cons statement isColon _ ih =>
    exact statement.enclosed.append ((enclosed_colon isColon).cons ih)

theorem DerivesLine.enclosed {ls : List Lexeme} {line : Line} (h : DerivesLine ls line) :
    Enclosed ls := by
  cases h with
  | comment label remark =>
    exact label.enclosed.cons (enclosed_singleton (by simp [remark])
      (by simp [Lexeme.opens, remark]) (by simp [Lexeme.closes, remark]))
  | statements label statements => exact label.enclosed.cons statements.enclosed

end Parse

end CommodoreBasic
