import CommodoreBasic.Proofs.Grammar.Derivation
import CommodoreBasic.Proofs.Grammar.Relocation

/-!
# A statement in parentheses

A statement stays one at other places (`DerivesStatement.relocate`), and in parentheses it becomes
the only item of another statement. `Statement.enclose` is that tree, for any number of parentheses
in consecutive columns; `DerivesStatement.enclose` says that it is derived, by induction on their
number.
-/

namespace CommodoreBasic

/-- The statement in that many pairs of parentheses, the first of which opens at the given place
and each of the others in the column after. No mark trails them. -/
def Statement.enclose (s : Statement) : Position → Nat → Statement
  | _, 0 => s
  | p, depth + 1 =>
    let inner := s.enclose (p.right 1) depth
    ⟨p, [.group p inner.position inner.items none]⟩

namespace Parse

/-! ## Derivations at other places -/

theorem DerivesMark.relocate (f : Position → Position) {ls : List Lexeme} {mark : Option Char}
    (h : DerivesMark ls mark) : DerivesMark (ls.map (Lexeme.relocate f)) mark := by
  cases h with
  | none => exact .none
  | @some l c mark => exact .some ((l.token_relocate f).trans mark)

theorem DerivesItems.relocate (f : Position → Position) {ls : List Lexeme} {items : List Item}
    (h : DerivesItems ls items) :
    DerivesItems (ls.map (Lexeme.relocate f)) (items.map (Item.relocate f)) := by
  induction h with
  | nil => exact .nil
  | @atom l a marks ls mark items head trail _ ih =>
    rw [List.map_cons, List.map_append, List.map_cons, Item.relocate_atom]
    exact .atom ((l.token_relocate f).symm ▸ head) (trail.relocate f) ih
  | @group opening first closing inside marks ls inner mark items opens _ closes trail _ content
      ih =>
    simp only [List.map_cons, List.map_append, List.cons_append, Item.relocate_group] at content ⊢
    exact .group ((opening.token_relocate f).trans opens) content
      ((closing.token_relocate f).trans closes) (trail.relocate f) ih

theorem DerivesStatement.relocate (f : Position → Position) {ls : List Lexeme} {s : Statement}
    (h : DerivesStatement ls s) : DerivesStatement (ls.map (Lexeme.relocate f)) (s.relocate f) := by
  cases h with
  | items content => exact .items (content.relocate f)

/-! ## What a derivation says of its lexemes -/

theorem DerivesMark.ne_comment {ls : List Lexeme} {mark : Option Char} (h : DerivesMark ls mark) :
    ∀ l ∈ ls, ∀ text, l.token ≠ .comment text := by
  cases h with
  | none => simp
  | some mark => simp [mark]

theorem IsAtom.ne_comment {token : Token} {a : Atom} (h : IsAtom token a) (text : Text) :
    token ≠ .comment text := by
  cases h <;> simp

/-- No remark is part of a statement. -/
theorem DerivesItems.ne_comment {ls : List Lexeme} {items : List Item} (h : DerivesItems ls items) :
    ∀ l ∈ ls, ∀ text, l.token ≠ .comment text := by
  induction h with
  | nil => simp
  | atom head trail _ ih =>
    rw [List.forall_mem_cons, List.forall_mem_append]
    exact ⟨head.ne_comment, trail.ne_comment, ih⟩
  | group opens _ closes trail _ inside ih =>
    simp only [List.cons_append, List.forall_mem_cons, List.forall_mem_append] at inside ⊢
    exact ⟨by simp [opens], inside.1, inside.2, by simp [closes], trail.ne_comment, ih⟩

theorem DerivesStatement.ne_comment {ls : List Lexeme} {s : Statement} (h : DerivesStatement ls s) :
    ∀ l ∈ ls, ∀ text, l.token ≠ .comment text := by
  cases h with
  | items content => exact content.ne_comment

/-- The lexemes of a single line are derived as this line. -/
theorem DerivesProgram.of_line {ls : List Lexeme} {line : Line} (h : DerivesProgram ls [line])
    (inner : ∀ l ∈ ls, l.token ≠ .endOfLine) : DerivesLine ls line := by
  cases h with
  | endOfLine ends => exact absurd ends (inner _ List.mem_cons_self)
  | line content ends => exact absurd ends (inner _ (by simp))
  | last content => exact content

/-- Lexemes of which a single statement is derived are those of the statement. -/
theorem DerivesStatements.of_one {ls : List Lexeme} {s : Statement}
    (h : DerivesStatements ls [s]) : DerivesStatement ls s := by
  cases h with
  | one statement => exact statement
  | cons _ _ later => cases later

/-! ## Parentheses -/

/-- That many opening parentheses, the first of them at the given place. -/
def openings : Position → Nat → List Lexeme
  | _, 0 => []
  | p, depth + 1 => ⟨.punctuation '(', p, 1⟩ :: openings (p.right 1) depth

/-- One pair of parentheses. -/
theorem DerivesStatement.group {ls : List Lexeme} {s : Statement} (h : DerivesStatement ls s)
    (p : Position) {closing : Lexeme} (closes : closing.token = .punctuation ')') :
    DerivesStatement (⟨.punctuation '(', p, 1⟩ :: (ls ++ [closing]))
      ⟨p, [.group p s.position s.items none]⟩ := by
  cases h with
  | items content => exact .items (.group rfl content closes .none .nil)

/-- A statement between opening parentheses and as many that close them. -/
theorem DerivesStatement.enclose {ls : List Lexeme} {s : Statement} (h : DerivesStatement ls s)
    (p : Position) {depth : Nat} {closings : List Lexeme} (length : closings.length = depth)
    (close : ∀ m ∈ closings, m.token = .punctuation ')') :
    DerivesStatement (openings p depth ++ (ls ++ closings)) (s.enclose p depth) := by
  induction depth generalizing p closings with
  | zero =>
    rw [List.eq_nil_of_length_eq_zero length, List.append_nil]
    exact h
  | succ depth ih =>
    -- the outermost pair: the first parenthesis and the last
    rcases List.eq_nil_or_concat closings with rfl | ⟨closings, last, rfl⟩
    · contradiction
    have fewer : closings.length = depth := by simpa using length
    have inside := ih (p.right 1) fewer fun m member => close m (by simp [member])
    have closes : last.token = .punctuation ')' := close last (by simp)
    have regroup : openings p (depth + 1) ++ (ls ++ closings.concat last) =
        ⟨.punctuation '(', p, 1⟩ ::
          ((openings (p.right 1) depth ++ (ls ++ closings)) ++ [last]) := by
      simp [openings]
    rw [regroup]
    exact inside.group p closes

end Parse

end CommodoreBasic
