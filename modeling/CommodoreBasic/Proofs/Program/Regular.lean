import CommodoreBasic.Proofs.Grammar.Reread
import CommodoreBasic.Proofs.Lexical.Form
import CommodoreBasic.Proofs.Program.NodeText

/-!
# Regular trees

Not every tree is that of a text. In one that is, no name, string or remark goes beyond its line,
only commas and semicolons trail an item, and some positions are bound to others: every item stands
on the physical line where its line begins, and a statement and what is in parentheses begin where
their first item does. `Line.Regular` says so by recursion on the tree, and the main statement is
`regular_of_readLines`.
-/

namespace CommodoreBasic

/-- Marks are commas and semicolons. -/
def IsMark (m : Option Char) : Prop := ∀ c ∈ m, isTrailingMark c = true

/-- The atoms of a text: a name is spelled like one, and a string could stand in quotes. -/
inductive Atom.Regular : Atom → Prop
  | keyword (k : ReservedWord) : Regular (.keyword k)
  | number (x : Binary64) : Regular (.number x)
  | name {s : Text} (isName : IsName s) : Regular (.name s)
  | string {body : Text} (quotable : Quotable body) : Regular (.string body)

/-- Items that stand on line `k`. What is in parentheses begins where its first item does. -/
inductive Item.Regular (k : Nat) : List Item → Prop
  | nil : Regular k []
  | atom {p : Position} {a : Atom} {m : Option Char} {items : List Item} (line : p.line = k)
      (content : a.Regular) (isMark : IsMark m) (later : Regular k items) :
      Regular k (.atom p a m :: items)
  | group {p : Position} {i : Item} {inner : List Item} {m : Option Char} {items : List Item}
      (line : p.line = k) (isMark : IsMark m) (inside : Regular k (i :: inner))
      (later : Regular k items) : Regular k (.group p i.position (i :: inner) m :: items)

/-- A statement begins where its first item does. -/
inductive Statement.Regular (k : Nat) : Statement → Prop
  | items {i : Item} {is : List Item} (content : Item.Regular k (i :: is)) :
      Regular k ⟨i.position, i :: is⟩

/-- A remark does not go beyond its line. -/
inductive Body.Regular (k : Nat) : Body → Prop
  | comment {s : Text} (row : '\n' ∉ s) : Regular k (.comment s)
  | statements {ss : List Statement} (content : ∀ s ∈ ss, s.Regular k) : Regular k (.statements ss)

/-- Everything on a line stands on the physical line where it begins. -/
def Line.Regular (line : Line) : Prop := line.body.Regular line.position.line

/-! ## From derivations -/

/-- A lexeme that is read from a text and stands on line `k`. -/
def Lexeme.StandsOn (k : Nat) (l : Lexeme) : Prop :=
  l.position.line = k ∧ ∃ segment rest, l.token.Reads segment rest

namespace Parse

theorem IsAtom.regular {l : Lexeme} {a : Atom} (h : IsAtom l.token a) {k : Nat}
    (stands : l.StandsOn k) : a.Regular := by
  obtain ⟨-, segment, rest, reads⟩ := stands
  generalize l.token = t at h reads
  cases h with
  | keyword k =>
    cases reads with
    | @keyword k => exact .keyword k
  | number => exact .number _
  | name s => exact .name (reads.formed rfl)
  | string body =>
    cases reads with
    | string quotable => exact .string quotable

theorem DerivesMark.isMark {ls : List Lexeme} {m : Option Char} (h : DerivesMark ls m) {k : Nat}
    (stands : ∀ l ∈ ls, l.StandsOn k) : IsMark m :=
  isTrailingMark_of_derives h fun l member => (stands l member).2

/-- Items begin where their first lexeme stands. -/
theorem DerivesItems.exists_cons {l : Lexeme} {ls : List Lexeme} {items : List Item}
    (h : DerivesItems (l :: ls) items) : ∃ i is, items = i :: is ∧ i.position = l.position := by
  cases h with
  | atom => exact ⟨_, _, rfl, rfl⟩
  | group => exact ⟨_, _, rfl, rfl⟩

theorem DerivesItems.regular {ls : List Lexeme} {items : List Item} (h : DerivesItems ls items)
    {k : Nat} (stands : ∀ l ∈ ls, l.StandsOn k) : Item.Regular k items := by
  induction h with
  | nil => exact .nil
  | atom head trail later ih =>
    simp only [List.forall_mem_cons, List.forall_mem_append] at stands
    obtain ⟨first, marks, rest⟩ := stands
    exact .atom first.1 (head.regular first) (trail.isMark marks) (ih rest)
  | group opens statement closes trail later inner_ih ih =>
    obtain ⟨i, is, rfl, position⟩ := statement.exists_cons
    rw [← position]
    simp only [List.forall_mem_cons, List.forall_mem_append, List.cons_append] at stands
    obtain ⟨opening, first, inside, -, marks, rest⟩ := stands
    exact .group opening.1 (trail.isMark marks)
      (inner_ih (List.forall_mem_cons.mpr ⟨first, inside⟩)) (ih rest)

theorem DerivesStatement.regular {ls : List Lexeme} {s : Statement} (h : DerivesStatement ls s)
    {k : Nat} (stands : ∀ l ∈ ls, l.StandsOn k) : s.Regular k := by
  cases h with
  | items content =>
    obtain ⟨i, is, rfl, position⟩ := content.exists_cons
    rw [← position]
    exact .items (content.regular stands)

theorem DerivesStatements.regular {ls : List Lexeme} {ss : List Statement}
    (h : DerivesStatements ls ss) {k : Nat} (stands : ∀ l ∈ ls, l.StandsOn k) :
    ∀ s ∈ ss, s.Regular k := by
  induction h with
  | one statement => exact List.forall_mem_singleton.mpr (statement.regular stands)
  | cons statement isColon later ih =>
    simp only [List.forall_mem_cons, List.forall_mem_append] at stands
    obtain ⟨first, -, rest⟩ := stands
    exact List.forall_mem_cons.mpr ⟨statement.regular first, ih rest⟩

theorem DerivesLine.regular {ls : List Lexeme} {line : Line} (h : DerivesLine ls line)
    (stands : ∀ l ∈ ls, l.StandsOn line.position.line) : line.Regular := by
  cases h with
  | @comment l m n text label remark =>
    obtain ⟨-, segment, rest, reads⟩ := stands m (by simp)
    rw [remark] at reads
    exact .comment (reads.formed rfl).2.1
  | statements label content =>
    exact .statements (content.regular (List.forall_mem_cons.mp stands).2)

end Parse

/-- The lines of a text are regular. -/
theorem regular_of_readLines {e : Encoding} {s : Text} {lines : List Line}
    (h : readLines e s = .ok lines) : ∀ line ∈ lines, line.Regular := by
  obtain ⟨clean, derived⟩ := derives_of_readLines h
  obtain ⟨-, chain⟩ := chained_of_fault_eq_none clean
  intro line member
  obtain ⟨ms, among, content, row⟩ :=
    derived.exists_row (rows_place e .start chain) line member
  refine content.regular fun l inside => ⟨(row l inside).2, ?_⟩
  exact reads_of_mem_place (among.subset inside)

end CommodoreBasic
