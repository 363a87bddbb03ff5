import CommodoreBasic.Proofs.Program.KeywordAt
import CommodoreBasic.Proofs.Program.NodeText
import CommodoreBasic.Proofs.Program.TextLine

/-!
# The spans of keywords

A keyword is in reach from its column to the one where it ends, both included, so two keywords with
nothing between them share a column, and the first one is found there. Lexemes do not overlap
(`pairwise_precedes_place`), and the items of a line begin with some of them in their order
(`pairwise_endsBefore`), so no more than two keywords meet in a column, and each of them is found in
the rest of its span.

The main statement is `Program.unshadowed_of_parse`.
-/

namespace CommodoreBasic

/-- The items of the statements of a line, without those in parentheses. -/
def Line.items (line : Line) : List Item := line.statements.flatMap Statement.items

namespace Item

/-- The item, if a keyword, is over in the column where the other one begins. -/
def EndsBefore (i j : Item) : Prop :=
  ∀ k, i.keyword? = some k → i.position.column + k.size ≤ j.position.column

/-- The item is the keyword, and its span has that column in it. -/
def Covers (column : Nat) (k : Keyword) (i : Item) : Prop :=
  i.keyword? = some k ∧ i.position.column ≤ column ∧ column ≤ i.position.column + k.size

theorem keywordOver?_eq_some_iff {column : Nat} {k : Keyword} {i : Item} :
    Program.keywordOver? column i = some k ↔ i.Covers column k := by
  simp [Program.keywordOver?, Covers, Option.filter_eq_some_iff]

/-- If one item is over where another one begins, they share a column only there. -/
theorem EndsBefore.column_eq {i j : Item} (apart : i.EndsBefore j) {column : Nat} {k k' : Keyword}
    (first : i.Covers column k) (second : j.Covers column k') :
    column = j.position.column ∧ i.position.column + k.size = column := by
  have passed := apart k first.1
  have reached := first.2.2
  have begun := second.2.1
  omega

/-! ## The first keyword in reach -/

section

variable {items : List Item} (order : items.Pairwise EndsBefore)

include order

/-- In ascending order a keyword is found in its span, unless another one ends in the column where
it begins. -/
theorem findSome?_of_covers {i : Item} {k : Keyword} {column : Nat} (member : i ∈ items)
    (covers : i.Covers column k)
    (free : column = i.position.column → ∀ j ∈ items, ∀ k', j.keyword? = some k' →
      j.position.column + k'.size ≠ column) :
    items.findSome? (Program.keywordOver? column) = some k := by
  obtain ⟨before, after, rfl⟩ := List.append_of_mem member
  rw [List.findSome?_eq_some_iff]
  refine ⟨before, i, after, rfl, keywordOver?_eq_some_iff.mpr covers, ?_⟩
  intro j earlier
  rw [Option.eq_none_iff_forall_ne_some]
  intro k' found
  have reached := keywordOver?_eq_some_iff.mp found
  have apart : j.EndsBefore i :=
    (List.pairwise_append.mp order).2.2 j earlier i List.mem_cons_self
  obtain ⟨begins, ends⟩ := apart.column_eq reached covers
  exact free begins j (List.mem_append_left _ earlier) k' reached.1 ends

/-- No three keywords share a column, if none of them is empty. -/
theorem countP_covers_le (wide : ∀ i ∈ items, ∀ k, i.keyword? = some k → 0 < k.size)
    (column : Nat) :
    items.countP (fun i => (Program.keywordOver? column i).isSome) ≤ 2 := by
  have covers : ∀ i ∈ items.filter fun i => (Program.keywordOver? column i).isSome,
      ∃ k, i.Covers column k ∧ 0 < k.size := by
    intro i member
    obtain ⟨inside, reached⟩ := List.mem_filter.mp member
    obtain ⟨k, found⟩ := Option.isSome_iff_exists.mp reached
    have covered := keywordOver?_eq_some_iff.mp found
    exact ⟨k, covered, wide i inside k covered.1⟩
  have apart := order.filter fun i => (Program.keywordOver? column i).isSome
  rw [List.countP_eq_length_filter]
  generalize items.filter _ = found at covers apart
  match found with
  | [] | [_] | [_, _] => simp
  | x :: y :: z :: _ =>
    obtain ⟨k, first, -⟩ := covers x (by simp)
    obtain ⟨k', second, nonempty⟩ := covers y (by simp)
    obtain ⟨k'', third, -⟩ := covers z (by simp)
    simp only [List.pairwise_cons] at apart
    -- the second one would begin and end in the column
    have begins := ((apart.1 y (by simp)).column_eq first second).1
    have ends := ((apart.2.1 z (by simp)).column_eq second third).2
    omega

end

end Item

/-! ## Items and lexemes -/

namespace Parse

/-- A keyword is as wide as the lexeme that it is. -/
theorem Begins.endsBefore {l m : Lexeme} {i j : Item} (first : Begins l i) (second : Begins m j)
    {line : Nat} (fits : l.Fits line) (row : m.position.line = line) (before : l.Precedes m) :
    i.EndsBefore j := by
  intro k isKeyword
  have width := fits.width k (first.token_of_keyword isKeyword)
  have same := fits.line
  rw [first.position, second.position, ← width]
  unfold Lexeme.Precedes at before
  omega

/-- The nodes of a line end one before the other, for so do the lexemes with which they begin. -/
theorem pairwise_endsBefore {ns : List Lexeme} {is : List Item} {line : Nat}
    (begins : List.Forall₂ Begins ns is) (fits : ∀ l ∈ ns, l.Fits line)
    (order : ns.Pairwise Lexeme.Precedes) : is.Pairwise Item.EndsBefore := by
  induction begins with
  | nil => exact .nil
  | @cons l i ns is first later ih =>
    obtain ⟨fit, rest⟩ := List.forall_mem_cons.mp fits
    obtain ⟨before, apart⟩ := List.pairwise_cons.mp order
    refine List.pairwise_cons.mpr ⟨?_, ih rest apart⟩
    intro j member
    obtain ⟨m, inside, second⟩ := exists_begins_of_mem later j member
    exact first.endsBefore second fit (rest m inside).line (before m inside)

/-- Each line of a program begins on a later physical line than the one before it. -/
theorem DerivesProgram.pairwise_line {ls : List Lexeme} {lines : List Line} {k : Nat}
    (h : DerivesProgram ls lines) (rows : Rows k ls) :
    lines.Pairwise fun l m => l.position.line < m.position.line := by
  induction h generalizing k with
  | nil => exact .nil
  | endOfLine ends later ih =>
    obtain ⟨-, next, -, following⟩ := rows.of_endOfLine ends
    exact ih following
  | line content ends later ih =>
    obtain ⟨row, tail⟩ := rows.append content.enclosed.inner
    obtain ⟨-, next, grows, following⟩ := tail.of_endOfLine ends
    obtain ⟨l, inside, same⟩ := content.exists_position
    refine List.pairwise_cons.mpr ⟨?_, ih following⟩
    intro m member
    rw [← same, row l inside]
    exact Nat.lt_of_lt_of_le grows (later.le_of_rows following m member)
  | last content => exact List.pairwise_singleton ..

end Parse

/-! ## Programs -/

namespace Program

/-- In a program the keywords of a line are found in their spans, each on the physical line where it
stands. -/
structure Unshadowed (p : Program) (line : Line) : Prop where
  /-- After its first column a keyword is found up to the column where it ends. -/
  inside : ∀ i ∈ line.items, ∀ k, i.keyword? = some k → ∀ column,
    i.position.column < column → column ≤ i.position.column + k.size →
    p.keywordAt? (i.position.line - 1) column = some k
  /-- In its first column it is found unless another keyword ends there. -/
  alone : ∀ i ∈ line.items, ∀ k, i.keyword? = some k →
    (∀ j ∈ line.items, ∀ k', j.keyword? = some k' →
      j.position.column + k'.size ≠ i.position.column) →
    p.keywordAt? (i.position.line - 1) i.position.column = some k
  /-- Then that one is found. -/
  shared : ∀ i ∈ line.items, ∀ k, i.keyword? = some k →
    ∀ j ∈ line.items, ∀ k', j.keyword? = some k' →
      j.position.column + k'.size = i.position.column →
    p.keywordAt? (i.position.line - 1) i.position.column = some k'
  /-- No three keywords have a column in their spans. -/
  two : ∀ column, line.items.countP (fun i => (keywordOver? column i).isSome) ≤ 2

/-- The items of a line do not overlap, the line is found on the physical line of each if that has a
word for a number, and no keyword among them is empty. -/
theorem items_of_parse {e : Encoding} {source s : Text} {p : Program}
    (h : parse e source s = .ok p) :
    ∀ line ∈ p.lines, line.items.Pairwise Item.EndsBefore ∧
      (line.position.line < wordCount →
        ∀ i ∈ line.items, p.textLine? (i.position.line - 1) = some line) ∧
      ∀ i ∈ line.items, ∀ k, i.keyword? = some k → 0 < k.size := by
  obtain ⟨lines, read, rfl⟩ := parse_eq_ok_iff.mp h
  obtain ⟨clean, derived⟩ := derives_of_readLines read
  obtain ⟨-, chain⟩ := chained_of_fault_eq_none clean
  have rows := rows_place e .start chain
  intro line member
  obtain ⟨ms, among, content, row⟩ := derived.exists_row rows line member
  obtain ⟨l, ns, first, -, -, begins⟩ := content.exists_begins
  have nodes : ns.Sublist ms := (List.sublist_cons_self l ns).trans first
  have fits : ∀ m ∈ ns, m.Fits line.position.line := by
    intro m inside
    have listed := nodes.subset inside
    exact (row m listed).2 ▸ fits_of_mem_place e chain (among.subset listed)
  have order := (pairwise_precedes_place e .start chain).sublist (nodes.trans among)
  have top : line.items.Sublist line.nodes := Item.sublist_listNodes line.items
  refine ⟨(Parse.pairwise_endsBefore begins fits order).sublist top, ?_, ?_⟩
  · intro word i inside
    obtain ⟨m, node, begin⟩ := Parse.exists_begins_of_mem begins i (top.subset inside)
    have number : i.position.line = line.position.line := by rw [begin.position, (fits m node).line]
    have positive := derived.le_of_rows rows line member
    refine textLine?_of_mem source (derived.pairwise_line rows) member word ?_
    show line.position.line = i.position.line - 1 + 1
    have start : 1 ≤ line.position.line := positive
    omega
  · intro i inside k isKeyword
    obtain ⟨m, node, begin⟩ := Parse.exists_begins_of_mem begins i (top.subset inside)
    exact (fits m node).wide k (begin.token_of_keyword isKeyword)

/-- Where the items do not overlap and a line is found on the physical line of each, no keyword is
shadowed. -/
theorem unshadowed_of_items {p : Program} {line : Line}
    (order : line.items.Pairwise Item.EndsBefore)
    (found : ∀ i ∈ line.items, p.textLine? (i.position.line - 1) = some line)
    (nonempty : ∀ i ∈ line.items, ∀ k, i.keyword? = some k → 0 < k.size) :
    p.Unshadowed line := by
  have look : ∀ i ∈ line.items, ∀ column, p.keywordAt? (i.position.line - 1) column =
      line.items.findSome? (keywordOver? column) := by
    intro i inside column
    rw [keywordAt?, found i inside]
    rfl
  constructor
  · intro i inside k isKeyword column after within
    rw [look i inside]
    refine Item.findSome?_of_covers order inside ⟨isKeyword, Nat.le_of_lt after, within⟩ ?_
    intro begins
    exact absurd begins (Nat.ne_of_gt after)
  · intro i inside k isKeyword free
    rw [look i inside]
    exact Item.findSome?_of_covers order inside
      ⟨isKeyword, Nat.le_refl _, Nat.le_add_right ..⟩ fun _ => free
  · intro i inside k isKeyword j other k' isOther ends
    rw [look i inside]
    -- it is the end of the other one, where that one is found
    have wide := nonempty j other k' isOther
    refine Item.findSome?_of_covers order other ⟨isOther, by omega, Nat.le_of_eq ends.symm⟩ ?_
    intro begins
    omega
  · exact Item.countP_covers_le order nonempty

/-- In the program of a text no keyword is shadowed by the ones beside it, on any line that has a
word for a number. In a text of fewer characters than words each line has one. -/
theorem unshadowed_of_parse {e : Encoding} {source s : Text} {p : Program}
    (h : parse e source s = .ok p) :
    (∀ line ∈ p.lines, line.position.line < wordCount → p.Unshadowed line) ∧
      (s.length + 1 < wordCount → ∀ line ∈ p.lines, p.Unshadowed line) := by
  have unshadowed : ∀ line ∈ p.lines, line.position.line < wordCount → p.Unshadowed line := by
    intro line member word
    obtain ⟨order, found, nonempty⟩ := items_of_parse h line member
    exact unshadowed_of_items order (found word) nonempty
  exact ⟨unshadowed, fun short line member =>
    unshadowed line member (line_lt_wordCount h short line member)⟩

/-- Two pairs of keywords with nothing between them and one in parentheses, after a character of two
units. -/
theorem unshadowed_of_parse_adjacent :
    ∃ p, parse .utf16 [] "10 print\"𝄞\";:ifnot(not a)thengoto 20\n20 end".toList = .ok p ∧
      p.lines.map (fun line => (line.items.filterMap Item.keyword?).map Keyword.spelling) =
        [["PRINT", "IF", "NOT", "THEN", "GOTO"].map String.toList, ["END".toList]] ∧
      ∀ line ∈ p.lines, p.Unshadowed line := by
  have read : (parse .utf16 []
      "10 print\"𝄞\";:ifnot(not a)thengoto 20\n20 end".toList).toOption.map
        (fun p => p.lines.map fun line =>
          (line.items.filterMap Item.keyword?).map Keyword.spelling) =
        some [["PRINT", "IF", "NOT", "THEN", "GOTO"].map String.toList, ["END".toList]] := by
    decide +kernel
  obtain ⟨p, parsed, keywords⟩ := exists_parse_of_map read
  exact ⟨p, parsed, keywords, (unshadowed_of_parse parsed).2 (by decide)⟩

end Program

end CommodoreBasic
