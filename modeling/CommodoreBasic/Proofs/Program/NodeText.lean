import CommodoreBasic.Proofs.Grammar.Parentheses
import CommodoreBasic.Proofs.Program.Lines

/-!
# Nodes stand where their text does

The position of a node is the place of a text that spells it. `Item.Spelled` says what texts an item
begins with, and `Parse.Begins.spelled` that the lexeme with which it begins is read from one of
them. The lexemes of a line stand on one physical line (`Parse.DerivesProgram.exists_row`) and in
ascending columns, so its nodes do as well.

The main statement is `Program.placed_of_parse`.
-/

namespace CommodoreBasic

/-- The text spells the beginning of an item: a keyword in any case, a name as it is, a literal that
denotes the number, the string in quotes, or the parenthesis. -/
inductive Item.Spelled : Item → Text → Prop
  | keyword {p : Position} {k : ReservedWord} {mark : Option Char} {segment : Text}
      (same : segment.upper = k.spelling) : Spelled (.atom p (.keyword k) mark) segment
  | number {p : Position} {value : Binary64} {mark : Option Char} {segment rest : Text}
      (literal : (Token.number segment).Reads segment rest)
      (denotes : Binary64.ofText segment = some value) :
      Spelled (.atom p (.number value) mark) segment
  | name {p : Position} {name : Text} {mark : Option Char} :
      Spelled (.atom p (.name name) mark) name
  | string {p : Position} {body : Text} {mark : Option Char} :
      Spelled (.atom p (.string body) mark) (quote body)
  | group {p start : Position} {inner : List Item} {mark : Option Char} :
      Spelled (.group p start inner mark) ['(']

namespace Parse

/-- A node is spelled by what the lexeme is read from with which it begins. -/
theorem Begins.spelled {l : Lexeme} {i : Item} (h : Begins l i) {segment rest : Text}
    (reads : l.token.Reads segment rest) : i.Spelled segment := by
  cases h with
  | group opens =>
    rw [opens] at reads
    cases reads with
    | punctuation => exact .group
  | atom head =>
    generalize token : l.token = t at head reads
    cases head with
    | keyword k =>
      cases reads with
      | keyword same => exact .keyword same
    | number denotes =>
      have literal := reads
      cases reads with
      | number => exact .number literal denotes
    | name name =>
      cases reads with
      | identifier => exact .name
    | string body =>
      cases reads with
      | string => exact .string

/-- A label is written with digits that denote it. -/
theorem IsLabel.spelled {token : Token} {n : Nat} (h : IsLabel token n) {segment rest : Text}
    (reads : token.Reads segment rest) : IsLabel (.number segment) n := by
  have label := h
  cases h with
  | digits =>
    generalize spelled : Token.number _ = t at reads label
    cases reads with
    | number => exact label
    | _ => cases spelled

/-- The lexemes of a line stand on the physical line where it begins. -/
theorem DerivesLine.row {ls rest : List Lexeme} {line : Line} {k : Nat} (h : DerivesLine ls line)
    (rows : Rows k (ls ++ rest)) :
    ∀ l ∈ ls, l.token ≠ .endOfLine ∧ l.position.line = line.position.line := by
  obtain ⟨row, -⟩ := rows.append h.enclosed.inner
  obtain ⟨first, inside, same⟩ := h.exists_position
  intro l member
  refine ⟨h.enclosed.inner l member, ?_⟩
  rw [← same, row l member, row first inside]

/-- Among the lexemes of a program are those of each line, all of them on one physical line. -/
theorem DerivesProgram.exists_row {ls : List Lexeme} {lines : List Line} {k : Nat}
    (h : DerivesProgram ls lines) (rows : Rows k ls) :
    ∀ line ∈ lines, ∃ ms, ms.Sublist ls ∧ DerivesLine ms line ∧
      ∀ l ∈ ms, l.token ≠ .endOfLine ∧ l.position.line = line.position.line := by
  induction h generalizing k with
  | nil => exact fun line member => absurd member List.not_mem_nil
  | endOfLine ends later ih =>
    obtain ⟨-, next, -, following⟩ := rows.of_endOfLine ends
    intro line member
    obtain ⟨ms, among, content, row⟩ := ih following line member
    exact ⟨ms, among.cons _, content, row⟩
  | line content ends later ih =>
    obtain ⟨-, tail⟩ := rows.append content.enclosed.inner
    obtain ⟨-, next, -, following⟩ := tail.of_endOfLine ends
    intro line member
    rcases List.mem_cons.mp member with rfl | member
    · exact ⟨_, List.sublist_append_left .., content, content.row rows⟩
    · obtain ⟨ms, among, content, row⟩ := ih following line member
      exact ⟨ms, (among.cons _).trans (List.sublist_append_right ..), content, row⟩
  | @last ls _ content =>
    intro line member
    obtain rfl := List.mem_singleton.mp member
    rw [← List.append_nil ls] at rows
    exact ⟨ls, .refl ls, content, content.row rows⟩

theorem position_eq_of_begins {ns : List Lexeme} {is : List Item} (h : List.Forall₂ Begins ns is) :
    is.map Item.position = ns.map Lexeme.position := by
  induction h with
  | nil => rfl
  | cons begins _ ih => rw [List.map_cons, List.map_cons, begins.position, ih]

theorem exists_begins_of_mem {ns : List Lexeme} {is : List Item} (h : List.Forall₂ Begins ns is) :
    ∀ i ∈ is, ∃ l ∈ ns, Begins l i := by
  induction h with
  | nil => exact fun i member => absurd member List.not_mem_nil
  | @cons l i ns is begins _ ih =>
    intro j member
    rcases List.mem_cons.mp member with rfl | member
    · exact ⟨l, List.mem_cons_self, begins⟩
    · obtain ⟨m, inside, later⟩ := ih j member
      exact ⟨m, List.mem_cons_of_mem l inside, later⟩

end Parse

/-! ## The order of nodes -/

/-- On one line, places that come one before the other have ascending columns. -/
theorem pairwise_column {n : Nat} {ps : List Position}
    (order : ps.Pairwise Position.Before) (row : ∀ p ∈ ps, p.line = n) :
    (ps.map Position.column).Pairwise (· < ·) := by
  rw [List.pairwise_map]
  refine order.imp_of_mem ?_
  intro p q hp hq before
  have first := row p hp
  have second := row q hq
  unfold Position.Before at before
  omega

/-- In ascending order what is inside a group stands between the group and what comes after it. -/
theorem inside_of_pairwise {before inside after : List Item} {group : Item}
    (order : ((before ++ group :: (inside ++ after)).map Item.position).map Position.column
      |>.Pairwise (· < ·)) :
    ∀ i ∈ inside, group.position.column < i.position.column ∧
      ∀ next ∈ after, i.position.column < next.position.column := by
  rw [List.map_map, List.pairwise_map, List.pairwise_append, List.pairwise_cons,
    List.pairwise_append] at order
  obtain ⟨-, ⟨beyond, -, -, apart⟩, -⟩ := order
  intro i member
  exact ⟨beyond i (List.mem_append_left _ member), apart i member⟩

/-! ## Programs -/

/-- A line of a text and each item in it at any depth stand where a text begins that spells them. -/
structure Line.Placed (e : Encoding) (s : Text) (line : Line) : Prop where
  /-- The line stands where its label does. -/
  label : ∃ digits, Parse.IsLabel (.number digits) line.label ∧ s.StandsAt e line.position digits
  /-- All items stand on one physical line. -/
  nodes : ∀ i ∈ line.nodes, i.position.line = line.position.line ∧
    ∃ segment, i.Spelled segment ∧ s.StandsAt e i.position segment
  /-- Their columns ascend from the label on. -/
  order : ((line.position :: line.nodes.map Item.position).map Position.column).Pairwise (· < ·)
  /-- What is inside a group stands between the parenthesis and whatever comes after the group. -/
  groups : ∀ before rest p start inner mark,
    line.nodes = before ++ .group p start inner mark :: rest →
    ∃ after, rest = Item.listNodes inner ++ after ∧
      ∀ i ∈ Item.listNodes inner, p.column < i.position.column ∧
        ∀ next ∈ after, i.position.column < next.position.column

namespace Program

/-- All lines of a program are placed in its text. -/
theorem placed_of_parse {e : Encoding} {source s : Text} {p : Program}
    (h : parse e source s = .ok p) : ∀ line ∈ p.lines, line.Placed e s := by
  obtain ⟨lines, read, rfl⟩ := parse_eq_ok_iff.mp h
  obtain ⟨clean, derived⟩ := derives_of_readLines read
  obtain ⟨whole, chain⟩ := chained_of_fault_eq_none clean
  intro line member
  obtain ⟨ms, among, content, row⟩ :=
    derived.exists_row (rows_place e .start chain) line member
  obtain ⟨l, ns, first, position, label, begins⟩ := content.exists_begins
  -- the label and the nodes are a selection of the lexemes, and inherit place and order from them
  have stands : ∀ m ∈ l :: ns, ∃ segment rest, m.token.Reads segment rest ∧
      s.StandsAt e m.position segment := by
    intro m inside
    have listed := first.subset inside
    have stands := standsAt_of_mem_place e chain (among.subset listed) (row m listed).1
    rwa [← whole] at stands
  have order : ((line.position :: line.nodes.map Item.position).map Position.column).Pairwise
      (· < ·) := by
    rw [Parse.position_eq_of_begins begins, ← position, ← List.map_cons]
    have before := (pairwise_place e .start chain).sublist (first.trans among)
    refine pairwise_column (List.pairwise_map.mpr before) (n := line.position.line) ?_
    intro q member
    obtain ⟨m, inside, rfl⟩ := List.mem_map.mp member
    exact (row m (first.subset inside)).2
  constructor
  · obtain ⟨digits, rest, reads, place⟩ := stands l List.mem_cons_self
    exact ⟨digits, label.spelled reads, position ▸ place⟩
  · intro i node
    obtain ⟨m, among_nodes, begin⟩ := Parse.exists_begins_of_mem begins i node
    have inside := List.mem_cons_of_mem l among_nodes
    obtain ⟨segment, rest, reads, place⟩ := stands m inside
    rw [begin.position]
    exact ⟨(row m (first.subset inside)).2, segment, begin.spelled reads, place⟩
  · exact order
  · intro before rest p start inner mark split
    obtain ⟨after, rfl⟩ := Item.listNodes_split split
    refine ⟨after, rfl, ?_⟩
    rw [split, List.map_cons] at order
    exact inside_of_pairwise (List.pairwise_cons.mp order).2

/-- Ten nodes, three of them in groups, after a tab and a character of two units, and a remark. -/
theorem placed_of_parse_groups :
    ∃ p, parse .utf16 [] "\r\t10 if\"𝄞\\\"\"=(not(a%,))then 2.5:stop\n20 Rem x".toList = .ok p ∧
      p.lines.map (fun line => line.nodes.length) = [10, 0] ∧
      ∀ line ∈ p.lines,
        line.Placed .utf16 "\r\t10 if\"𝄞\\\"\"=(not(a%,))then 2.5:stop\n20 Rem x".toList := by
  have counts : (parse .utf16 []
      "\r\t10 if\"𝄞\\\"\"=(not(a%,))then 2.5:stop\n20 Rem x".toList).toOption.map
        (fun p => p.lines.map fun line => line.nodes.length) = some [10, 0] := by
    decide +kernel
  obtain ⟨p, parsed, counted⟩ := exists_parse_of_map counts
  exact ⟨p, parsed, counted, placed_of_parse parsed⟩

end Program

end CommodoreBasic
