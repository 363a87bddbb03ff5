import CommodoreBasic.Proofs.Dump.Rows

/-!
# A dump tells the tree

A dump writes names, strings and remarks as they are, and leaves most positions out. The trees of
texts are regular, though (`Line.Regular`): what is written as it is stays on its row, and the
positions that are left out are those of the line or of the first item. So a dump is read back row
by row; where the items of one depth end, the next row has fewer blanks before it
(`Text.Dedents`, `items_inj`).

The main statement is `Program.lines_eq_of_dump`.
-/

namespace CommodoreBasic

/-- On a line the column tells the place. -/
theorem Position.eq_of_column {k : Nat} {p q : Position} (hp : p.line = k) (hq : q.line = k)
    (column : p.column = q.column) : p = q := by
  cases p
  cases q
  cases hp
  cases hq
  cases column
  rfl

/-! ## What rows say -/

namespace Palette

theorem entry_group : Entry ['('] := by
  refine ⟨by decide, ?_⟩
  rintro c ⟨rfl⟩
  rfl

/-- An entry in quotes. -/
theorem Entry.quoted {s t : Text} (hs : '\n' ∉ s) (ht : '\n' ∉ t) : Entry (s ++ t ++ ['\'']) := by
  refine ⟨?_, ?_⟩
  · simp [hs, ht]
  · intro c last
    rw [List.getLast?_concat] at last
    obtain rfl := Option.some.inj last
    rfl

/-- Letters, digits, the blank and signs that are no marks. -/
def isBare (c : Char) : Bool := c.isAlphanum || [' ', '.', '-', '$', '%'].contains c

theorem isBare_of_isAlphanum {c : Char} (h : c.isAlphanum = true) : isBare c = true := by
  rw [isBare, h, Bool.true_or]

/-- An entry without quotes. -/
theorem Entry.bare {s : Text} (plain : ∀ c ∈ s, isBare c = true) : Entry s := by
  refine ⟨fun feed => absurd (plain '\n' feed) (by decide), ?_⟩
  intro c last
  have inside := plain c (List.mem_of_getLast? last)
  rw [isTrailingMark, Bool.or_eq_false_iff, decide_eq_false_iff_not, decide_eq_false_iff_not]
  constructor
  · rintro rfl
    contradiction
  · rintro rfl
    contradiction

end Palette

/-- What a row says of an atom stays on the row, whatever the atom holds. -/
theorem Atom.Regular.entry {a : Atom} (h : a.Regular) : Palette.Entry (Palette.plain.atom a) := by
  cases h with
  | keyword k =>
    refine .quoted (by decide) fun feed => ?_
    have plain := isLineBreak_of_keyword k.spelling_plain.2 '\n' feed
    contradiction
  | string quotable =>
    refine .quoted (by decide) fun feed => ?_
    have plain := quotable.line '\n' feed
    contradiction
  | number x =>
    have heading : "number ".toList.all Palette.isBare = true := rfl
    refine .bare (List.forall_mem_append.mpr ⟨List.all_eq_true.mp heading, ?_⟩)
    intro c member
    rcases Binary64.mem_text c member with alphanumeric | rfl | rfl
    · exact Palette.isBare_of_isAlphanum alphanumeric
    · rfl
    · rfl
  | name isName =>
    have heading : "var ".toList.all Palette.isBare = true := rfl
    obtain ⟨letters, sigil, rfl, -, alpha, sigils⟩ := isName.spelled
    refine .bare (List.forall_mem_append.mpr
      ⟨List.all_eq_true.mp heading, List.forall_mem_append.mpr ⟨?_, ?_⟩⟩)
    · intro c member
      refine Palette.isBare_of_isAlphanum ?_
      rw [Char.isAlphanum, alpha c member, Bool.true_or]
    · rcases sigils with rfl | rfl | rfl
      · exact fun c member => absurd member List.not_mem_nil
      · exact List.forall_mem_singleton.mpr rfl
      · exact List.forall_mem_singleton.mpr rfl

/-! ## Where a depth ends -/

/-- The text does not begin with `n` blanks. -/
def Text.Dedents (n : Nat) (s : Text) : Prop := ¬ List.replicate n ' ' <+: s

theorem Text.Dedents.mono {n m : Nat} {s : Text} (h : Dedents n s) (le : n ≤ m) : Dedents m s := by
  refine fun begins => h (List.IsPrefix.trans ?_ begins)
  obtain ⟨k, rfl⟩ := Nat.exists_eq_add_of_le le
  exact ⟨List.replicate k ' ', List.replicate_append_replicate⟩

/-- With fewer blanks before it, another character ends the depth. -/
theorem Text.dedents_of_lt {n m : Nat} (lt : n < m) {c : Char} (other : c ≠ ' ') (s : Text) :
    Dedents m (List.replicate n ' ' ++ c :: s) := by
  rintro ⟨rest, same⟩
  obtain ⟨k, rfl⟩ := Nat.exists_eq_add_of_lt lt
  rw [show n + k + 1 = n + (k + 1) from rfl, ← List.replicate_append_replicate, List.append_assoc,
    List.replicate_succ] at same
  exact other (List.cons.inj (List.append_cancel_left same)).1.symm

namespace Palette

theorem items_atom (n : Nat) (p : Position) (a : Atom) (m : Option Char) (is : List Item)
    (rest : Text) :
    plain.items n (.atom p a m :: is) ++ rest =
      plain.row n p (plain.atom a) m ++ (plain.items n is ++ rest) := by
  rw [items, item, List.append_assoc]

theorem items_group (n : Nat) (p start : Position) (inner : List Item) (m : Option Char)
    (is : List Item) (rest : Text) :
    plain.items n (.group p start inner m :: is) ++ rest =
      plain.row n p ['('] m ++
        (heading (n + 2) ++ (plain.items (n + 4) inner ++ (plain.items n is ++ rest))) := by
  rw [items, item]
  simp only [List.append_assoc]

/-- Items are shown behind as many blanks as their depth says, and no more. -/
theorem items_cons (n : Nat) (i : Item) (is : List Item) (rest : Text) :
    ∃ s, plain.items n (i :: is) ++ rest = List.replicate n ' ' ++ '@' :: s := by
  cases i with
  | atom p a m =>
    rw [items_atom, row_plain, List.append_assoc, List.append_assoc]
    exact ⟨_, rfl⟩
  | group p start inner m =>
    rw [items_group, row_plain, List.append_assoc, List.append_assoc]
    exact ⟨_, rfl⟩

/-- So a greater depth ends with them. -/
theorem dedents_items {n m : Nat} (lt : n < m) (is : List Item) {rest : Text}
    (ends : Text.Dedents n rest) : Text.Dedents m (plain.items n is ++ rest) := by
  cases is with
  | nil =>
    rw [items]
    exact ends.mono (Nat.le_of_lt lt)
  | cons i is =>
    obtain ⟨s, shown⟩ := items_cons n i is rest
    rw [shown]
    exact Text.dedents_of_lt lt (by decide) s

/-- No items go on where their depth ends. -/
theorem items_nil_ne {n : Nat} {i : Item} {is : List Item} {rest rest' : Text}
    (ends : Text.Dedents n rest) :
    plain.items n [] ++ rest ≠ plain.items n (i :: is) ++ rest' := by
  obtain ⟨s, shown⟩ := items_cons n i is rest'
  rw [items, List.nil_append, shown]
  rintro rfl
  exact ends (List.prefix_append ..)

/-! ## Reading back -/

/-- Items of one depth are told by their rows, up to where the depth ends. -/
theorem items_inj {k : Nat} {is js : List Item} (hi : Item.Regular k is) (hj : Item.Regular k js)
    {n : Nat} {rest rest' : Text} (ends : Text.Dedents n rest) (ends' : Text.Dedents n rest')
    (same : plain.items n is ++ rest = plain.items n js ++ rest') : is = js ∧ rest = rest' := by
  induction hi generalizing js n rest rest' with
  | nil =>
    cases js with
    | nil => exact ⟨rfl, List.append_cancel_left same⟩
    | cons j js => exact absurd same (items_nil_ne ends)
  | @atom p a m is line content isMark later ih =>
    cases hj with
    | nil => exact absurd same.symm (items_nil_ne ends')
    | @atom q b m' js line' content' isMark' later' =>
      rw [items_atom, items_atom] at same
      obtain ⟨column, atoms, marks, onward⟩ :=
        row_inj content.entry content'.entry isMark isMark' same
      obtain ⟨rfl, rest⟩ := ih later' ends ends' onward
      obtain rfl := Position.eq_of_column line line' column
      obtain rfl := atom_injective atoms
      exact ⟨by rw [marks], rest⟩
    | group line' isMark' inside later' =>
      rw [items_atom, items_group] at same
      obtain ⟨-, atoms, -⟩ := row_inj content.entry entry_group isMark isMark' same
      exact absurd atoms (atom_ne_group a)
  | @group p i inner m is line isMark inside later inner_ih ih =>
    cases hj with
    | nil => exact absurd same.symm (items_nil_ne ends')
    | @atom q b m' js line' content' isMark' later' =>
      rw [items_group, items_atom] at same
      obtain ⟨-, atoms, -⟩ := row_inj entry_group content'.entry isMark isMark' same
      exact absurd atoms.symm (atom_ne_group b)
    | @group q j inner' m' js line' isMark' inside' later' =>
      rw [items_group, items_group] at same
      obtain ⟨column, -, marks, onward⟩ := row_inj entry_group entry_group isMark isMark' same
      -- the items in parentheses end where their depth does, and the others go on from there
      obtain ⟨inner_same, onward⟩ := inner_ih inside' (dedents_items (by omega) is ends)
        (dedents_items (by omega) js ends') (List.append_cancel_left onward)
      obtain ⟨rfl, rest⟩ := ih later' ends ends' onward
      obtain ⟨rfl, rfl⟩ := List.cons.inj inner_same
      obtain rfl := Position.eq_of_column line line' column
      exact ⟨by rw [marks], rest⟩

theorem statements_cons (s : Statement) (ss : List Statement) (rest : Text) :
    (s :: ss).flatMap (plain.statement 2) ++ rest =
      heading 2 ++ (plain.items 4 s.items ++ (ss.flatMap (plain.statement 2) ++ rest)) := by
  rw [List.flatMap_cons, statement, List.append_assoc, List.append_assoc]

theorem dedents_statements (ss : List Statement) {rest : Text} (ends : Text.Dedents 2 rest) :
    Text.Dedents 4 (ss.flatMap (plain.statement 2) ++ rest) := by
  cases ss with
  | nil => exact ends.mono (by decide)
  | cons s ss =>
    rw [statements_cons]
    exact Text.dedents_of_lt (show 2 < 4 by decide) (show 's' ≠ ' ' by decide) _

theorem statements_ne_of_dedents {s : Statement} {ss : List Statement} {rest rest' : Text}
    (ends : Text.Dedents 2 rest) : rest ≠ (s :: ss).flatMap (plain.statement 2) ++ rest' := by
  rintro rfl
  rw [statements_cons] at ends
  exact ends ⟨_, rfl⟩

/-- Statements are told by their headings and items. -/
theorem statements_inj {k : Nat} {ss ts : List Statement} (hs : ∀ s ∈ ss, s.Regular k)
    (ht : ∀ s ∈ ts, s.Regular k) {rest rest' : Text} (ends : Text.Dedents 2 rest)
    (ends' : Text.Dedents 2 rest')
    (same : ss.flatMap (plain.statement 2) ++ rest = ts.flatMap (plain.statement 2) ++ rest') :
    ss = ts ∧ rest = rest' := by
  induction ss generalizing ts with
  | nil =>
    cases ts with
    | nil => exact ⟨rfl, same⟩
    | cons t ts => exact absurd same (statements_ne_of_dedents ends)
  | cons s ss ih =>
    cases ts with
    | nil => exact absurd same.symm (statements_ne_of_dedents ends')
    | cons t ts =>
      obtain ⟨first, later⟩ := List.forall_mem_cons.mp hs
      obtain ⟨first', later'⟩ := List.forall_mem_cons.mp ht
      rw [statements_cons, statements_cons] at same
      cases first with
      | items content =>
        cases first' with
        | items content' =>
          obtain ⟨items_same, onward⟩ := items_inj content content' (dedents_statements ss ends)
            (dedents_statements ts ends') (List.append_cancel_left same)
          obtain ⟨rfl, rest⟩ := ih later later' onward
          obtain ⟨rfl, rfl⟩ := List.cons.inj items_same
          exact ⟨rfl, rest⟩

/-- The rows below the row of a line. -/
def body : Body → Text
  | .comment s => "  comment '".toList ++ s ++ "'\n".toList
  | .statements ss => ss.flatMap (plain.statement 2)

theorem body_comment (s rest : Text) :
    body (.comment s) ++ rest = "  comment '".toList ++ (s ++ ['\''] ++ '\n' :: rest) := by
  show "  comment '".toList ++ s ++ ['\'', '\n'] ++ rest = _
  rw [List.append_assoc, List.append_assoc, List.append_assoc]
  rfl

theorem body_statements (ss : List Statement) :
    body (.statements ss) = ss.flatMap (plain.statement 2) := rfl

/-- A remark is told from statements by its first letter. -/
theorem comment_ne_statements {s : Text} {ss : List Statement} {rest rest' : Text}
    (ends : Text.Dedents 2 rest') :
    body (.comment s) ++ rest ≠ body (.statements ss) ++ rest' := by
  rw [body_comment]
  cases ss with
  | nil =>
    rintro rfl
    exact ends ⟨_, rfl⟩
  | cons t ts =>
    rw [body_statements, statements_cons]
    intro same
    have letters : some 'c' = some 's' := congrArg (·[2]?) same
    contradiction

/-- What follows the label is told by the rows below the line. -/
theorem body_inj {k : Nat} {b b' : Body} (hb : b.Regular k) (hb' : b'.Regular k)
    {rest rest' : Text} (ends : Text.Dedents 2 rest) (ends' : Text.Dedents 2 rest')
    (same : body b ++ rest = body b' ++ rest') : b = b' ∧ rest = rest' := by
  cases hb with
  | @comment s row =>
    cases hb' with
    | @comment t row' =>
      have inside : ∀ {s : Text}, '\n' ∉ s → '\n' ∉ s ++ ['\''] := by
        intro s row member
        rcases List.mem_append.mp member with member | quote
        · exact row member
        · exact absurd (List.mem_singleton.mp quote) (by decide)
      rw [body_comment, body_comment] at same
      obtain ⟨quoted, rest⟩ :=
        Text.append_cons_inj (inside row) (inside row') (List.append_cancel_left same)
      exact ⟨by rw [List.append_cancel_right quoted], rest⟩
    | statements => exact absurd same (comment_ne_statements ends')
  | @statements ss content =>
    cases hb' with
    | comment => exact absurd same.symm (comment_ne_statements ends)
    | @statements ts content' =>
      obtain ⟨rfl, rest⟩ := statements_inj content content' ends ends' same
      exact ⟨rfl, rest⟩

theorem line_plain (l : Line) (rest : Text) :
    plain.line l ++ rest = "BASIC line".toList ++ ' ' :: (decimal l.label ++ ' ' :: '@' ::
      (decimal l.position.line ++ ':' ::
        (decimal l.position.column ++ '\n' :: (body l.body ++ rest)))) := by
  have rows : plain.line l = "BASIC line".toList ++ ' ' :: decimal l.label ++
      ' ' :: ('@' :: l.position.text) ++ '\n' :: body l.body := by
    unfold line
    cases l.body <;> rfl
  rw [rows, Position.text]
  simp only [List.append_assoc, List.cons_append]

theorem dedents_lines (ls : List Line) : Text.Dedents 2 (plain.lines ls) := by
  cases ls with
  | nil => exact fun begins => absurd (List.prefix_nil.mp begins) (by decide)
  | cons l ls =>
    rw [lines, List.flatMap_cons, line_plain]
    exact Text.dedents_of_lt (show 0 < 2 by decide) (show 'B' ≠ ' ' by decide) _

/-- The row of a line tells its label and its place. -/
theorem header_inj {l m : Line} {rest rest' : Text}
    (same : plain.line l ++ rest = plain.line m ++ rest') :
    l.label = m.label ∧ l.position = m.position ∧ body l.body ++ rest = body m.body ++ rest' := by
  have blank : ∀ n, ' ' ∉ decimal n := not_mem_decimal rfl
  have colon : ∀ n, ':' ∉ decimal n := not_mem_decimal rfl
  have feed : ∀ n, '\n' ∉ decimal n := not_mem_decimal rfl
  rw [line_plain, line_plain] at same
  obtain ⟨-, same⟩ := List.cons.inj (List.append_cancel_left same)
  obtain ⟨labels, same⟩ := Text.append_cons_inj (blank _) (blank _) same
  obtain ⟨-, same⟩ := List.cons.inj same
  obtain ⟨rows, same⟩ := Text.append_cons_inj (colon _) (colon _) same
  obtain ⟨columns, below⟩ := Text.append_cons_inj (feed _) (feed _) same
  refine ⟨decimal_injective labels, ?_, below⟩
  exact Position.eq_of_column (decimal_injective rows) rfl (decimal_injective columns)

/-- A line is told by its rows. -/
theorem line_inj {l m : Line} (hl : l.Regular) (hm : m.Regular) {rest rest' : Text}
    (ends : Text.Dedents 2 rest) (ends' : Text.Dedents 2 rest')
    (same : plain.line l ++ rest = plain.line m ++ rest') : l = m ∧ rest = rest' := by
  obtain ⟨label, position, below⟩ := header_inj same
  rw [Line.Regular, ← position] at hm
  obtain ⟨bodies, onward⟩ := body_inj hl hm ends ends' below
  cases l
  cases m
  cases label
  cases position
  cases bodies
  exact ⟨rfl, onward⟩

/-- So are all lines, one after the other. -/
theorem lines_inj {ls ms : List Line} (hl : ∀ l ∈ ls, l.Regular) (hm : ∀ l ∈ ms, l.Regular)
    (same : plain.lines ls = plain.lines ms) : ls = ms := by
  induction ls generalizing ms with
  | nil =>
    cases ms with
    | nil => rfl
    | cons m ms =>
      rw [lines, lines, List.flatMap_cons, line_plain] at same
      contradiction
  | cons l ls ih =>
    cases ms with
    | nil =>
      rw [lines, lines, List.flatMap_cons, line_plain] at same
      contradiction
    | cons m ms =>
      obtain ⟨first, later⟩ := List.forall_mem_cons.mp hl
      obtain ⟨first', later'⟩ := List.forall_mem_cons.mp hm
      rw [lines, lines, List.flatMap_cons, List.flatMap_cons] at same
      obtain ⟨rfl, onward⟩ := line_inj first first' (dedents_lines ls) (dedents_lines ms) same
      rw [ih later later' onward]

end Palette

/-- Two programs with the same dump have the same lines, in every label, remark, item, mark and
position, whatever texts they were read from. -/
theorem Program.lines_eq_of_dump {e e' : Encoding} {source source' s s' : Text} {p p' : Program}
    (h : Program.parse e source s = .ok p) (h' : Program.parse e' source' s' = .ok p')
    (same : Palette.plain.lines p.lines = Palette.plain.lines p'.lines) : p.lines = p'.lines := by
  obtain ⟨lines, read, rfl⟩ := parse_eq_ok_iff.mp h
  obtain ⟨lines', read', rfl⟩ := parse_eq_ok_iff.mp h'
  exact Palette.lines_inj (regular_of_readLines read) (regular_of_readLines read') same

/-- A remark with quotes and a mark in it, and another text with the same dump. -/
theorem Program.lines_eq_of_dump_remark :
    ∃ p p', Program.parse .utf16 [] "1 rem 'x' ;".toList = .ok p ∧
      Program.parse .utf8 [] "1\trem 'x' ;\r\n\n".toList = .ok p' ∧
      Palette.plain.lines p.lines = "BASIC line 1 @1:1\n  comment 'rem 'x' ;'\n".toList ∧
      Palette.plain.lines p'.lines = "BASIC line 1 @1:1\n  comment 'rem 'x' ;'\n".toList ∧
      p.lines = p'.lines := by
  have read : (Program.parse .utf16 [] "1 rem 'x' ;".toList).toOption.map
      (fun p => Palette.plain.lines p.lines) =
        some "BASIC line 1 @1:1\n  comment 'rem 'x' ;'\n".toList := by
    decide +kernel
  have read' : (Program.parse .utf8 [] "1\trem 'x' ;\r\n\n".toList).toOption.map
      (fun p => Palette.plain.lines p.lines) =
        some "BASIC line 1 @1:1\n  comment 'rem 'x' ;'\n".toList := by
    decide +kernel
  obtain ⟨p, parsed, dump⟩ := exists_parse_of_map read
  obtain ⟨p', parsed', dump'⟩ := exists_parse_of_map read'
  exact ⟨p, p', parsed, parsed', dump, dump',
    Program.lines_eq_of_dump parsed parsed' (dump.trans dump'.symm)⟩

end CommodoreBasic
