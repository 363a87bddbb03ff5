import CommodoreBasic.Dump.Report

/-!
# What is underlined

The walk over a line compares the column with that of each character, and with that of the end once
the line is over. What it does is said here by the place of the column alone. Every unit of a line
belongs to one character (`Text.exists_covers`, `Text.Covers.unique`), so a column points to the
first unit of a character, to a later one, or past the line, unless it is 0 (`Target`).

The main statement is `underlineColumn_target`. `underlineColumn_at` and `underlineColumn_after` are
the cases in which something is underlined.
-/

namespace CommodoreBasic

/-! ## The walk over a line -/

/-- Nothing is underlined after the column. -/
theorem underlineFrom_of_lt (e : Encoding) {column here : Nat} (passed : column < here) (s : Text) :
    underlineFrom e column here s = s := by
  induction s generalizing here with
  | nil => rw [underlineFrom, if_neg (by omega)]
  | cons c s ih =>
    rw [underlineFrom, if_neg (by omega), ih (by omega)]
    rfl

/-- Nothing is underlined before the column either. -/
theorem underlineFrom_append (e : Encoding) {column here : Nat} (left s : Text)
    (ahead : here + e.width left ≤ column) :
    underlineFrom e column here (left ++ s) =
      left ++ underlineFrom e column (here + e.width left) s := by
  induction left generalizing here with
  | nil => rfl
  | cons c left ih =>
    have wide := e.charWidth_pos c
    rw [Encoding.width_cons, ← Nat.add_assoc] at ahead ⊢
    rw [List.cons_append, underlineFrom, if_neg (by omega), ih ahead]
    rfl

/-- The character after a text is underlined at the column where the text ends. -/
theorem underlineColumn_at (e : Encoding) (left : Text) (c : Char) (right : Text) :
    underlineColumn e (1 + e.width left) (left ++ c :: right) =
      left ++ "\x1b[4m".toList ++ [c] ++ "\x1b[0m".toList ++ right := by
  have wide := e.charWidth_pos c
  rw [underlineColumn, underlineFrom_append e left _ (Nat.le_refl _), underlineFrom, if_pos rfl,
    underlineFrom_of_lt e (by omega)]
  simp [Style.paint, Style.underlined, Style.sequence]

/-- A blank is underlined at every column past the line. -/
theorem underlineColumn_past (e : Encoding) {column : Nat} {line : Text}
    (past : e.width line < column) :
    underlineColumn e column line = line ++ "\x1b[4m \x1b[0m".toList := by
  have walked := underlineFrom_append e line [] (show 1 + e.width line ≤ column by omega)
  rw [List.append_nil, underlineFrom, if_pos (by omega)] at walked
  rw [underlineColumn, walked]
  simp [Style.paint, Style.underlined, Style.sequence]

/-- A blank is underlined at the column where the line ends. -/
theorem underlineColumn_after (e : Encoding) (line : Text) :
    underlineColumn e (1 + e.width line) line = line ++ "\x1b[4m \x1b[0m".toList :=
  underlineColumn_past e (by omega)

/-- Nothing is underlined at a column inside a character. -/
theorem underlineColumn_inside (e : Encoding) {column : Nat} {left right : Text} {c : Char}
    (begun : e.width left + 1 < column) (inside : column ≤ e.width left + e.charWidth c) :
    underlineColumn e column (left ++ c :: right) = left ++ c :: right := by
  rw [underlineColumn, underlineFrom_append e left _ (by omega), underlineFrom, if_neg (by omega),
    underlineFrom_of_lt e (by omega)]
  rfl

/-! ## Units and characters -/

namespace Text

/-- The character `c` of the line, between `left` and `right`, takes up the unit with `n` units
before it. -/
structure Covers (e : Encoding) (line : Text) (n : Nat) (left : Text) (c : Char) (right : Text) :
    Prop where
  split : line = left ++ c :: right
  le : e.width left ≤ n
  lt : n < e.width left + e.charWidth c

variable {e : Encoding}

/-- Every unit of a line is taken up by a character. -/
theorem exists_covers {line : Text} {n : Nat} (h : n < e.width line) :
    ∃ left c right, Covers e line n left c right := by
  induction line generalizing n with
  | nil => simp at h
  | cons d line ih =>
    rw [Encoding.width_cons] at h
    by_cases first : n < e.charWidth d
    · exact ⟨[], d, line, rfl, Nat.zero_le n, by simpa using first⟩
    · obtain ⟨left, c, right, split, le, lt⟩ := ih (n := n - e.charWidth d) (by omega)
      refine ⟨d :: left, c, right, by rw [split, List.cons_append], ?_, ?_⟩
      · rw [Encoding.width_cons]
        omega
      · rw [Encoding.width_cons]
        omega

/-- And by one only. -/
theorem Covers.unique {line left left' right right' : Text} {c c' : Char} {n : Nat}
    (h : Covers e line n left c right) (h' : Covers e line n left' c' right') :
    left = left' ∧ c = c' ∧ right = right' := by
  obtain ⟨split, le, lt⟩ := h
  obtain ⟨split', le', lt'⟩ := h'
  rw [split] at split'
  -- of the two texts before the character one goes on where the other ends
  rcases List.append_eq_append_iff.mp split' with ⟨more, rfl, rest⟩ | ⟨more, rfl, rest⟩
  · cases more with
    | nil =>
      obtain ⟨rfl, rfl⟩ := List.cons.inj rest
      exact ⟨(List.append_nil left).symm, rfl, rfl⟩
    | cons d more =>
      obtain ⟨rfl, -⟩ := List.cons.inj rest
      rw [Encoding.width_append, Encoding.width_cons] at le'
      omega
  · cases more with
    | nil =>
      obtain ⟨rfl, rfl⟩ := List.cons.inj rest
      exact ⟨List.append_nil left', rfl, rfl⟩
    | cons d more =>
      obtain ⟨rfl, -⟩ := List.cons.inj rest
      rw [Encoding.width_append, Encoding.width_cons] at le
      omega

theorem Covers.lt_width {line left right : Text} {c : Char} {n : Nat}
    (h : Covers e line n left c right) : n < e.width line := by
  obtain ⟨rfl, -, lt⟩ := h
  rw [Encoding.width_append, Encoding.width_cons]
  omega

end Text

/-! ## What a column points to -/

/-- What a column of a line can point to. -/
inductive Target where
  /-- The character `c`, between `left` and `right`. -/
  | character (left : Text) (c : Char) (right : Text)
  /-- The blank after the line. -/
  | blank
  | nothing

namespace Target

/-- The column points to the target: it is the one where the character begins or comes after the
line. It points to nothing if it is 0 or inside a character. -/
def IsAt (e : Encoding) (column : Nat) (line : Text) : Target → Prop
  | character left c right => line = left ++ c :: right ∧ e.width left + 1 = column
  | blank => e.width line < column
  | nothing => column = 0 ∨ ∃ left c right, line = left ++ c :: right ∧
      e.width left + 1 < column ∧ column ≤ e.width left + e.charWidth c

/-- The line with the target underlined. -/
def underlined (line : Text) : Target → Text
  | character left c right => left ++ "\x1b[4m".toList ++ [c] ++ "\x1b[0m".toList ++ right
  | blank => line ++ "\x1b[4m \x1b[0m".toList
  | nothing => line

variable {e : Encoding} {column : Nat} {line : Text}

/-- A column always points to something, be it nothing. -/
theorem exists_isAt (e : Encoding) (column : Nat) (line : Text) :
    ∃ t : Target, t.IsAt e column line := by
  cases column with
  | zero => exact ⟨nothing, Or.inl rfl⟩
  | succ n =>
    by_cases within : n < e.width line
    · obtain ⟨left, c, right, split, le, lt⟩ := Text.exists_covers within
      by_cases first : e.width left = n
      · exact ⟨character left c right, split, by rw [first]⟩
      · exact ⟨nothing, Or.inr ⟨left, c, right, split, by omega, by omega⟩⟩
    · exact ⟨blank, show e.width line < n + 1 by omega⟩

theorem covers_of_character {left right : Text} {c : Char}
    (h : (character left c right).IsAt e column line) :
    column = e.width left + 1 ∧ Text.Covers e line (e.width left) left c right := by
  obtain ⟨split, rfl⟩ := h
  have wide := e.charWidth_pos c
  exact ⟨rfl, split, Nat.le_refl _, by omega⟩

theorem covers_of_nothing (h : nothing.IsAt e column line) :
    column = 0 ∨ ∃ n left c right, column = n + 1 ∧ e.width left < n ∧
      Text.Covers e line n left c right := by
  rcases h with zero | ⟨left, c, right, split, begun, inside⟩
  · exact Or.inl zero
  · exact Or.inr ⟨column - 1, left, c, right, by omega, by omega, split, by omega, by omega⟩

/-- At a character the line is not over. -/
theorem not_blank_of_character {left right : Text} {c : Char}
    (h : (character left c right).IsAt e column line) : ¬ blank.IsAt e column line := by
  intro after
  have after : e.width line < column := after
  obtain ⟨rfl, covers⟩ := covers_of_character h
  have within := covers.lt_width
  omega

/-- Where a character begins is inside of no other. -/
theorem not_nothing_of_character {left right : Text} {c : Char}
    (h : (character left c right).IsAt e column line) : ¬ nothing.IsAt e column line := by
  intro other
  obtain ⟨rfl, covers⟩ := covers_of_character h
  rcases covers_of_nothing other with zero | ⟨n, left', c', right', same, begun, covers'⟩
  · omega
  · obtain rfl : e.width left = n := by omega
    obtain ⟨rfl, -⟩ := covers.unique covers'
    omega

/-- After the line there is no character to be inside of. -/
theorem not_nothing_of_blank (h : blank.IsAt e column line) : ¬ nothing.IsAt e column line := by
  intro other
  have after : e.width line < column := h
  rcases covers_of_nothing other with zero | ⟨n, left, c, right, same, -, covers⟩
  · omega
  · have within := covers.lt_width
    omega

/-- A column does not point to two things. -/
theorem eq_of_isAt {t t' : Target} (h : t.IsAt e column line) (h' : t'.IsAt e column line) :
    t = t' := by
  cases t with
  | character left c right =>
    cases t' with
    | character left' c' right' =>
      obtain ⟨rfl, covers⟩ := covers_of_character h
      obtain ⟨same, covers'⟩ := covers_of_character h'
      rw [← Nat.succ.inj same] at covers'
      obtain ⟨rfl, rfl, rfl⟩ := covers.unique covers'
      rfl
    | blank => exact absurd h' (not_blank_of_character h)
    | nothing => exact absurd h' (not_nothing_of_character h)
  | blank =>
    cases t' with
    | character => exact absurd h (not_blank_of_character h')
    | blank => rfl
    | nothing => exact absurd h' (not_nothing_of_blank h)
  | nothing =>
    cases t' with
    | character => exact absurd h (not_nothing_of_character h')
    | blank => exact absurd h (not_nothing_of_blank h')
    | nothing => rfl

/-- What a column points to is underlined. -/
theorem underlineColumn_of_isAt {t : Target} (h : t.IsAt e column line) :
    underlineColumn e column line = t.underlined line := by
  cases t with
  | character left c right =>
    obtain ⟨rfl, rfl⟩ := h
    rw [Nat.add_comm]
    exact underlineColumn_at e left c right
  | blank => exact underlineColumn_past e h
  | nothing =>
    rcases h with rfl | ⟨left, c, right, rfl, begun, inside⟩
    · exact underlineFrom_of_lt e Nat.one_pos line
    · exact underlineColumn_inside e begun inside

end Target

/-- A column of a line points to exactly one of a character, the blank after the line and nothing,
and what it points to is underlined, the rest of the line being as it was. -/
theorem underlineColumn_target (e : Encoding) (column : Nat) (line : Text) :
    ∃ t : Target, (∀ other : Target, other.IsAt e column line ↔ other = t) ∧
      underlineColumn e column line = t.underlined line := by
  obtain ⟨t, here⟩ := Target.exists_isAt e column line
  refine ⟨t, ?_, Target.underlineColumn_of_isAt here⟩
  intro other
  constructor
  · intro there
    exact Target.eq_of_isAt there here
  · rintro rfl
    exact here

end CommodoreBasic
