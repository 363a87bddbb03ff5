import CommodoreBasic.Proofs.Grammar.Listed

/-!
# What comes back from a listing

An infinite number has no numeral. It is written as a word, and a word is read as a name: `reread`
puts these names in the places of infinite numbers. This changes nothing in the text of a tree
(`Line.text_reread`) and nothing at all in a tree without infinite numbers
(`Line.reread_of_finite`).

With the names in it, every tree that is derived from tokens of a text can be listed
(`Parse.listed_of_derivesProgram`).
-/

namespace CommodoreBasic

/-- What comes back from the text of an item of one token. -/
def Atom.reread : Atom → Atom
  | number x => if x.isInfinite then name x.text else number x
  | a => a

mutual

/-- An item with names for the infinite numbers in it. -/
def Item.reread : Item → Item
  | .atom p a mark => .atom p a.reread mark
  | .group p start inner mark => .group p start (Item.listReread inner) mark

/-- Items with names for the infinite numbers in them. -/
def Item.listReread : List Item → List Item
  | [] => []
  | i :: is => i.reread :: Item.listReread is

end

namespace Item

theorem listReread_eq_map (is : List Item) : listReread is = is.map reread := by
  induction is with
  | nil => rfl
  | cons i is ih => rw [listReread, ih, List.map_cons]

@[simp] theorem reread_atom (p : Position) (a : Atom) (mark : Option Char) :
    (atom p a mark).reread = atom p a.reread mark := by
  rw [reread]

@[simp] theorem reread_group (p start : Position) (inner : List Item) (mark : Option Char) :
    (group p start inner mark).reread = group p start (inner.map reread) mark := by
  rw [reread, listReread_eq_map]

end Item

def Statement.reread (s : Statement) : Statement := ⟨s.position, s.items.map Item.reread⟩

def Body.reread : Body → Body
  | .comment text => .comment text
  | .statements ss => .statements (ss.map Statement.reread)

/-- A line with names for the infinite numbers in it. -/
def Line.reread (line : Line) : Line := ⟨line.label, line.position, line.body.reread⟩

/-! ## The text stays -/

theorem Atom.text_reread (a : Atom) : a.reread.text = a.text := by
  cases a with
  | number x =>
    rw [reread]
    split <;> rfl
  | _ => rfl

namespace Item

theorem listText_eq_intercalate (is : List Item) :
    listText is = [' '].intercalate (is.map text) := by
  induction is with
  | nil => rfl
  | cons i is ih =>
    cases is with
    | nil => simp [listText]
    | cons j is =>
      rw [List.map_cons] at ih ⊢
      rw [List.map_cons, List.intercalate_cons_cons, ← ih, listText, List.append_assoc,
        List.singleton_append]

/-- What keeps the text of each atom, and goes into groups, keeps the texts of items. -/
theorem map_text_map {g : Item → Item}
    (atom : ∀ p a mark, (g (.atom p a mark)).text = (Item.atom p a mark).text)
    (group : ∀ p start inner mark,
      ∃ q first, g (.group p start inner mark) = .group q first (inner.map g) mark)
    (is : List Item) : (is.map g).map text = is.map text := by
  induction is using list_induction with
  | nil => rfl
  | atom p a mark is ih => rw [List.map_cons, List.map_cons, List.map_cons, ih, atom]
  | group p start inner mark is inside ih =>
    obtain ⟨q, first, same⟩ := group p start inner mark
    rw [List.map_cons, List.map_cons, List.map_cons, ih, same, text, text, listText_eq_intercalate,
      inside, listText_eq_intercalate]

theorem map_text_reread (is : List Item) : (is.map reread).map text = is.map text := by
  refine map_text_map ?_ ?_ is
  · intro p a mark
    rw [reread_atom, text, text, Atom.text_reread]
  · intro p start inner mark
    exact ⟨p, start, reread_group ..⟩

theorem map_text_relocate (f : Position → Position) (is : List Item) :
    (is.map (relocate f)).map text = is.map text := by
  refine map_text_map ?_ ?_ is
  · intro p a mark
    rw [relocate_atom, text, text]
  · intro p start inner mark
    exact ⟨f p, f start, relocate_group ..⟩

end Item

theorem Statement.text_reread (s : Statement) : s.reread.text = s.text := by
  rw [text, text, reread, Item.listText_eq_intercalate, Item.map_text_reread,
    Item.listText_eq_intercalate]

theorem Statement.text_relocate (f : Position → Position) (s : Statement) :
    (s.relocate f).text = s.text := by
  obtain ⟨position, items⟩ := s
  rw [text, text, relocate_mk, Item.listText_eq_intercalate, Item.map_text_relocate,
    Item.listText_eq_intercalate]

theorem Statement.listText_map {g : Statement → Statement} (same : ∀ s, (g s).text = s.text)
    (ss : List Statement) : listText (ss.map g) = listText ss := by
  rw [listText, listText, List.map_map]
  exact congrArg _ (List.map_congr_left fun s _ => congrArg (' ' :: ·) (same s))

namespace Line

/-- The text of a line says the same with names for infinite numbers. -/
theorem text_reread (line : Line) : line.reread.text = line.text := by
  obtain ⟨label, position, body⟩ := line
  cases body with
  | comment text => rfl
  | statements ss =>
    show _ ++ Statement.listText (ss.map Statement.reread) = _
    rw [Statement.listText_map Statement.text_reread]
    rfl

/-- Places play no part in the text of a line. -/
theorem text_relocate (f : Position → Position) (line : Line) :
    (line.relocate f).text = line.text := by
  obtain ⟨label, position, body⟩ := line
  cases body with
  | comment text => rfl
  | statements ss =>
    show _ ++ Statement.listText (ss.map (Statement.relocate f)) = _
    rw [Statement.listText_map (Statement.text_relocate f)]
    rfl

theorem listText_map {g : Line → Line} (same : ∀ line, (g line).text = line.text)
    (lines : List Line) : listText (lines.map g) = listText lines := by
  rw [listText, listText, List.flatMap_map]
  exact congrArg (lines.flatMap ·) (funext fun line => congrArg (· ++ ['\n']) (same line))

end Line

/-! ## Finite numbers stay -/

theorem Item.map_reread_of_finite {is : List Item}
    (finite : ∀ x ∈ listNumbers is, x.isInfinite = false) : is.map reread = is := by
  induction is using list_induction with
  | nil => rfl
  | atom p a mark is ih =>
    simp only [listNumbers, numbers, List.mem_append] at finite
    have same : a.reread = a := by
      cases a with
      | number x =>
        have small := finite x (Or.inl List.mem_cons_self)
        rw [Atom.reread, small]
        rfl
      | _ => rfl
    rw [List.map_cons, reread_atom, same, ih fun x hx => finite x (Or.inr hx)]
  | group p start inner mark is inside ih =>
    simp only [listNumbers, numbers, List.mem_append] at finite
    rw [List.map_cons, reread_group, inside fun x hx => finite x (Or.inl hx),
      ih fun x hx => finite x (Or.inr hx)]

/-- A line without infinite numbers comes back as it is. -/
theorem Line.reread_of_finite {line : Line} (finite : ∀ x ∈ line.numbers, x.isInfinite = false) :
    line.reread = line := by
  obtain ⟨label, position, body⟩ := line
  cases body with
  | comment text => rfl
  | statements ss =>
    have same : ∀ s ∈ ss, s.reread = id s := by
      intro s member
      have items := Item.map_reread_of_finite fun x hx =>
        finite x (List.mem_flatMap.mpr ⟨s, member, hx⟩)
      rw [Statement.reread, items]
      rfl
    rw [reread, Body.reread, List.map_congr_left same, List.map_id]

namespace Parse

/-! ## What has been read can be listed -/

/-- Lexemes whose tokens are read from some text. -/
def AreRead (ls : List Lexeme) : Prop :=
  ∀ l ∈ ls, ∃ segment rest, l.token.Reads segment rest

theorem AreRead.head {l : Lexeme} {ls : List Lexeme} (h : AreRead (l :: ls)) :
    ∃ segment rest, l.token.Reads segment rest := h l List.mem_cons_self

theorem AreRead.tail {l : Lexeme} {ls : List Lexeme} (h : AreRead (l :: ls)) : AreRead ls :=
  fun m member => h m (List.mem_cons_of_mem l member)

theorem AreRead.left {ls ms : List Lexeme} (h : AreRead (ls ++ ms)) : AreRead ls :=
  fun m member => h m (List.mem_append_left ms member)

theorem AreRead.right {ls ms : List Lexeme} (h : AreRead (ls ++ ms)) : AreRead ms :=
  fun m member => h m (List.mem_append_right ls member)

/-- The word for infinity is a name. -/
theorem listed_inf : Atom.Listed (.name "inf".toList) (.identifier "inf".toList) := by
  have letters : "inf".toList.all Char.isAlpha = true := rfl
  have plain : (Keyword.table.all fun s => !Text.beginsWith s "inf".toList) = true := by
    decide +kernel
  have noKeyword : ∀ k : ReservedWord, Text.beginsWith k.spelling ("inf".toList ++ []) = false := by
    intro k
    have other := List.all_eq_true.mp plain k.spelling k.mem_table
    simpa using other
  have word := Atom.Listed.name (List.cons_ne_nil _ _) (List.all_eq_true.mp letters) (Or.inl rfl)
    noKeyword rfl
  rwa [List.append_nil] at word

theorem listed_of_isAtom {t : Token} {a : Atom} {segment rest : Text} (h : IsAtom t a)
    (read : t.Reads segment rest) : ∃ t', a.reread.Listed t' := by
  cases h with
  | keyword k =>
    cases read with
    | @keyword k => exact ⟨_, .keyword k⟩
  | @number digits value reads =>
    cases read with
    | @number whole fraction _ wholeDigits fractionDigits nonempty =>
      rw [Binary64.ofText_numeral wholeDigits nonempty, Option.map_eq_some_iff] at reads
      obtain ⟨x, -, rfl⟩ := reads
      by_cases infinite : x = .infinity
      · subst infinite
        exact ⟨_, listed_inf⟩
      · have small : Binary64.isInfinite (.signed false x) = false := decide_eq_false infinite
        rw [Atom.reread, small]
        exact ⟨_, .number infinite⟩
  | name name =>
    cases read with
    | @identifier letters sigil rest nonempty alpha stop noKeyword noRemark =>
      -- what does not begin the text does not begin the name either
      exact ⟨_, .name nonempty alpha (stop.imp_left And.left)
        (fun k => Text.not_beginsWith_of_append (noKeyword k))
        (Text.not_beginsWith_of_append noRemark)⟩
  | string body =>
    cases read with
    | string quotable => exact ⟨_, .string quotable⟩

theorem isTrailingMark_of_derives {ls : List Lexeme} {mark : Option Char} (h : DerivesMark ls mark)
    (read : AreRead ls) : ∀ c ∈ mark, isTrailingMark c = true := by
  cases h with
  | none => simp
  | @some l c token =>
    obtain ⟨segment, rest, reads⟩ := read.head
    rw [token] at reads
    cases reads with
    | trailing mark => simpa using mark

theorem listed_of_derivesItems {ls : List Lexeme} {items : List Item} (h : DerivesItems ls items)
    (read : AreRead ls) : ∃ ts, Item.Listed (items.map Item.reread) ts := by
  induction h with
  | nil => exact ⟨[], .nil⟩
  | atom head trail _ ih =>
    obtain ⟨segment, rest, reads⟩ := read.head
    obtain ⟨t, listed⟩ := listed_of_isAtom head reads
    obtain ⟨ts, later⟩ := ih read.tail.right
    rw [List.map_cons, Item.reread_atom]
    exact ⟨_, .atom listed (isTrailingMark_of_derives trail read.tail.left) later⟩
  | group opens statement closes trail _ inner_ih ih =>
    obtain ⟨us, inside⟩ := inner_ih read.tail.left
    obtain ⟨ts, later⟩ := ih read.tail.right.tail.right
    have nonempty := statement.nil_iff.not.mp (List.cons_ne_nil _ _)
    have marks := isTrailingMark_of_derives trail read.tail.right.tail.left
    rw [List.map_cons, Item.reread_group]
    exact ⟨_, .group (List.map_eq_nil_iff.not.mpr nonempty) inside marks later⟩

theorem listed_of_derivesStatements {ls : List Lexeme} {ss : List Statement}
    (h : DerivesStatements ls ss) (read : AreRead ls) :
    ∃ ts, Statement.Listed (ss.map Statement.reread) ts := by
  induction h with
  | one statement =>
    cases statement with
    | items content =>
      obtain ⟨ts, listed⟩ := listed_of_derivesItems content read
      have nonempty := content.nil_iff.not.mp (List.cons_ne_nil _ _)
      exact ⟨_, .one (List.map_eq_nil_iff.not.mpr nonempty) listed⟩
  | cons statement _ _ ih =>
    cases statement with
    | items content =>
      obtain ⟨us, listed⟩ := listed_of_derivesItems content read.left
      obtain ⟨ts, later⟩ := ih read.right.tail
      have nonempty := content.nil_iff.not.mp (List.cons_ne_nil _ _)
      exact ⟨_, .cons (List.map_eq_nil_iff.not.mpr nonempty) listed later⟩

theorem IsLabel.lt_wordCount {t : Token} {n : Nat} (h : IsLabel t n) : n < wordCount := by
  cases h with
  | digits _ _ word => exact word

/-- A line can be listed before any lines that can. -/
theorem listed_of_derivesLine {ls : List Lexeme} {line : Line} (h : DerivesLine ls line)
    (read : AreRead ls) {lines : List Line} {ts : List Token} (later : Line.Listed lines ts) :
    ∃ us, Line.Listed (line.reread :: lines) us := by
  cases h with
  | @comment l m n text label comment =>
    obtain ⟨segment, rest, reads⟩ := read.tail.head
    rw [comment] at reads
    cases reads with
    | comment remark plain => exact ⟨_, .comment label.lt_wordCount remark plain later⟩
  | statements label statements =>
    obtain ⟨us, listed⟩ := listed_of_derivesStatements statements read.tail
    exact ⟨_, .statements label.lt_wordCount listed later⟩

/-- What is derived from tokens that were read can be listed, with names for infinite numbers. -/
theorem listed_of_derivesProgram {ls : List Lexeme} {lines : List Line}
    (h : DerivesProgram ls lines) (read : AreRead ls) :
    ∃ ts, Line.Listed (lines.map Line.reread) ts := by
  induction h with
  | nil => exact ⟨[], .nil⟩
  | endOfLine ends later ih => exact ih read.tail
  | line content ends later ih =>
    obtain ⟨ts, listed⟩ := ih read.right.tail
    exact listed_of_derivesLine content read.left listed
  | last content => exact listed_of_derivesLine content read .nil

end Parse

end CommodoreBasic
