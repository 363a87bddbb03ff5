import CommodoreBasic.Dump.Tree

/-!
# Sequences in a dump

`Text.unstyled` deletes the escape sequences from a text, those that switch a style on or off. A
text decorates another one (`Text.Decorates`) if the other is left of it, and whatever comes after
is not touched; decorations can be put one after the other (`Decorates.append`). That is a
condition on the other text too, for an escape character of its own could begin a sequence.

The main statement is `Palette.Coded.lines`: no style changes what is said in a dump, for any lines
and not only those of a text.
-/

namespace CommodoreBasic

/-- Of such characters the code of a style consists. -/
def isParameter (c : Char) : Bool := c.isDigit || c = ';'

namespace Text

/-! ## Deleting sequences -/

/-- What comes after the escape sequence that a text begins with. -/
def afterSequence? : Text → Option Text
  | '\x1b' :: '[' :: s =>
    match s.dropWhile isParameter with
    | 'm' :: rest => some rest
    | _ => none
  | _ => none

theorem afterSequence?_eq_some_iff {s rest : Text} :
    afterSequence? s = some rest ↔
      ∃ code, (∀ c ∈ code, isParameter c = true) ∧ s = Style.sequence code ++ rest := by
  constructor
  · intro after
    unfold afterSequence? at after
    split at after
    · next s =>
      split at after
      · next later dropped =>
        obtain rfl := Option.some.inj after
        refine ⟨s.takeWhile isParameter, List.all_eq_true.mp List.all_takeWhile, ?_⟩
        have parts := List.takeWhile_append_dropWhile (p := isParameter) (l := s)
        rw [dropped] at parts
        show _ = '\x1b' :: '[' :: (s.takeWhile isParameter ++ ['m'] ++ later)
        rw [List.append_assoc, List.singleton_append, parts]
      · contradiction
    · contradiction
  · rintro ⟨code, parameters, rfl⟩
    have dropped : (code ++ ['m'] ++ rest).dropWhile isParameter = 'm' :: rest := by
      rw [List.append_assoc, List.dropWhile_append_of_pos parameters]
      rfl
    show afterSequence? ('\x1b' :: '[' :: (code ++ ['m'] ++ rest)) = some rest
    rw [afterSequence?, dropped]
    rfl

theorem afterSequence?_cons_of_ne {c : Char} (other : c ≠ '\x1b') (s : Text) :
    afterSequence? (c :: s) = none := by
  unfold afterSequence?
  split
  · next same => exact absurd (List.cons.inj same).1 other
  · rfl

theorem length_lt_of_afterSequence? {s rest : Text} (after : afterSequence? s = some rest) :
    rest.length < s.length := by
  obtain ⟨code, -, rfl⟩ := afterSequence?_eq_some_iff.mp after
  rw [List.length_append]
  exact Nat.lt_add_of_pos_left (Nat.succ_pos _)

/-- The text without the escape sequences in it. -/
def unstyled : Text → Text
  | [] => []
  | c :: s =>
    match _ : afterSequence? (c :: s) with
    | some rest => unstyled rest
    | none => c :: unstyled s
termination_by s => s.length
decreasing_by
  · exact length_lt_of_afterSequence? ‹_›
  · exact Nat.lt_succ_self _

theorem unstyled_nil : unstyled [] = [] := by rw [unstyled]

theorem unstyled_cons_of_ne {c : Char} (other : c ≠ '\x1b') (s : Text) :
    unstyled (c :: s) = c :: unstyled s := by
  rw [unstyled]
  split
  · next after =>
    rw [afterSequence?_cons_of_ne other] at after
    contradiction
  · rfl

theorem unstyled_sequence {code : Text} (parameters : ∀ c ∈ code, isParameter c = true)
    (s : Text) : unstyled (Style.sequence code ++ s) = unstyled s := by
  have begins : afterSequence? (Style.sequence code ++ s) = some s :=
    afterSequence?_eq_some_iff.mpr ⟨code, parameters, rfl⟩
  show unstyled ('\x1b' :: ('[' :: code ++ ['m'] ++ s)) = unstyled s
  rw [unstyled]
  split
  · next rest after => rw [Option.some.inj (begins.symm.trans after)]
  · next after =>
    rw [show '\x1b' :: ('[' :: code ++ ['m'] ++ s) = Style.sequence code ++ s from rfl,
      begins] at after
    contradiction

/-! ## Decorations -/

/-- With its sequences deleted, `t` is `s`, and what comes after it stays as it would be: unless
`s` has an escape character on its own. -/
def Decorates (t s : Text) : Prop :=
  '\x1b' ∉ s → ∀ rest, unstyled (t ++ rest) = s ++ unstyled rest

namespace Decorates

theorem refl (s : Text) : Decorates s s := by
  intro plain rest
  induction s with
  | nil => rfl
  | cons c s ih =>
    have other : c ≠ '\x1b' := fun escape => plain (escape ▸ List.mem_cons_self)
    rw [List.cons_append, unstyled_cons_of_ne other, List.cons_append,
      ih fun escape => plain (List.mem_cons_of_mem c escape)]

theorem append {t t' s s' : Text} (first : Decorates t s) (second : Decorates t' s') :
    Decorates (t ++ t') (s ++ s') := by
  intro plain rest
  obtain ⟨left, right⟩ := not_or.mp (fun inside => plain (List.mem_append.mpr inside))
  rw [List.append_assoc, first left, second right, List.append_assoc]

theorem cons (c : Char) {t s : Text} (h : Decorates t s) : Decorates (c :: t) (c :: s) :=
  (refl [c]).append h

theorem flatMap {α : Type} {f g : α → Text} (h : ∀ a, Decorates (f a) (g a)) (l : List α) :
    Decorates (l.flatMap f) (l.flatMap g) := by
  induction l with
  | nil => exact refl []
  | cons a l ih => exact (h a).append ih

/-- A text without escape characters is all that is left of a decoration of it. -/
theorem unstyled_eq {t s : Text} (h : Decorates t s) (plain : '\x1b' ∉ s) : unstyled t = s := by
  have whole := h plain []
  rwa [List.append_nil, unstyled_nil, List.append_nil] at whole

end Decorates

end Text

/-! ## Styles -/

/-- The code of the style consists of parameters. -/
def Style.Coded (style : Style) : Prop := ∀ code ∈ style, ∀ c ∈ code, isParameter c = true

theorem Style.Coded.paint {style : Style} (h : style.Coded) (s : Text) :
    Text.Decorates (style.paint s) s := by
  intro plain rest
  cases style with
  | none => exact Text.Decorates.refl s plain rest
  | some code =>
    have zero : ∀ c ∈ ['0'], isParameter c = true := List.forall_mem_singleton.mpr rfl
    show Text.unstyled (sequence code ++ s ++ sequence ['0'] ++ rest) = _
    rw [List.append_assoc, List.append_assoc, Text.unstyled_sequence (h code rfl),
      Text.Decorates.refl s plain, Text.unstyled_sequence zero]

namespace Palette

/-- So do the codes of all styles with which a dump is written. -/
structure Coded (p : Palette) : Prop where
  label : p.label.Coded
  keyword : p.keyword.Coded
  literal : p.literal.Coded
  name : p.name.Coded
  comment : p.comment.Coded
  position : p.position.Coded

theorem coded_coloured : coloured.Coded := by
  have parameters : ∀ code : Text, code.all isParameter = true → Style.Coded (some code) := by
    rintro code inside _ ⟨rfl⟩
    exact List.all_eq_true.mp inside
  exact ⟨parameters _ rfl, parameters _ rfl, parameters _ rfl, parameters _ rfl,
    parameters _ rfl, parameters _ rfl⟩

namespace Coded

open Text

/-! ## Dumps -/

variable {p : Palette}

theorem atom (h : p.Coded) (a : Atom) : Decorates (p.atom a) (plain.atom a) := by
  cases a with
  | keyword k => exact ((Decorates.refl _).append (h.keyword.paint k.spelling)).append (.refl _)
  | number x => exact (Decorates.refl _).append (h.literal.paint x.text)
  | name s => exact (Decorates.refl _).append (h.name.paint s)
  | string s => exact ((Decorates.refl _).append (h.literal.paint s)).append (.refl _)

theorem row (h : p.Coded) (indent : Nat) (position : Position) {t s : Text}
    (item : Decorates t s) (trailing : Option Char) :
    Decorates (p.row indent position t trailing) (plain.row indent position s trailing) := by
  have column := (Decorates.refl (List.replicate indent ' ')).append
    (h.position.paint ('@' :: decimal position.column))
  exact ((column.append (item.cons ' ')).append (.refl _)).append (.refl _)

/-- Items and the items inside them, at any depth. -/
theorem items (h : p.Coded) (is : List Item) (n : Nat) :
    Decorates (p.items n is) (plain.items n is) := by
  induction is using Item.list_induction generalizing n with
  | nil => exact .refl []
  | atom q a mark is ih => exact (h.row n q (h.atom a) mark).append (ih n)
  | group q start inner mark is inner_ih ih =>
    have opening := h.row n q (.refl ['(']) mark
    exact ((opening.append (.refl (heading (n + 2)))).append (inner_ih (n + 4))).append (ih n)

theorem statement (h : p.Coded) (n : Nat) (s : Statement) :
    Decorates (p.statement n s) (plain.statement n s) :=
  (Decorates.refl (heading n)).append (h.items s.items (n + 2))

theorem line (h : p.Coded) (l : Line) : Decorates (p.line l) (plain.line l) := by
  have title := (h.label.paint "BASIC line".toList).append
    ((h.label.paint (decimal l.label)).cons ' ')
  have header := title.append ((h.position.paint ('@' :: l.position.text)).cons ' ')
  refine header.append (.cons '\n' ?_)
  cases l.body with
  | comment s => exact ((Decorates.refl _).append (h.comment.paint s)).append (.refl _)
  | statements ss => exact Decorates.flatMap (h.statement 2) ss

/-- A dump with styles decorates the one without, whatever lines are dumped. -/
theorem lines (h : p.Coded) (ls : List Line) : Decorates (p.lines ls) (plain.lines ls) :=
  Decorates.flatMap h.line ls

end Coded

end Palette

end CommodoreBasic
