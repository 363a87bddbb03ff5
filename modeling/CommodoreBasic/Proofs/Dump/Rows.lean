import CommodoreBasic.Dump.Tree
import CommodoreBasic.Proofs.Numeric.RoundTrip
import CommodoreBasic.Proofs.Program.Regular

/-!
# Rows of a dump

A row of the uncoloured dump ends at its first line feed, and in it the column ends at the first
blank. What the row says after that may hold blanks, quotes and marks of its own, but it does not
end with a mark; so the last character tells whether a mark trails the item. Hence a row tells all
that went into it (`row_inj`), and its first characters tell the kind of item (`atom_injective`,
`atom_ne_group`).
-/

namespace CommodoreBasic

/-- The first occurrence of a character parts a text in one way only. -/
theorem Text.append_cons_inj {c : Char} {s t r r' : Text} (hs : c ∉ s) (ht : c ∉ t)
    (same : s ++ c :: r = t ++ c :: r') : s = t ∧ r = r' := by
  induction s generalizing t with
  | nil =>
    cases t with
    | nil => exact ⟨rfl, (List.cons.inj same).2⟩
    | cons d t => exact absurd ((List.cons.inj same).1 ▸ List.mem_cons_self) ht
  | cons d s ih =>
    cases t with
    | nil => exact absurd ((List.cons.inj same).1 ▸ List.mem_cons_self) hs
    | cons d' t =>
      obtain ⟨rfl, later⟩ := List.cons.inj same
      obtain ⟨rfl, rest⟩ := ih (fun h => hs (List.mem_cons_of_mem d h))
        (fun h => ht (List.mem_cons_of_mem d h)) later
      exact ⟨rfl, rest⟩

namespace Palette

/-! ## Marks -/

/-- A mark after an item, as a row shows it. -/
def mark : Option Char → Text
  | some c => [' ', c]
  | none => []

/-- What a row can say of an item: it stays on the row, and does not end like a mark. -/
structure Entry (s : Text) : Prop where
  row : '\n' ∉ s
  last : ∀ c, s.getLast? = some c → isTrailingMark c = false

theorem not_mem_mark {m : Option Char} (isMark : IsMark m) : '\n' ∉ mark m := by
  cases m with
  | none => exact List.not_mem_nil
  | some c =>
    have marks := isMark c rfl
    intro member
    simp only [mark, List.mem_cons, List.not_mem_nil, or_false] at member
    rcases member with feed | rfl
    · contradiction
    · contradiction

/-- An entry without a mark is no entry with one. -/
theorem Entry.ne_append_mark {s t : Text} (h : Entry s) {c : Char}
    (isMark : isTrailingMark c = true) : s ≠ t ++ mark (some c) := by
  rintro rfl
  have plain := h.last c (by simp [mark])
  rw [isMark] at plain
  contradiction

theorem Entry.append_mark_inj {s t : Text} {m m' : Option Char} (hs : Entry s) (ht : Entry t)
    (hm : IsMark m) (hm' : IsMark m') (same : s ++ mark m = t ++ mark m') : s = t ∧ m = m' := by
  cases m with
  | none =>
    rw [mark, List.append_nil] at same
    cases m' with
    | none => exact ⟨by rw [same, mark, List.append_nil], rfl⟩
    | some c => exact absurd same (hs.ne_append_mark (hm' c rfl))
  | some c =>
    cases m' with
    | none =>
      rw [show mark none = [] from rfl, List.append_nil] at same
      exact absurd same.symm (ht.ne_append_mark (hm c rfl))
    | some d =>
      obtain ⟨rfl, marks⟩ := List.append_inj' same rfl
      obtain ⟨-, marks⟩ := List.cons.inj marks
      exact ⟨rfl, congrArg some (List.cons.inj marks).1⟩

/-! ## Rows -/

theorem row_plain (indent : Nat) (p : Position) (s : Text) (m : Option Char) :
    plain.row indent p s m =
      List.replicate indent ' ' ++ '@' :: (decimal p.column ++ ' ' :: (s ++ mark m)) ++ ['\n'] := by
  cases m <;> simp [row, plain, Style.paint, mark]

/-- Rows of one depth, with any text after them, are told apart. -/
theorem row_inj {indent : Nat} {p q : Position} {s t : Text} {m m' : Option Char}
    {rest rest' : Text} (hs : Entry s) (ht : Entry t) (hm : IsMark m) (hm' : IsMark m')
    (same : plain.row indent p s m ++ rest = plain.row indent q t m' ++ rest') :
    p.column = q.column ∧ s = t ∧ m = m' ∧ rest = rest' := by
  have inside : ∀ (p : Position) {s : Text} {m : Option Char}, Entry s → IsMark m →
      '\n' ∉ decimal p.column ++ ' ' :: (s ++ mark m) := by
    intro p s m entry isMark member
    simp only [List.mem_append, List.mem_cons] at member
    rcases member with member | feed | member | member
    · exact not_mem_decimal rfl _ member
    · contradiction
    · exact entry.row member
    · exact not_mem_mark isMark member
  rw [row_plain, row_plain] at same
  simp only [List.append_assoc, List.cons_append, List.nil_append] at same
  obtain ⟨-, same⟩ := List.cons.inj (List.append_cancel_left same)
  have parts := Text.append_cons_inj (inside p hs hm) (inside q ht hm')
    (by simpa only [List.append_assoc, List.cons_append] using same)
  obtain ⟨line, later⟩ := parts
  have noBlank : ∀ n, ' ' ∉ decimal n := not_mem_decimal rfl
  obtain ⟨columns, line⟩ := Text.append_cons_inj (noBlank p.column) (noBlank q.column) line
  obtain ⟨rfl, rfl⟩ := hs.append_mark_inj ht hm hm' line
  exact ⟨decimal_injective columns, rfl, rfl, later⟩

/-! ## Entries -/

/-- The character with which an atom is shown, a different one for each kind. -/
def initial : Atom → Char
  | .keyword _ => 'B'
  | .number _ => 'n'
  | .name _ => 'v'
  | .string _ => 's'

theorem head?_atom (a : Atom) : (plain.atom a).head? = some (initial a) := by
  cases a <;> rfl

/-- What is shown of an atom is the atom itself, for its first character tells the kind. -/
theorem atom_injective : Function.Injective plain.atom := by
  intro a b same
  have kinds := congrArg List.head? same
  rw [head?_atom, head?_atom] at kinds
  cases a with
  | keyword k =>
    cases b with
    | keyword k' =>
      have spellings : k.spelling = k'.spelling :=
        List.append_cancel_left (List.append_cancel_right same)
      exact congrArg (fun s => Atom.keyword ⟨s⟩) spellings
    | _ => simp [initial] at kinds
  | number x =>
    cases b with
    | number y =>
      exact congrArg Atom.number (Binary64.text_injective (List.append_cancel_left same))
    | _ => simp [initial] at kinds
  | name s =>
    cases b with
    | name t => exact congrArg Atom.name (List.append_cancel_left same)
    | _ => simp [initial] at kinds
  | string s =>
    cases b with
    | string t =>
      exact congrArg Atom.string (List.append_cancel_left (List.append_cancel_right same))
    | _ => simp [initial] at kinds

theorem atom_ne_group (a : Atom) : plain.atom a ≠ ['('] := by
  intro same
  have kinds := congrArg List.head? same
  rw [head?_atom] at kinds
  cases a <;> simp [initial] at kinds

end Palette

end CommodoreBasic
