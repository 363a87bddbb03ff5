import CommodoreBasic.Lexical.Keyword
import CommodoreBasic.Numeric.Binary64
import CommodoreBasic.Text.Position

/-!
# Program lines

What a program says, line by line: a label, then either a remark or statements. A statement is a
sequence of items, and an item in parentheses holds a sequence of items again. The language gives
no more structure than this; which keyword goes with which operands is not a matter of the tree.

Every node knows where its first token stands.
-/

namespace CommodoreBasic

/-- The kind of values that a variable holds. -/
inductive Sigil where
  | plain
  | string
  | integer
deriving DecidableEq, Repr

/-- The last character of a name tells what its variable holds. -/
def Sigil.ofName (name : Text) : Sigil :=
  match name.getLast? with
  | some '$' => .string
  | some '%' => .integer
  | _ => .plain

/-- An item of a single token. -/
inductive Atom where
  | keyword (keyword : Keyword)
  | number (value : Binary64)
  | name (name : Text)
  | string (body : Text)
deriving DecidableEq

/-- An item of a statement, with the comma or semicolon that follows it. -/
inductive Item where
  | atom (position : Position) (atom : Atom) (trailing : Option Char)
  /-- Items in parentheses, the first of them at `start`. -/
  | group (position : Position) (start : Position) (inner : List Item) (trailing : Option Char)

mutual

/-- Items are equal if they are node by node. -/
def Item.decEq : (i j : Item) → Decidable (i = j)
  | .atom p a t, .atom q b u =>
    if h : p = q ∧ a = b ∧ t = u then .isTrue (by obtain ⟨rfl, rfl, rfl⟩ := h; rfl)
    else .isFalse (by simpa using h)
  | .group p s is t, .group q r js u =>
    match Item.listDecEq is js with
    | .isTrue same =>
      if h : p = q ∧ s = r ∧ t = u then .isTrue (by obtain ⟨rfl, rfl, rfl⟩ := h; rw [same])
      else .isFalse (by rintro ⟨⟩; exact h ⟨rfl, rfl, rfl⟩)
    | .isFalse other => .isFalse (by rintro ⟨⟩; exact other rfl)
  | .atom .., .group .. => .isFalse (by simp)
  | .group .., .atom .. => .isFalse (by simp)

/-- Lists of items are equal if they are item by item. -/
def Item.listDecEq : (is js : List Item) → Decidable (is = js)
  | [], [] => .isTrue rfl
  | i :: is, j :: js =>
    match Item.decEq i j, Item.listDecEq is js with
    | .isTrue same, .isTrue sames => .isTrue (by rw [same, sames])
    | .isFalse other, _ => .isFalse (by rintro ⟨⟩; exact other rfl)
    | _, .isFalse others => .isFalse (by rintro ⟨⟩; exact others rfl)
  | [], _ :: _ => .isFalse (by simp)
  | _ :: _, [] => .isFalse (by simp)

end

instance : DecidableEq Item := Item.decEq

namespace Item

def position : Item → Position
  | atom p _ _ => p
  | group p _ _ _ => p

def trailing : Item → Option Char
  | atom _ _ t => t
  | group _ _ _ t => t

/-- The item with a mark after it. -/
def trail (c : Char) : Item → Item
  | atom p a _ => atom p a (some c)
  | group p start inner _ => group p start inner (some c)

theorem trailing_trail (c : Char) (i : Item) : (i.trail c).trailing = some c := by
  cases i <;> rfl

/-- The keyword, if the item is one. -/
def keyword? : Item → Option Keyword
  | atom _ (.keyword k) _ => some k
  | _ => none

end Item

/-- Induction on items and the items inside them. -/
theorem Item.list_induction {motive : List Item → Prop} (nil : motive [])
    (atom : ∀ p a mark is, motive is → motive (.atom p a mark :: is))
    (group : ∀ p start inner mark is, motive inner → motive is →
      motive (.group p start inner mark :: is)) (is : List Item) : motive is := by
  refine @Item.rec_1 (fun i => ∀ is, motive is → motive (i :: is)) motive ?_ ?_ nil ?_ is
  · exact atom
  · exact fun p start inner mark inside is later => group p start inner mark is inside later
  · exact fun i is head later => head is later

/-- A statement: its items, the first of them at `position`. -/
structure Statement where
  position : Position
  items : List Item
deriving DecidableEq

/-- What follows the label of a line. -/
inductive Body where
  | comment (text : Text)
  | statements (statements : List Statement)
deriving DecidableEq

/-- A program line. -/
structure Line where
  label : Nat
  position : Position
  body : Body
deriving DecidableEq

namespace Line

/-- The remark of a line that is one. -/
def comment? (line : Line) : Option Text :=
  match line.body with
  | .comment s => some s
  | .statements _ => none

/-- The statements of a line. A remark has none. -/
def statements (line : Line) : List Statement :=
  match line.body with
  | .comment _ => []
  | .statements ss => ss

end Line

end CommodoreBasic
