import CommodoreBasic.Text.Basic

/-!
# Position encodings

Editors disagree on what a column counts: bytes of UTF-8, units of UTF-16 or whole characters. An
`Encoding` names the unit, and `Encoding.width` measures a text in it. Widths add up over
concatenation (`Encoding.width_append`), which is what makes columns the sum of what stands to
their left.
-/

namespace CommodoreBasic

/-- The unit in which columns are counted. -/
inductive Encoding where
  | utf8
  | utf16
  | utf32
deriving DecidableEq, Repr

namespace Encoding

/-- Columns are UTF-16 units unless something else is asked for. -/
instance : Inhabited Encoding := ⟨.utf16⟩

/-- The units that one character takes. -/
def charWidth : Encoding → Char → Nat
  | .utf8, c => c.utf8Size
  | .utf16, c => if c.toNat < 0x10000 then 1 else 2
  | .utf32, _ => 1

/-- The units that a text takes. -/
def width (e : Encoding) : Text → Nat
  | [] => 0
  | c :: s => e.charWidth c + e.width s

@[simp] theorem width_nil (e : Encoding) : e.width [] = 0 := rfl

@[simp] theorem width_cons (e : Encoding) (c : Char) (s : Text) :
    e.width (c :: s) = e.charWidth c + e.width s := rfl

@[simp] theorem width_append (e : Encoding) (s t : Text) :
    e.width (s ++ t) = e.width s + e.width t := by
  induction s with
  | nil => simp
  | cons c s ih => simp [ih, Nat.add_assoc]

/-- No character is invisible to the column count. -/
theorem charWidth_pos (e : Encoding) (c : Char) : 0 < e.charWidth c := by
  cases e with
  | utf8 => exact Char.utf8Size_pos c
  | utf16 => simp only [charWidth]; split <;> omega
  | utf32 => exact Nat.one_pos

/-- The name under which an encoding is written. -/
def name : Encoding → Text
  | .utf8 => "utf-8".toList
  | .utf16 => "utf-16".toList
  | .utf32 => "utf-32".toList

/-- A name that no encoding has. -/
structure UnknownName where
  name : Text
deriving DecidableEq, Repr

/-- What is said of an unknown name: the name as it was given. -/
def UnknownName.message (e : UnknownName) : Text :=
  "unknown position encoding '".toList ++ e.name ++ "'".toList

/-- The encoding of that name. The hyphen may be left out and case does not matter; blanks do. -/
def ofName (s : Text) : Except UnknownName Encoding :=
  if s.sameLetters "utf-8".toList || s.sameLetters "utf8".toList then .ok .utf8
  else if s.sameLetters "utf-16".toList || s.sameLetters "utf16".toList then .ok .utf16
  else if s.sameLetters "utf-32".toList || s.sameLetters "utf32".toList then .ok .utf32
  else .error ⟨s⟩

end Encoding

end CommodoreBasic
