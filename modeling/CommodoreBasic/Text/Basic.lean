/-!
# Text

Source text is a list of Unicode characters. This module holds the operations on it that ignore
the case of the letters A to Z: every other character, accented letters included, counts as
written.

`beginsWith_iff` says what a case-blind beginning is without the walk that tests for it.
-/

namespace CommodoreBasic

/-- A text: its characters in order. -/
abbrev Text := List Char

namespace Text

/-- The text with the letters a to z in upper case. -/
def upper (s : Text) : Text := s.map Char.toUpper

@[simp] theorem upper_nil : upper [] = [] := rfl

@[simp] theorem upper_cons (c : Char) (s : Text) : upper (c :: s) = c.toUpper :: upper s := rfl

@[simp] theorem upper_append (s t : Text) : upper (s ++ t) = upper s ++ upper t :=
  List.map_append

@[simp] theorem length_upper (s : Text) : (upper s).length = s.length :=
  List.length_map _

/-- The two texts differ at most in the case of letters. -/
def sameLetters (s t : Text) : Bool := upper s == upper t

/-- The text `s` begins with `k`, up to the case of letters. -/
def beginsWith : Text → Text → Bool
  | [], _ => true
  | _ :: _, [] => false
  | a :: k, c :: s => a.toUpper == c.toUpper && beginsWith k s

/-- A case-blind beginning is a beginning of the two texts in upper case. -/
theorem beginsWith_iff (k s : Text) : beginsWith k s = true ↔ upper k <+: upper s := by
  induction k generalizing s with
  | nil => simp [beginsWith]
  | cons a k ih =>
    cases s with
    | nil => simp [beginsWith]
    | cons c s => simp [beginsWith, ih, List.cons_prefix_cons]

end Text

end CommodoreBasic
