import CommodoreBasic.Lexical.Rule

/-!
# Cutting a text into pieces

`cut` divides a text into pieces, one token each, up to its end or to the first place where no
token can be read. Nothing here depends on how columns are counted.

`cut_cons` says how a text is cut: its first token, then what is left of it. `cut_induction` is the
induction along the tokens of a text.
-/

namespace CommodoreBasic

/-- A token and the text that it was read from. -/
structure Piece where
  token : Token
  segment : Text
deriving DecidableEq

/-- A text cut up: its pieces, and what stopped the cutting before the end, if anything did. -/
structure Cut where
  pieces : List Piece
  fault : Option LexicalFault
deriving DecidableEq

/-- Puts a piece in front. -/
def Cut.cons (p : Piece) (c : Cut) : Cut := ⟨p :: c.pieces, c.fault⟩

/-- Cuts up what is left of a text after the `n` characters that the last token still takes, with
`first` to read each token. -/
def cutBy (first : Char → Text → Except LexicalFault (Token × Nat)) : Nat → Text → Cut
  | _, [] => ⟨[], none⟩
  | n + 1, _ :: s => cutBy first n s
  | 0, c :: s =>
    match first c s with
    | .ok (token, n) => (cutBy first (n - 1) s).cons ⟨token, (c :: s).take n⟩
    | .error fault => ⟨[], some fault⟩

/-- Taken characters are passed over. -/
theorem cutBy_eq_drop (first : Char → Text → Except LexicalFault (Token × Nat)) (n : Nat)
    (s : Text) : cutBy first n s = cutBy first 0 (s.drop n) := by
  induction n generalizing s with
  | zero => rfl
  | succ n ih =>
    cases s with
    | nil => rfl
    | cons c s => exact ih s

/-- Cuts a text into pieces. -/
def cut (s : Text) : Cut := cutBy firstToken 0 s

theorem cut_nil : cut [] = ⟨[], none⟩ := rfl

/-- A text is cut after its first token. -/
theorem cut_cons (c : Char) (s : Text) :
    cut (c :: s) =
      match firstToken c s with
      | .ok (token, n) => (cut (s.drop (n - 1))).cons ⟨token, (c :: s).take n⟩
      | .error fault => ⟨[], some fault⟩ := by
  unfold cut
  generalize firstToken = first
  rw [cutBy]
  split <;> simp_all [← cutBy_eq_drop]

/-- What is true of the end of a text, of a fault, and of a text whose first token has been read if
it is true of the rest, is true of every text and the way it is cut. -/
theorem cut_induction {motive : Text → Cut → Prop} (nil : motive [] ⟨[], none⟩)
    (fault : ∀ c s fault, firstToken c s = .error fault → motive (c :: s) ⟨[], some fault⟩)
    (token : ∀ c s token segment rest, firstToken c s = .ok (token, segment.length) →
      c :: s = segment ++ rest → segment ≠ [] → motive rest (cut rest) →
      motive (c :: s) ((cut rest).cons ⟨token, segment⟩))
    (s : Text) : motive s (cut s) := by
  induction length : s.length using Nat.strongRecOn generalizing s with
  | ind size ih =>
    cases s with
    | nil => exact nil
    | cons c s =>
      simp only [List.length_cons] at length
      cases read : firstToken c s with
      | error f =>
        rw [cut_cons, read]
        exact fault c s f read
      | ok first =>
        obtain ⟨t, n⟩ := first
        have ⟨nonempty, within⟩ := firstToken_length read
        obtain ⟨m, rfl⟩ : ∃ m, n = m + 1 := ⟨n - 1, by omega⟩
        have shorter : (s.drop m).length < size := by
          simp only [List.length_drop]
          omega
        have step := token c s t ((c :: s).take (m + 1)) (s.drop m)
        simp only [List.length_take, List.length_cons, Nat.min_eq_left within] at step
        rw [cut_cons, read]
        exact step read (by simp) (by simp) (ih _ shorter _ rfl)

/-- The text that pieces were read from. -/
def Piece.textOf (ps : List Piece) : Text := ps.flatMap Piece.segment

end CommodoreBasic
