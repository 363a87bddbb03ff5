import CommodoreBasic.Numeric.Decimal

/-!
# Words in decimal

`readWord` stops at the first character that is no digit and at the first digit that leads out of
the 64-bit words. `IsWord` says which texts it reads to the end, without the order in which they are
read: one or more digits, with or without a plus sign before them, that denote a word
(`readWord_eq_ok_iff`).
-/

namespace CommodoreBasic

/-- The text is a way of writing the word: digits that denote it, leading zeros among them if need
be, and at most one plus sign before them. -/
inductive IsWord : Text → Nat → Prop
  | digits {sign digits : Text} (plus : sign = [] ∨ sign = ['+']) (nonempty : digits ≠ [])
      (plain : ∀ c ∈ digits, c.isDigit = true)
      (word : Nat.ofDigitChars 10 digits 0 < wordCount) :
      IsWord (sign ++ digits) (Nat.ofDigitChars 10 digits 0)

/-- What is read as a number consists of digits that denote it, and the number is a word. -/
theorem digits_of_readDigits {s : Text} {n m : Nat} (h : readDigits n s = .ok m)
    (small : n < wordCount) :
    (∀ c ∈ s, c.isDigit = true) ∧ m = Nat.ofDigitChars 10 s n ∧ m < wordCount := by
  induction s generalizing n with
  | nil =>
    obtain rfl : n = m := by simpa [readDigits] using h
    exact ⟨fun c member => absurd member List.not_mem_nil, rfl, small⟩
  | cons c s ih =>
    rw [readDigits] at h
    split at h
    · next digit =>
      simp only at h
      split at h
      · next within =>
        obtain ⟨plain, value, word⟩ := ih h within
        rw [Nat.ofDigitChars_cons]
        exact ⟨List.forall_mem_cons.mpr ⟨digit, plain⟩, value, word⟩
      · contradiction
    · contradiction

theorem readWord_of_digits {c : Char} {s : Text} (digit : c.isDigit = true) :
    readWord (c :: s) = readDigits 0 (c :: s) := by
  have unsigned : c ≠ '+' := by
    rintro rfl
    contradiction
  unfold readWord
  split <;> simp_all

/-- A plus sign before digits changes nothing. -/
theorem readWord_plus {c : Char} {s : Text} (digit : c.isDigit = true) :
    readWord ('+' :: c :: s) = readWord (c :: s) := by
  rw [readWord_of_digits digit]
  rfl

theorem isWord_of_readDigits {sign : Text} {c : Char} {s : Text} {n : Nat}
    (plus : sign = [] ∨ sign = ['+']) (h : readDigits 0 (c :: s) = .ok n) :
    IsWord (sign ++ c :: s) n := by
  obtain ⟨plain, rfl, word⟩ := digits_of_readDigits h (by decide)
  exact .digits plus (List.cons_ne_nil c s) plain word

/-- The texts that are read as a word are the ways of writing it. -/
theorem readWord_eq_ok_iff (s : Text) (n : Nat) : readWord s = .ok n ↔ IsWord s n := by
  constructor
  · intro h
    unfold readWord at h
    split at h
    · contradiction
    · contradiction
    · next s nonempty =>
      cases s with
      | nil => exact absurd rfl nonempty
      | cons c s => exact isWord_of_readDigits (Or.inr rfl) h
    · next nonempty _ _ =>
      cases s with
      | nil => exact absurd rfl nonempty
      | cons c s => exact isWord_of_readDigits (Or.inl rfl) h
  · rintro ⟨plus, nonempty, plain, word⟩
    obtain ⟨c, s, rfl⟩ := List.exists_cons_of_ne_nil nonempty
    have digit := plain c List.mem_cons_self
    have read : readWord (c :: s) = .ok (Nat.ofDigitChars 10 (c :: s) 0) := by
      rw [readWord_of_digits digit]
      exact readDigits_eq_ok _ _ plain word
    rcases plus with rfl | rfl
    · exact read
    · exact (readWord_plus digit).trans read

/-- The decimal form of a number is a way of writing it as long as it is a word, and never one of
writing another word. -/
theorem isWord_decimal_iff (n m : Nat) : IsWord (decimal n) m ↔ n = m ∧ n < wordCount := by
  constructor
  · intro h
    generalize spelled : decimal n = s at h
    cases h with
    | digits plus _ _ word =>
      rcases plus with rfl | rfl
      · rw [List.nil_append] at spelled
        rw [← spelled, ofDigitChars_decimal] at word ⊢
        exact ⟨rfl, word⟩
      · have sign : '+' ∈ decimal n := by
          rw [spelled]
          exact List.mem_cons_self
        have digit := isDigit_of_mem_decimal '+' sign
        contradiction
  · rintro ⟨rfl, word⟩
    exact (readWord_eq_ok_iff _ _).mp (readWord_decimal n word)

end CommodoreBasic
