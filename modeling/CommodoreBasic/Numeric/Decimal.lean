import CommodoreBasic.Text.Basic

/-!
# Decimal numerals

How whole numbers are written and read. Labels, lines and columns are 64-bit words: `readWord`
reads one and says what is wrong with a text that is none. `readWord_decimal` ties the two
directions together.
-/

namespace CommodoreBasic

/-- A number in decimal digits, without leading zeros. -/
def decimal (n : Nat) : Text := Nat.toDigits 10 n

theorem isDigit_of_mem_decimal {n : Nat} : ∀ c ∈ decimal n, c.isDigit = true :=
  fun _ hc => Nat.isDigit_of_mem_toDigits (by decide) (by decide) hc

theorem not_mem_decimal {c : Char} (other : c.isDigit = false) (n : Nat) : c ∉ decimal n := by
  intro member
  rw [isDigit_of_mem_decimal c member] at other
  contradiction

/-- A number is what its decimal form denotes. -/
theorem ofDigitChars_decimal (n : Nat) : Nat.ofDigitChars 10 (decimal n) 0 = n :=
  Nat.ofDigitChars_ten_toDigits

/-- The number of 64-bit words, which is the first number that is none. -/
def wordCount : Nat := 0x10000000000000000

/-- The sum of two words, if it is a word. -/
def addWord? (m n : Nat) : Option Nat := if m + n < wordCount then some (m + n) else none

theorem addWord?_of_lt {m n : Nat} (small : m + n < wordCount) : addWord? m n = some (m + n) :=
  if_pos small

theorem addWord?_of_le {m n : Nat} (large : wordCount ≤ m + n) : addWord? m n = none :=
  if_neg (Nat.not_lt.mpr large)

/-- What is wrong with a text that should be a 64-bit word. -/
inductive WordError where
  | empty
  | invalidDigit
  | tooLarge
deriving DecidableEq, Repr

/-- The wording of each cause. -/
def WordError.message : WordError → Text
  | .empty => "cannot parse integer from empty string".toList
  | .invalidDigit => "invalid digit found in string".toList
  | .tooLarge => "number too large to fit in target type".toList

/-- Reads digits onto the number read so far. The first character that is no digit, or the first
digit that leads out of the 64-bit words, decides the error. -/
def readDigits : Nat → Text → Except WordError Nat
  | n, [] => .ok n
  | n, c :: s =>
    if c.isDigit then
      let m := 10 * n + (c.toNat - '0'.toNat)
      if m < wordCount then readDigits m s else .error .tooLarge
    else .error .invalidDigit

/-- Reads a 64-bit word: decimal digits with at most one plus sign before them. -/
def readWord : Text → Except WordError Nat
  | [] => .error .empty
  | ['+'] => .error .invalidDigit
  | '+' :: s => readDigits 0 s
  | s => readDigits 0 s

/-- Digits read as the number they denote, as long as that is a word. -/
theorem readDigits_eq_ok (s : Text) (n : Nat) (digits : ∀ c ∈ s, c.isDigit)
    (small : Nat.ofDigitChars 10 s n < wordCount) :
    readDigits n s = .ok (Nat.ofDigitChars 10 s n) := by
  induction s generalizing n with
  | nil => rfl
  | cons c s ih =>
    have grows : 10 * n + (c.toNat - '0'.toNat) ≤ Nat.ofDigitChars 10 (c :: s) n := by
      rw [Nat.ofDigitChars_cons]
      rw [Nat.ofDigitChars_eq_ofDigitChars_zero]
      exact Nat.le_trans (Nat.le_mul_of_pos_left _ (Nat.pow_pos (by decide))) (Nat.le_add_right ..)
    rw [readDigits, if_pos (digits c (by simp)), if_pos (Nat.lt_of_le_of_lt grows small),
      Nat.ofDigitChars_cons]
    exact ih _ (fun d h => digits d (by simp [h])) (by rwa [Nat.ofDigitChars_cons] at small)

/-- A word reads back from its decimal form. -/
theorem readWord_decimal (n : Nat) (small : n < wordCount) : readWord (decimal n) = .ok n := by
  have digits : ∀ c ∈ decimal n, c.isDigit := isDigit_of_mem_decimal
  have read := readDigits_eq_ok (decimal n) 0 digits (by rwa [ofDigitChars_decimal])
  rw [ofDigitChars_decimal] at read
  revert digits read
  generalize hs : decimal n = s
  intro digits read
  match s with
  | [] => exact absurd hs Nat.toDigits_ne_nil
  | [c] =>
    have := digits c (by simp)
    unfold readWord
    split <;> simp_all
  | c :: d :: s =>
    have := digits c (by simp)
    unfold readWord
    split <;> simp_all

end CommodoreBasic
