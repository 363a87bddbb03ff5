import CommodoreBasic.CommandLine.Coordinate
import CommodoreBasic.Proofs.Lexical.Reading
import CommodoreBasic.Proofs.Numeric.Word

/-!
# What is read as a coordinate

A coordinate is written as two words with a colon between them, and blanks may stand around either
word (`Text.HoldsWord`). Such a text is split at its first colon in the same way, for there is none
in a word or a blank; any other text has no colon, or something else than a word before or after the
first one, and the error says which. The main statement is `Coordinate.ofText_exact`.
-/

namespace CommodoreBasic

/-! ## Blanks around a text -/

/-- The text `t` with blanks before and after it. -/
inductive Text.Padded (t : Text) : Text → Prop
  | blanks {left right : Text} (before : ∀ c ∈ left, isBlank c = true)
      (after : ∀ c ∈ right, isBlank c = true) : Padded t (left ++ t ++ right)

namespace Text

/-- A text is what is left of it without the blanks at both ends, and these blanks. -/
theorem padded_trim (s : Text) : Padded (trim s) s := by
  have blanks : ∀ s : Text, ∀ c ∈ s.takeWhile isBlank, isBlank c = true :=
    fun _ => List.all_eq_true.mp List.all_takeWhile
  have front := List.takeWhile_append_dropWhile (p := isBlank) (l := s)
  have back := List.takeWhile_append_dropWhile (p := isBlank) (l := (s.dropWhile isBlank).reverse)
  have split : s.dropWhile isBlank =
      trim s ++ ((s.dropWhile isBlank).reverse.takeWhile isBlank).reverse := by
    rw [trim, trimEnd, ← List.reverse_append, back, List.reverse_reverse]
  have behind : ∀ c ∈ ((s.dropWhile isBlank).reverse.takeWhile isBlank).reverse,
      isBlank c = true := fun c member => blanks _ c (List.mem_reverse.mp member)
  have parts := Padded.blanks (t := trim s) (blanks s) behind
  rwa [List.append_assoc, ← split, front] at parts

/-- A text without blanks is what is left of it with blanks around it. -/
theorem trim_of_padded {t s : Text} (h : Padded t s) (plain : ∀ c ∈ t, isBlank c = false) :
    trim s = t := by
  cases h with
  | @blanks left right before after =>
    have inside : ∀ c ∈ right.reverse, isBlank c = true := by
      intro c member
      exact after c (List.mem_reverse.mp member)
    cases t with
    | nil =>
      have all : ∀ c ∈ left ++ right, isBlank c = true := List.forall_mem_append.mpr ⟨before, after⟩
      have nothing := dropWhile_append_of_stops all (stops_nil isBlank)
      rw [List.append_nil] at nothing
      rw [List.append_nil, trim, nothing]
      rfl
    | cons c t =>
      have first : Stops isBlank (c :: t ++ right) := stops_cons (plain c List.mem_cons_self)
      have last : Stops isBlank (c :: t).reverse := fun d head =>
        plain d (List.mem_reverse.mp (List.mem_of_head? head))
      rw [trim, List.append_assoc, dropWhile_append_of_stops before first, trimEnd,
        List.reverse_append, dropWhile_append_of_stops inside last, List.reverse_reverse]

/-- Where there are no blanks, none are left out. -/
theorem trim_eq_self {s : Text} (plain : ∀ c ∈ s, isBlank c = false) : trim s = s := by
  have bare : Padded s ([] ++ s ++ []) :=
    .blanks (fun c member => absurd member List.not_mem_nil)
      fun c member => absurd member List.not_mem_nil
  rw [List.nil_append, List.append_nil] at bare
  exact trim_of_padded bare plain

/-- The text holds a word and blanks around it. -/
def HoldsWord (s : Text) (n : Nat) : Prop := ∃ t, IsWord t n ∧ Padded t s

end Text

theorem isBlank_of_isDigit {c : Char} (h : c.isDigit = true) : isBlank c = false := by
  have low : 48 ≤ c.toNat := (Char.isDigit_iff_toNat.mp h).1
  have high : c.toNat ≤ 57 := (Char.isDigit_iff_toNat.mp h).2
  simp [isBlank]
  omega

/-- A word is written without blanks and colons. -/
theorem IsWord.plain {t : Text} {n : Nat} (h : IsWord t n) :
    ∀ c ∈ t, isBlank c = false ∧ c ≠ ':' := by
  cases h with
  | digits plus _ plain =>
    refine List.forall_mem_append.mpr ⟨?_, ?_⟩
    · rcases plus with rfl | rfl
      · exact fun c member => absurd member List.not_mem_nil
      · exact List.forall_mem_singleton.mpr (by decide)
    · intro c member
      have digit := plain c member
      refine ⟨isBlank_of_isDigit digit, ?_⟩
      rintro rfl
      contradiction

namespace Text

/-- The words that are read from what is left without blanks are those that the text holds. -/
theorem readWord_trim_iff (s : Text) (n : Nat) : readWord (trim s) = .ok n ↔ HoldsWord s n := by
  rw [readWord_eq_ok_iff]
  constructor
  · intro word
    exact ⟨trim s, word, padded_trim s⟩
  · rintro ⟨t, word, padded⟩
    have inside : ∀ c ∈ t, isBlank c = false := fun c member => (word.plain c member).1
    rwa [trim_of_padded padded inside]

/-- What is not read is no text that holds a word. -/
theorem readWord_trim_error_iff (s : Text) :
    (∃ e, readWord (trim s) = .error e) ↔ ∀ n, ¬ HoldsWord s n := by
  simp only [← readWord_trim_iff]
  cases readWord (trim s) with
  | ok n => simp
  | error e => simp

theorem HoldsWord.colon {s : Text} {n : Nat} (h : HoldsWord s n) : ':' ∉ s := by
  obtain ⟨t, word, padded⟩ := h
  cases padded with
  | blanks before after =>
    have noBlank : isBlank ':' = false := by decide
    intro member
    rcases List.mem_append.mp member with member | member
    · rcases List.mem_append.mp member with member | member
      · exact absurd (before ':' member) (Bool.eq_false_iff.mp noBlank)
      · exact (word.plain ':' member).2 rfl
    · exact absurd (after ':' member) (Bool.eq_false_iff.mp noBlank)

/-- The decimal form of a number has no blanks, so it holds that number if any. -/
theorem holdsWord_decimal_iff (n m : Nat) : HoldsWord (decimal n) m ↔ n = m ∧ n < wordCount := by
  have plain : ∀ c ∈ decimal n, isBlank c = false := fun c member =>
    isBlank_of_isDigit (isDigit_of_mem_decimal c member)
  rw [← readWord_trim_iff, trim_eq_self plain, readWord_eq_ok_iff, isWord_decimal_iff]

end Text

/-! ## Coordinates -/

namespace Coordinate

/-- The search for a colon goes on as long as there is none. -/
theorem ne_colon_of_not_mem {s : Text} (none : ':' ∉ s) : ∀ c ∈ s, decide (c ≠ ':') = true := by
  intro c member
  apply decide_eq_true
  rintro rfl
  exact none member

/-- A text without a colon is no coordinate. -/
theorem ofText_of_not_mem {s : Text} (none : ':' ∉ s) : ofText s = .error .missingColon := by
  have nothing := Text.dropWhile_append_of_stops (ne_colon_of_not_mem none) (Text.stops_nil _)
  rw [List.append_nil] at nothing
  rw [ofText, nothing]

/-- A text with a colon is read as what stands before the first one and what stands after it. -/
theorem ofText_append {before after : Text} (first : ':' ∉ before) :
    ofText (before ++ ':' :: after) =
      match readWord before.trim, readWord after.trim with
      | .error e, _ => .error (.line e)
      | .ok _, .error e => .error (.character e)
      | .ok line, .ok character => .ok ⟨line, character⟩ := by
  have inside := ne_colon_of_not_mem first
  have stop : Text.Stops (fun c => decide (c ≠ ':')) (':' :: after) :=
    Text.stops_cons (by simp)
  have taken := Text.takeWhile_append_of_stops inside stop
  rw [ofText, Text.dropWhile_append_of_stops inside stop]
  generalize (before ++ ':' :: after).takeWhile _ = left at taken ⊢
  obtain rfl := taken
  rfl

theorem ofText_append_eq_ok_iff {before after : Text} (first : ':' ∉ before) (c : Coordinate) :
    ofText (before ++ ':' :: after) = .ok c ↔
      Text.HoldsWord before c.line ∧ Text.HoldsWord after c.character := by
  rw [ofText_append first, ← Text.readWord_trim_iff, ← Text.readWord_trim_iff]
  cases c with
  | mk line character =>
    cases readWord before.trim with
    | error e => simp
    | ok l =>
      cases readWord after.trim with
      | error e => simp
      | ok k => simp

theorem ofText_append_line_iff {before after : Text} (first : ':' ∉ before) :
    (∃ w, ofText (before ++ ':' :: after) = .error (.line w)) ↔
      ∀ n, ¬ Text.HoldsWord before n := by
  rw [ofText_append first, ← Text.readWord_trim_error_iff]
  cases readWord before.trim with
  | error e => simp
  | ok l =>
    cases readWord after.trim with
    | error e => simp
    | ok k => simp

theorem ofText_append_character_iff {before after : Text} (first : ':' ∉ before) :
    (∃ w, ofText (before ++ ':' :: after) = .error (.character w)) ↔
      (∃ n, Text.HoldsWord before n) ∧ ∀ n, ¬ Text.HoldsWord after n := by
  rw [ofText_append first, ← Text.readWord_trim_error_iff]
  simp only [← Text.readWord_trim_iff]
  cases readWord before.trim with
  | error e => simp
  | ok l =>
    cases readWord after.trim with
    | error e => simp
    | ok k => simp

/-- A text has no colon, or there is a first one. -/
theorem exists_parts_of_ne {s : Text} (h : ofText s ≠ .error .missingColon) :
    ∃ before after, s = before ++ ':' :: after ∧ ':' ∉ before := by
  by_cases colon : ':' ∈ s
  · exact List.eq_append_cons_of_mem colon
  · exact absurd (ofText_of_not_mem colon) h

theorem ofText_eq_missingColon_iff (s : Text) :
    ofText s = .error .missingColon ↔ ':' ∉ s := by
  constructor
  · intro h colon
    obtain ⟨before, after, rfl, first⟩ := List.eq_append_cons_of_mem colon
    rw [ofText_append first] at h
    split at h <;> simp at h
  · exact ofText_of_not_mem

/-- Exactly the texts with a word before a colon and one after it are read as coordinates. -/
theorem ofText_eq_ok_iff (s : Text) (c : Coordinate) :
    ofText s = .ok c ↔
      ∃ before after, s = before ++ ':' :: after ∧ Text.HoldsWord before c.line ∧
        Text.HoldsWord after c.character := by
  constructor
  · intro h
    obtain ⟨before, after, rfl, first⟩ := exists_parts_of_ne (s := s) (by simp [h])
    exact ⟨before, after, rfl, (ofText_append_eq_ok_iff first c).mp h⟩
  · rintro ⟨before, after, rfl, words⟩
    exact (ofText_append_eq_ok_iff words.1.colon c).mpr words

/-- The line is at fault if what stands before the first colon holds no word, whatever comes after
the colon. -/
theorem exists_line_error_iff (s : Text) :
    (∃ w, ofText s = .error (.line w)) ↔
      ∃ before after, s = before ++ ':' :: after ∧ ':' ∉ before ∧
        ∀ n, ¬ Text.HoldsWord before n := by
  constructor
  · rintro ⟨w, h⟩
    obtain ⟨before, after, rfl, first⟩ := exists_parts_of_ne (s := s) (by simp [h])
    exact ⟨before, after, rfl, first, (ofText_append_line_iff first).mp ⟨w, h⟩⟩
  · rintro ⟨before, after, rfl, first, none⟩
    exact (ofText_append_line_iff first).mpr none

/-- The character is at fault if what stands after the first colon holds no word, and the line is
not. -/
theorem exists_character_error_iff (s : Text) :
    (∃ w, ofText s = .error (.character w)) ↔
      ∃ before after, s = before ++ ':' :: after ∧ (∃ n, Text.HoldsWord before n) ∧
        ∀ n, ¬ Text.HoldsWord after n := by
  constructor
  · rintro ⟨w, h⟩
    obtain ⟨before, after, rfl, first⟩ := exists_parts_of_ne (s := s) (by simp [h])
    exact ⟨before, after, rfl, (ofText_append_character_iff first).mp ⟨w, h⟩⟩
  · rintro ⟨before, after, rfl, ⟨n, line⟩, none⟩
    exact (ofText_append_character_iff line.colon).mpr ⟨⟨n, line⟩, none⟩

end Coordinate

/-! ## Messages -/

namespace CoordinateError

/-- The character with which a message begins, a different one for each kind of error. -/
def initial : CoordinateError → Char
  | missingColon => 'e'
  | line _ => 'l'
  | character _ => 'c'

theorem head?_message (e : CoordinateError) : e.message.head? = some e.initial := by
  cases e <;> rfl

/-- So the beginning of a message tells the kind. -/
theorem initial_of_prefix {e : CoordinateError} {c : Char} {s : Text} (h : c :: s <+: e.message) :
    e.initial = c := by
  obtain ⟨rest, same⟩ := h
  have first := head?_message e
  rw [← same] at first
  exact (Option.some.inj first).symm

theorem message_eq_iff (e : CoordinateError) :
    e.message = "expected LINE:CHARACTER".toList ↔ e = .missingColon := by
  constructor
  · intro h
    have whole : "expected LINE:CHARACTER".toList <+: e.message := h ▸ List.prefix_rfl
    have kind : e.initial = 'e' := initial_of_prefix whole
    cases e with
    | missingColon => rfl
    | line w => simp [initial] at kind
    | character w => simp [initial] at kind
  · rintro rfl
    rfl

theorem line_prefix_message_iff (e : CoordinateError) :
    "line: ".toList <+: e.message ↔ ∃ w, e = .line w := by
  constructor
  · intro h
    have kind : e.initial = 'l' := initial_of_prefix h
    cases e with
    | missingColon => simp [initial] at kind
    | line w => exact ⟨w, rfl⟩
    | character w => simp [initial] at kind
  · rintro ⟨w, rfl⟩
    exact ⟨w.message, rfl⟩

theorem character_prefix_message_iff (e : CoordinateError) :
    "character: ".toList <+: e.message ↔ ∃ w, e = .character w := by
  constructor
  · intro h
    have kind : e.initial = 'c' := initial_of_prefix h
    cases e with
    | missingColon => simp [initial] at kind
    | line w => simp [initial] at kind
    | character w => exact ⟨w, rfl⟩
  · rintro ⟨w, rfl⟩
    exact ⟨w.message, rfl⟩

end CoordinateError

/-- A coordinate is a word, a colon and a word, and nothing else is. The message tells what else the
text is: without a colon, with no word before the first colon, or with a word there and none after
it. The decimal forms of two 64-bit words make up a coordinate. -/
theorem Coordinate.ofText_exact (s : Text) :
    (∀ c : Coordinate, ofText s = .ok c ↔
      ∃ before after, s = before ++ ':' :: after ∧ Text.HoldsWord before c.line ∧
        Text.HoldsWord after c.character) ∧
      ((∃ e, ofText s = .error e ∧ e.message = "expected LINE:CHARACTER".toList) ↔ ':' ∉ s) ∧
      ((∃ e, ofText s = .error e ∧ "line: ".toList <+: e.message) ↔
        ∃ before after, s = before ++ ':' :: after ∧ ':' ∉ before ∧
          ∀ n, ¬ Text.HoldsWord before n) ∧
      ((∃ e, ofText s = .error e ∧ "character: ".toList <+: e.message) ↔
        ∃ before after, s = before ++ ':' :: after ∧ (∃ n, Text.HoldsWord before n) ∧
          ∀ n, ¬ Text.HoldsWord after n) ∧
      ∀ l c, ofText (decimal l ++ ':' :: decimal c) = .ok ⟨l, c⟩ ↔
        l < wordCount ∧ c < wordCount := by
  refine ⟨ofText_eq_ok_iff s, ?_, ?_, ?_, ?_⟩
  · simp only [CoordinateError.message_eq_iff, exists_eq_right]
    exact ofText_eq_missingColon_iff s
  · simp only [CoordinateError.line_prefix_message_iff, ← exists_and_left]
    rw [exists_comm]
    simp only [exists_eq_right]
    exact exists_line_error_iff s
  · simp only [CoordinateError.character_prefix_message_iff, ← exists_and_left]
    rw [exists_comm]
    simp only [exists_eq_right]
    exact exists_character_error_iff s
  · intro l c
    rw [ofText_append_eq_ok_iff (not_mem_decimal rfl l), Text.holdsWord_decimal_iff,
      Text.holdsWord_decimal_iff]
    simp only [true_and]

example : Coordinate.ofText " +09 :35\t".toList = .ok ⟨9, 35⟩ := by rfl

end CommodoreBasic
