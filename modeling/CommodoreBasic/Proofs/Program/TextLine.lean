import CommodoreBasic.Proofs.Program.LineByLine
import CommodoreBasic.Proofs.Program.Lines

/-!
# The line on a physical line

The index of a program keeps one line for each physical line, and would drop all but the last of
those that begin on the same one. In the program of a text no two lines do: a physical line gives
one line or, if it is blank, none, so the numbers grow from line to line
(`pairwise_joinParts`).

The main statement is `Program.textLine?_eq_none_iff_blank`, with what it means for the question
that an editor asks: each line is found by its number, and nothing is found exactly where the text
has no line or a blank one.
-/

namespace CommodoreBasic

/-! ## The numbers of the lines -/

theorem joinParts_cons (k : Nat) (part : List Line) (parts : List (List Line)) :
    joinParts k (part :: parts) =
      part.map (Line.relocate (Position.onLine k)) ++ joinParts (k + 1) parts := rfl

/-- The lines of a part begin on the physical line of the part. -/
theorem line_of_mem_part {k : Nat} {part : List Line} :
    ∀ l ∈ part.map (Line.relocate (Position.onLine k)), l.position.line = k := by
  intro l member
  obtain ⟨m, -, rfl⟩ := List.mem_map.mp member
  rfl

/-- Joined lines begin on the physical line of the first part or later. -/
theorem le_of_mem_joinParts {k : Nat} {parts : List (List Line)} :
    ∀ l ∈ joinParts k parts, k ≤ l.position.line := by
  induction parts generalizing k with
  | nil => exact fun l member => absurd member List.not_mem_nil
  | cons part parts ih =>
    intro l member
    rw [joinParts_cons] at member
    rcases List.mem_append.mp member with here | later
    · exact Nat.le_of_eq (line_of_mem_part l here).symm
    · exact Nat.le_of_succ_le (ih l later)

/-- If no part has more than one line, the numbers of the lines grow. -/
theorem pairwise_joinParts (k : Nat) {parts : List (List Line)}
    (single : ∀ part ∈ parts, part.length ≤ 1) :
    (joinParts k parts).Pairwise fun l m => l.position.line < m.position.line := by
  induction parts generalizing k with
  | nil => exact .nil
  | cons part parts ih =>
    obtain ⟨one, rest⟩ := List.forall_mem_cons.mp single
    rw [joinParts_cons, List.pairwise_append]
    refine ⟨?_, ih (k + 1) rest, ?_⟩
    · match part, one with
      | [], _ => exact .nil
      | [l], _ => exact List.pairwise_singleton ..
    · intro l here m later
      rw [line_of_mem_part l here]
      exact le_of_mem_joinParts m later

/-- A joined line begins on a physical line exactly if the part there has a line. -/
theorem exists_mem_joinParts_iff (k n : Nat) (parts : List (List Line)) :
    (∃ l ∈ joinParts k parts, l.position.line = k + n) ↔
      ∃ part, parts[n]? = some part ∧ part ≠ [] := by
  induction parts generalizing k n with
  | nil => simp [joinParts]
  | cons part parts ih =>
    rw [joinParts_cons]
    cases n with
    | zero =>
      constructor
      · rintro ⟨l, member, line⟩
        rcases List.mem_append.mp member with here | later
        · obtain ⟨m, inside, -⟩ := List.mem_map.mp here
          exact ⟨part, rfl, List.ne_nil_of_mem inside⟩
        · have beyond := le_of_mem_joinParts l later
          omega
      · rintro ⟨part', found, some⟩
        obtain rfl : part = part' := by simpa using found
        obtain ⟨l, rest, rfl⟩ := List.exists_cons_of_ne_nil some
        exact ⟨l.relocate (Position.onLine k), by simp, rfl⟩
    | succ n =>
      rw [List.getElem?_cons_succ, ← ih (k + 1) n]
      constructor
      · rintro ⟨l, member, line⟩
        rcases List.mem_append.mp member with here | later
        · have first := line_of_mem_part l here
          omega
        · exact ⟨l, later, by omega⟩
      · rintro ⟨l, later, line⟩
        exact ⟨l, List.mem_append_right _ later, by omega⟩

namespace Program

/-! ## Looking lines up -/

theorem textLine?_eq_none_iff (source : Text) (lines : List Line) {k : Nat}
    (word : k + 1 < wordCount) :
    (ofLines source lines).textLine? k = none ↔ ∀ l ∈ lines, l.position.line ≠ k + 1 := by
  rw [textLine?_ofLines source lines word, List.find?_eq_none]
  simp

/-- If the numbers of the lines grow, each line is found by its own. -/
theorem textLine?_of_mem (source : Text) {lines : List Line}
    (grow : lines.Pairwise fun l m => l.position.line < m.position.line) {l : Line}
    (member : l ∈ lines) (word : l.position.line < wordCount) {k : Nat}
    (line : l.position.line = k + 1) : (ofLines source lines).textLine? k = some l := by
  rw [line] at word
  cases found : (ofLines source lines).textLine? k with
  | none => exact absurd line ((textLine?_eq_none_iff source lines word).mp found l member)
  | some m =>
    rw [textLine?_ofLines source lines word] at found
    have inside : m ∈ lines := List.mem_reverse.mp (List.mem_of_find?_eq_some found)
    have number : m.position.line = k + 1 := by simpa using List.find?_some found
    obtain ⟨i, hi, rfl⟩ := List.getElem_of_mem inside
    obtain ⟨j, hj, rfl⟩ := List.getElem_of_mem member
    rw [List.pairwise_iff_getElem] at grow
    -- of two lines at different places the earlier one has the smaller number
    rcases Nat.lt_trichotomy i j with before | rfl | after
    · have less := grow i j hi hj before
      omega
    · rfl
    · have less := grow j i hj hi after
      omega

end Program

/-! ## Blank lines -/

/-- A physical line gives one line, or none if it is blank. -/
theorem map_length_of_reads {e : Encoding} {ts : List Text} {parts : List (List Line)}
    (lines : ∀ t ∈ ts, Text.IsLine t) (reads : ts.map (readLines e) = parts.map .ok) :
    parts.map List.length = ts.map fun t => if t.all isSpacing then 0 else 1 := by
  induction ts generalizing parts with
  | nil =>
    obtain rfl := List.map_eq_nil_iff.mp reads.symm
    rfl
  | cons t ts ih =>
    obtain ⟨part, parts, rfl, read, later⟩ := List.map_eq_cons_iff.mp reads.symm
    obtain ⟨line, rest⟩ := List.forall_mem_cons.mp lines
    rw [List.map_cons, List.map_cons, ih rest later.symm, length_of_readLines line read.symm]

/-- There is a line in the part of a physical line exactly if that one is not blank. -/
theorem exists_part_iff {ts : List Text} {parts : List (List Line)}
    (lengths : parts.map List.length = ts.map fun t => if t.all isSpacing then 0 else 1) (k : Nat) :
    (∃ part, parts[k]? = some part ∧ part ≠ []) ↔
      ∃ t, ts[k]? = some t ∧ t.all isSpacing = false := by
  have length := congrArg (·[k]?) lengths
  simp only [List.getElem?_map] at length
  cases line : ts[k]? with
  | none =>
    rw [line, Option.map_none, Option.map_eq_none_iff] at length
    simp [length]
  | some t =>
    rw [line, Option.map_some, Option.map_eq_some_iff] at length
    obtain ⟨part, found, length⟩ := length
    have filled : part ≠ [] ↔ t.all isSpacing = false := by
      rw [← List.length_pos_iff, length]
      cases t.all isSpacing <;> simp
    simpa [found] using filled

/-- No physical line gives more than one. -/
theorem length_le_one_of_reads {ts : List Text} {parts : List (List Line)}
    (lengths : parts.map List.length = ts.map fun t => if t.all isSpacing then 0 else 1) :
    ∀ part ∈ parts, part.length ≤ 1 := by
  intro part member
  have length : part.length ∈ parts.map List.length := List.mem_map_of_mem member
  rw [lengths] at length
  obtain ⟨t, -, length⟩ := List.mem_map.mp length
  rw [← length]
  split <;> omega

/-- A text has no more lines than characters and one, so the last one of as many lines is empty. -/
theorem Text.LineAt.eq_nil_of_length_lt {s t : Text} {n : Nat} (h : LineAt s n t)
    (short : s.length < n) : t = [] := by
  cases h with
  | @intro before t after =>
    have breaks := lineBreaks_le_length before
    rw [List.length_append, List.length_append] at short
    exact List.length_eq_zero_iff.mp (by omega)

/-! ## Programs -/

namespace Program

/-- Among joined lines nothing is found exactly on the blank ones and beyond the last one. -/
theorem textLine?_joinParts_eq_none_iff (source : Text) {ts : List Text}
    {parts : List (List Line)}
    (lengths : parts.map List.length = ts.map fun t => if t.all isSpacing then 0 else 1) {k : Nat}
    (word : k + 1 < wordCount) :
    (ofLines source (joinParts 1 parts)).textLine? k = none ↔
      ∀ t, ts[k]? = some t → t.all isSpacing = true := by
  have taken := (exists_mem_joinParts_iff 1 k parts).trans (exists_part_iff lengths k)
  rw [textLine?_eq_none_iff source _ word]
  constructor
  · intro none t line
    cases other : t.all isSpacing with
    | true => rfl
    | false =>
      obtain ⟨l, member, number⟩ := taken.mpr ⟨t, line, other⟩
      exact absurd (number.trans (Nat.add_comm ..)) (none l member)
  · intro blank l member number
    obtain ⟨t, line, other⟩ := taken.mp ⟨l, member, number.trans (Nat.add_comm ..)⟩
    rw [blank t line] at other
    contradiction

/-- In the program of a text the physical numbers of the lines grow from line to line, so each line
is found by its own. On a physical line nothing is found exactly if the text has no such line or
nothing but spaces and tabs on it. The last number that fits a word leads to no line, and a text of
fewer characters than words has none there. -/
theorem textLine?_eq_none_iff_blank {e : Encoding} {source s : Text} {p : Program}
    (h : parse e source s = .ok p) :
    (p.lines.map fun l => l.position.line).Pairwise (· < ·) ∧
      (∀ l ∈ p.lines, l.position.line < wordCount →
        p.textLine? (l.position.line - 1) = some l) ∧
      (∀ k, k + 1 < wordCount → (p.textLine? k = none ↔
        ∀ t, s.physicalLines[k]? = some t → t.all isSpacing = true)) ∧
      (∀ k, wordCount ≤ k + 1 → p.textLine? k = none) ∧
      (s.length + 1 < wordCount →
        (∀ l ∈ p.lines, p.textLine? (l.position.line - 1) = some l) ∧
        ∀ k, p.textLine? k = none ↔
          ∀ t, s.physicalLines[k]? = some t → t.all isSpacing = true) := by
  have lined := Text.lined_physicalLines s
  have words := line_lt_wordCount h
  obtain ⟨programs, all, rfl⟩ := (parse_eq_ok_iff_parts e source s p).mp h
  obtain ⟨parts, reads, rfl⟩ := map_parse_eq_iff.mp all
  rw [map_lines_ofLines] at words ⊢
  have lengths := map_length_of_reads lined.isLine reads
  have grow := pairwise_joinParts 1 (length_le_one_of_reads lengths)
  have found : ∀ l ∈ joinParts 1 parts, l.position.line < wordCount →
      (ofLines source (joinParts 1 parts)).textLine? (l.position.line - 1) = some l := by
    intro l member word
    have positive := le_of_mem_joinParts l member
    exact textLine?_of_mem source grow member word (by omega)
  have blank : ∀ k, k + 1 < wordCount →
      ((ofLines source (joinParts 1 parts)).textLine? k = none ↔
        ∀ t, s.physicalLines[k]? = some t → t.all isSpacing = true) := fun k word =>
    textLine?_joinParts_eq_none_iff source lengths word
  refine ⟨List.pairwise_map.mpr grow, found, blank,
    fun k beyond => textLine?_eq_none_of_le _ beyond, fun short => ⟨?_, fun k => ?_⟩⟩
  · exact fun l member => found l member (words short l member)
  · rcases Nat.lt_or_ge (k + 1) wordCount with word | beyond
    · exact blank k word
    · refine iff_of_true (textLine?_eq_none_of_le _ beyond) fun t line => ?_
      rw [(lined.lineAt line).eq_nil_of_length_lt (by omega)]
      rfl

/-- An empty line, a line, two blank ones, a line and the empty one after its end. -/
theorem textLine?_eq_none_iff_blank_gaps :
    ∃ p, parse .utf16 [] "\r10 end\r\n \t\r\r20 rem \n".toList = .ok p ∧
      (p.lines.map fun l => l.position.line).Pairwise (· < ·) ∧
      (∀ l ∈ p.lines, p.textLine? (l.position.line - 1) = some l) ∧
      (∀ k, p.textLine? k = none ↔
        ∀ t, (Text.physicalLines "\r10 end\r\n \t\r\r20 rem \n".toList)[k]? = some t →
          t.all isSpacing = true) ∧
      p.textLine? (wordCount - 1) = none := by
  have read : (parse .utf16 [] "\r10 end\r\n \t\r\r20 rem \n".toList).toOption.map
      (fun p => p.lines.length) = some 2 := by
    decide +kernel
  obtain ⟨p, parsed, -⟩ := exists_parse_of_map read
  obtain ⟨grow, -, -, last, all⟩ := textLine?_eq_none_iff_blank parsed
  obtain ⟨found, blank⟩ := all (by decide)
  exact ⟨p, parsed, grow, found, blank, last _ (by decide)⟩

end Program

end CommodoreBasic
