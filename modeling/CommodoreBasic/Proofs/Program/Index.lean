import CommodoreBasic.Program.Basic
import Mathlib.Order.Bounds.Basic
import Mathlib.Order.Lattice.Nat
import Std.Data.TreeMap.Lemmas

/-!
# What the index finds

An index has two tables, one of labels and one of physical lines, and both are filled in the same
way: each line is entered under its key at its place, over whatever stands there. So a table finds
the last place of every key (`FindsLast`), for any lines and any repetition of keys, and repetitions
in one table are nothing to the other.

The main statement is `Program.indexed_ofLines`.
-/

namespace CommodoreBasic

/-! ## The places of a key -/

/-- The places at which a line has that key. -/
def placesOf (key : Line → Nat) (lines : List Line) (k : Nat) : Set Nat :=
  {n | (lines[n]?).map key = some k}

/-- The last of the lines that have that key. -/
def IsLastOf (key : Line → Nat) (lines : List Line) (k : Nat) (line : Line) : Prop :=
  ∃ n, IsGreatest (placesOf key lines k) n ∧ lines[n]? = some line

section

variable {key : Line → Nat}

theorem mem_placesOf_iff {lines : List Line} {k n : Nat} :
    n ∈ placesOf key lines k ↔ ∃ line, lines[n]? = some line ∧ key line = k :=
  Option.map_eq_some_iff

theorem lt_of_mem_placesOf {lines : List Line} {k n : Nat} (h : n ∈ placesOf key lines k) :
    n < lines.length := by
  obtain ⟨line, found, -⟩ := mem_placesOf_iff.mp h
  exact (List.getElem?_eq_some_iff.mp found).1

theorem nonempty_placesOf_iff {lines : List Line} {k : Nat} :
    (placesOf key lines k).Nonempty ↔ ∃ line ∈ lines, key line = k := by
  constructor
  · rintro ⟨n, place⟩
    obtain ⟨line, found, same⟩ := mem_placesOf_iff.mp place
    exact ⟨line, List.mem_of_getElem? found, same⟩
  · rintro ⟨line, member, same⟩
    obtain ⟨n, found⟩ := List.mem_iff_getElem?.mp member
    exact ⟨n, mem_placesOf_iff.mpr ⟨line, found, same⟩⟩

/-- A key that occurs has a last place. -/
theorem exists_isGreatest_placesOf_iff {lines : List Line} {k : Nat} :
    (∃ n, IsGreatest (placesOf key lines k) n) ↔ ∃ line ∈ lines, key line = k := by
  rw [← nonempty_placesOf_iff]
  constructor
  · rintro ⟨n, last⟩
    exact ⟨n, last.1⟩
  · intro some
    have bounded : BddAbove (placesOf key lines k) :=
      ⟨lines.length, fun n place => Nat.le_of_lt (lt_of_mem_placesOf place)⟩
    exact ⟨_, Nat.sSup_mem some bounded, fun n place => le_csSup bounded place⟩

/-- One line more has one place more, the last of all. -/
theorem mem_placesOf_concat_iff {lines : List Line} {line : Line} {k n : Nat} :
    n ∈ placesOf key (lines ++ [line]) k ↔
      n ∈ placesOf key lines k ∨ n = lines.length ∧ key line = k := by
  rcases Nat.lt_trichotomy n lines.length with before | rfl | beyond
  · have other : n ≠ lines.length := Nat.ne_of_lt before
    simp [placesOf, List.getElem?_append_left before, other]
  · simp [placesOf]
  · have other : n ≠ lines.length := Nat.ne_of_gt beyond
    have outside : lines[n]? = none := List.getElem?_eq_none (Nat.le_of_lt beyond)
    have outside' : (lines ++ [line])[n]? = none := by
      refine List.getElem?_eq_none ?_
      rw [List.length_append, List.length_singleton]
      exact beyond
    simp [mem_placesOf_iff, outside, outside', other]

/-- So a line is in the last place of its own key, and changes nothing for any other one. -/
theorem isGreatest_placesOf_concat_iff {lines : List Line} {line : Line} {k n : Nat} :
    IsGreatest (placesOf key (lines ++ [line]) k) n ↔
      if key line = k then n = lines.length else IsGreatest (placesOf key lines k) n := by
  split
  · next same =>
    have final : IsGreatest (placesOf key (lines ++ [line]) k) lines.length := by
      refine ⟨mem_placesOf_concat_iff.mpr (Or.inr ⟨rfl, same⟩), ?_⟩
      intro m place
      rcases mem_placesOf_concat_iff.mp place with earlier | ⟨rfl, -⟩
      · exact Nat.le_of_lt (lt_of_mem_placesOf earlier)
      · exact Nat.le_refl _
    exact ⟨fun last => last.unique final, fun here => here ▸ final⟩
  · next other =>
    have same : placesOf key (lines ++ [line]) k = placesOf key lines k := by
      ext m
      rw [mem_placesOf_concat_iff]
      simp [other]
    rw [same]

/-- The last line with a key is the first one of the reversed lines. -/
theorem find?_reverse_eq_some_iff {lines : List Line} {k : Nat} {line : Line} :
    (lines.reverse.find? fun l => key l = k) = some line ↔ IsLastOf key lines k line := by
  unfold IsLastOf
  induction lines using List.reverseRecOn with
  | nil => simp
  | append_singleton lines final ih =>
    rw [List.reverse_append, List.reverse_singleton, List.singleton_append, List.find?_cons]
    simp only [isGreatest_placesOf_concat_iff]
    by_cases same : key final = k
    · simp [same]
    · simp only [same, decide_false, if_false, ih]
      refine exists_congr fun n => and_congr_right fun last => ?_
      rw [List.getElem?_append_left (lt_of_mem_placesOf last.1)]

end

/-! ## Tables -/

/-- The table finds the last place of every key among the lines, and nothing else. -/
def FindsLast (key : Line → Nat) (table : Std.TreeMap Nat Nat) (lines : List Line) : Prop :=
  ∀ k n, table[k]? = some n ↔ IsGreatest (placesOf key lines k) n

namespace FindsLast

variable {key : Line → Nat} {table : Std.TreeMap Nat Nat} {lines : List Line}

theorem empty : FindsLast key ∅ [] := by
  intro k n
  simp [placesOf, IsGreatest]

/-- It does so with one line more, entered at its place over whatever stands there. -/
theorem insert (h : FindsLast key table lines) (line : Line) :
    FindsLast key (table.insert (key line) lines.length) (lines ++ [line]) := by
  intro k n
  rw [Std.TreeMap.getElem?_insert, isGreatest_placesOf_concat_iff, ← h k n]
  by_cases same : key line = k
  · simp [same, eq_comm]
  · simp [same]

/-- The line with a key is found in the place that the table has for the key, whatever lines come
after those entered. -/
theorem bind_getElem? (h : FindsLast key table lines) (later : List Line) (k : Nat) :
    (table[k]?).bind ((lines ++ later)[·]?) = lines.reverse.find? fun l => key l = k := by
  refine Option.ext fun l => ?_
  rw [find?_reverse_eq_some_iff, Option.bind_eq_some_iff]
  refine exists_congr fun n => ?_
  rw [h k n]
  refine and_congr_right fun last => ?_
  rw [List.getElem?_append_left (lt_of_mem_placesOf last.1)]

end FindsLast

/-- The tables of an index find the last places of labels and of physical lines. -/
structure Index.Finds (index : Index) (lines : List Line) : Prop where
  labels : FindsLast Line.label index.labels lines
  physical : FindsLast (fun line => line.position.line) index.physical lines

namespace Index.Finds

theorem empty : Index.empty.Finds [] := ⟨.empty, .empty⟩

variable {index : Index} {earlier : List Line}

theorem insert (h : index.Finds earlier) (line : Line) :
    (index.insert earlier.length line).2.Finds (earlier ++ [line]) :=
  ⟨h.labels.insert line, h.physical.insert line⟩

theorem insertFrom (h : index.Finds earlier) (later : List Line) :
    (index.insertFrom earlier.length later).Finds (earlier ++ later) := by
  induction later generalizing index earlier with
  | nil => simpa [Index.insertFrom] using h
  | cons line later ih =>
    have all := ih (h.insert line)
    rwa [List.length_append, List.length_singleton, List.append_assoc] at all

end Index.Finds

theorem Index.finds_ofLines (lines : List Line) : (ofLines lines).Finds lines :=
  Finds.empty.insertFrom lines

/-! ## Programs -/

namespace Program

/-- The index of a program tells where its lines are. Of lines that share a label, or a physical
line, the last one counts. -/
structure Indexed (p : Program) : Prop where
  /-- Under a label its last place is found. -/
  label : ∀ label n,
    p.index.label? label = some n ↔ IsGreatest (placesOf Line.label p.lines label) n
  /-- Nothing is found under a label exactly if no line has it. -/
  label_none : ∀ label, p.index.label? label = none ↔ ∀ line ∈ p.lines, line.label ≠ label
  /-- Under a physical line the last place of a line that begins on it is found. -/
  physical : ∀ k n, p.index.physical? k = some n ↔
    IsGreatest (placesOf (fun line => line.position.line) p.lines k) n
  /-- Nothing is found there exactly if no line begins on it. -/
  physical_none : ∀ k, p.index.physical? k = none ↔ ∀ line ∈ p.lines, line.position.line ≠ k
  /-- The line with a label is the one in the place that is found. -/
  line : ∀ label line,
    p.labelledLine? label = some line ↔ IsLastOf Line.label p.lines label line
  /-- The labels ascend, so each is listed once. -/
  ascending : (p.labels.map Prod.fst).Pairwise (· < ·)
  /-- Each label of a line is listed, and no other one. -/
  complete : ∀ label, label ∈ p.labels.map Prod.fst ↔ ∃ line ∈ p.lines, line.label = label
  /-- A label is listed with its last line. -/
  listed : ∀ label line, (label, line) ∈ p.labels → IsLastOf Line.label p.lines label line
  /-- No label of the index is left out of the list for want of a line. -/
  keys : p.labels.map Prod.fst = p.index.toList.map Prod.fst
  /-- All places that the index keeps are those of lines. -/
  within : (∀ entry ∈ p.index.labels.toList, entry.2 < p.lines.length) ∧
    ∀ entry ∈ p.index.physical.toList, entry.2 < p.lines.length
  /-- The index is empty exactly if the program is. -/
  empty : p.index.isEmpty = true ↔ p.lines = []

section

variable (source : Text) (lines : List Line)

theorem label?_ofLines (label n : Nat) : (ofLines source lines).index.label? label = some n ↔
    IsGreatest (placesOf Line.label lines label) n :=
  (Index.finds_ofLines lines).labels label n

theorem physical?_ofLines (k n : Nat) : (ofLines source lines).index.physical? k = some n ↔
    IsGreatest (placesOf (fun line => line.position.line) lines k) n :=
  (Index.finds_ofLines lines).physical k n

/-- What finds the last place of a key finds nothing exactly if the key does not occur. -/
theorem eq_none_iff_of_isGreatest {found : Option Nat} {key : Line → Nat} {lines : List Line}
    {k : Nat} (last : ∀ n, found = some n ↔ IsGreatest (placesOf key lines k) n) :
    found = none ↔ ∀ line ∈ lines, key line ≠ k := by
  have occurs : (∃ n, IsGreatest (placesOf key lines k) n) ↔ ∃ line ∈ lines, key line = k :=
    exists_isGreatest_placesOf_iff
  simp only [← last] at occurs
  rw [Option.eq_none_iff_forall_ne_some, ← not_exists, occurs]
  simp

/-- A label is entered exactly with its last place. -/
theorem mem_toList_ofLines_iff {label n : Nat} :
    (label, n) ∈ (ofLines source lines).index.toList ↔
      IsGreatest (placesOf Line.label lines label) n := by
  rw [← label?_ofLines source]
  exact Std.TreeMap.mem_toList_iff_getElem?_eq_some

theorem mem_labels_iff {label : Nat} {line : Line} :
    (label, line) ∈ (ofLines source lines).labels ↔ IsLastOf Line.label lines label line := by
  simp only [IsLastOf, labels, List.mem_filterMap, Prod.exists, Option.map_eq_some_iff,
    Prod.mk.injEq, ← mem_toList_ofLines_iff source]
  constructor
  · rintro ⟨label, n, entry, line, found, rfl, rfl⟩
    exact ⟨n, entry, found⟩
  · rintro ⟨n, entry, found⟩
    exact ⟨label, n, entry, line, found, rfl, rfl⟩

/-- Each entry of the index has a line, so none is left out of the list of labels. -/
theorem map_fst_labels :
    (ofLines source lines).labels.map Prod.fst =
      (ofLines source lines).index.toList.map Prod.fst := by
  rw [labels, List.map_filterMap, ← List.filterMap_eq_map]
  refine List.filterMap_congr ?_
  rintro ⟨label, n⟩ entry
  obtain ⟨line, found, -⟩ := mem_placesOf_iff.mp ((mem_toList_ofLines_iff source lines).mp entry).1
  show Option.map Prod.fst (((ofLines source lines).lines[n]?).map (label, ·)) = some label
  rw [show (ofLines source lines).lines = lines from rfl, found]
  rfl

theorem labelledLine?_eq_some_iff {label : Nat} {line : Line} :
    (ofLines source lines).labelledLine? label = some line ↔
      IsLastOf Line.label lines label line := by
  simp only [labelledLine?, Option.bind_eq_some_iff, label?_ofLines]
  exact Iff.rfl

theorem pairwise_labels : ((ofLines source lines).labels.map Prod.fst).Pairwise (· < ·) := by
  rw [map_fst_labels, List.pairwise_map]
  exact Std.TreeMap.ordered_keys_toList.imp fun less => Nat.compare_eq_lt.mp less

theorem mem_map_fst_labels_iff {label : Nat} :
    label ∈ (ofLines source lines).labels.map Prod.fst ↔ ∃ line ∈ lines, line.label = label := by
  rw [map_fst_labels, ← exists_isGreatest_placesOf_iff]
  simp only [List.mem_map, Prod.exists, exists_and_right, exists_eq_right, mem_toList_ofLines_iff]

theorem isEmpty_index_iff : (ofLines source lines).index.isEmpty = true ↔ lines = [] := by
  have vacant : (ofLines source lines).index.isEmpty = true ↔
      ∀ label, (ofLines source lines).index.label? label = none := by
    rw [Index.isEmpty, Std.TreeMap.isEmpty_iff_forall_not_mem]
    refine forall_congr' fun label => ?_
    rw [Std.TreeMap.mem_iff_isSome_getElem?, Index.label?, Option.not_isSome_iff_eq_none]
  rw [vacant, List.eq_nil_iff_forall_not_mem]
  constructor
  · intro unused line member
    have none := eq_none_iff_of_isGreatest (label?_ofLines source lines line.label)
    exact none.mp (unused line.label) line member rfl
  · intro nothing label
    refine (eq_none_iff_of_isGreatest (label?_ofLines source lines label)).mpr ?_
    exact fun line member => absurd member (nothing line)

end

/-- The program of any lines has an index of them, however their labels and physical lines
repeat. -/
theorem indexed_ofLines (source : Text) (lines : List Line) :
    (ofLines source lines).Indexed where
  label := label?_ofLines source lines
  label_none label := eq_none_iff_of_isGreatest (label?_ofLines source lines label)
  physical := physical?_ofLines source lines
  physical_none k := eq_none_iff_of_isGreatest (physical?_ofLines source lines k)
  line _ _ := labelledLine?_eq_some_iff source lines
  ascending := pairwise_labels source lines
  complete _ := mem_map_fst_labels_iff source lines
  listed _ _ := (mem_labels_iff source lines).mp
  keys := map_fst_labels source lines
  within := by
    constructor
    · rintro ⟨label, n⟩ entry
      exact lt_of_mem_placesOf ((mem_toList_ofLines_iff source lines).mp entry).1
    · rintro ⟨k, n⟩ entry
      have found := Std.TreeMap.mem_toList_iff_getElem?_eq_some.mp entry
      exact lt_of_mem_placesOf ((physical?_ofLines source lines k n).mp found).1
  empty := isEmpty_index_iff source lines

end Program

end CommodoreBasic
