import CommodoreBasic.Program.Log
import CommodoreBasic.Proofs.Program.KeywordSpan

/-!
# What is logged of the labels

The labels that are used again are found while the index is filled, and what is remarked on a line
depends on the index at that moment: it names the line that the new one displaces. Here each remark
is given from the lines alone (`duplicateLabels_eq`): a line is remarked upon if an earlier line has
its label, and then with the nearest such line. A line is either remarked upon or enters a label, so
the two numbers add up to that of all lines (`length_duplicateLabels`).

The main statement is `log_exact`.
-/

namespace CommodoreBasic

/-- What there is to remark on a line that comes after others: the nearest of them with its label,
if there is one. -/
def Line.repeats? (earlier : List Line) (line : Line) : Option DuplicateLabel :=
  (earlier.reverse.find? fun l => l.label = line.label).map fun previous =>
    ⟨line.label, previous.position.line, line.position.line⟩

/-- What there is to remark on the lines of a program, in their order. -/
def repeatedLabels (lines : List Line) : List DuplicateLabel :=
  (List.range lines.length).filterMap fun n => (lines[n]?).bind (Line.repeats? (lines.take n))

namespace Line

theorem repeats?_eq_some_iff {earlier : List Line} {line : Line} {d : DuplicateLabel} :
    line.repeats? earlier = some d ↔ ∃ previous, IsLastOf Line.label earlier line.label previous ∧
      ⟨line.label, previous.position.line, line.position.line⟩ = d := by
  simp only [repeats?, Option.map_eq_some_iff, @find?_reverse_eq_some_iff Line.label]

end Line

/-! ## Filling the index -/

namespace Index.Finds

variable {index : Index} {earlier later : List Line}

/-- If the index finds the earlier lines, the next one has its remark from what it displaces. -/
theorem duplicateLabelsFrom_cons (h : index.Finds earlier) (line : Line) :
    duplicateLabelsFrom (earlier ++ line :: later) index earlier.length (line :: later) =
      (line.repeats? earlier).toList ++
        duplicateLabelsFrom (earlier ++ line :: later) (index.insert earlier.length line).2
          (earlier.length + 1) later := by
  have displaced := h.labels.bind_getElem? (line :: later) line.label
  rw [duplicateLabelsFrom, Line.repeats?, ← displaced]
  dsimp only [Index.insert]
  cases index.labels[line.label]?.bind ((earlier ++ line :: later)[·]?) <;> rfl

/-- So each line has the remark that the lines alone give it. -/
theorem duplicateLabelsFrom_eq (h : index.Finds earlier) :
    duplicateLabelsFrom (earlier ++ later) index earlier.length later =
      (List.range' earlier.length later.length).filterMap fun n =>
        ((earlier ++ later)[n]?).bind (Line.repeats? ((earlier ++ later).take n)) := by
  induction later generalizing index earlier with
  | nil => rfl
  | cons line later ih =>
    have rest := ih (h.insert line)
    rw [List.length_append, List.length_singleton, List.append_assoc,
      List.singleton_append] at rest
    rw [h.duplicateLabelsFrom_cons, rest, List.length_cons, List.range'_succ,
      List.filterMap_cons]
    simp only [List.getElem?_append_right (Nat.le_refl _), Nat.sub_self, List.getElem?_cons_zero,
      Option.bind_some, List.take_left]
    cases line.repeats? earlier <;> rfl

/-- Either there is a remark on a line or it enters a new label. -/
theorem length_repeats?_add_size (h : index.Finds earlier) (line : Line) (n : Nat) :
    (line.repeats? earlier).toList.length + (index.insert n line).2.labels.size =
      index.labels.size + 1 := by
  have displaced := h.labels.bind_getElem? [] line.label
  have grows : (index.labels.insert line.label n).size =
      if line.label ∈ index.labels then index.labels.size else index.labels.size + 1 :=
    Std.TreeMap.size_insert
  show _ + (index.labels.insert line.label n).size = _
  rw [grows, Line.repeats?, ← displaced]
  cases found : index.labels[line.label]? with
  | none =>
    have fresh : line.label ∉ index.labels := by
      rw [Std.TreeMap.mem_iff_isSome_getElem?, found]
      exact Bool.false_ne_true
    rw [if_neg fresh]
    exact Nat.zero_add _
  | some place =>
    have known : line.label ∈ index.labels :=
      Std.TreeMap.mem_iff_isSome_getElem?.mpr (by simp [found])
    have inside := lt_of_mem_placesOf ((h.labels line.label place).mp found).1
    rw [if_pos known]
    simp [inside, Nat.add_comm]

/-- So the remarks and the labels entered are as many as the lines. -/
theorem length_duplicateLabelsFrom (h : index.Finds earlier) :
    (duplicateLabelsFrom (earlier ++ later) index earlier.length later).length +
        (index.insertFrom earlier.length later).labels.size =
      index.labels.size + later.length := by
  induction later generalizing index earlier with
  | nil => exact Nat.zero_add _
  | cons line later ih =>
    have first := h.length_repeats?_add_size line earlier.length
    have rest := ih (h.insert line)
    rw [List.length_append, List.length_singleton, List.append_assoc,
      List.singleton_append] at rest
    rw [h.duplicateLabelsFrom_cons, Index.insertFrom, List.length_append, List.length_cons]
    omega

end Index.Finds

theorem duplicateLabels_eq (lines : List Line) : duplicateLabels lines = repeatedLabels lines := by
  rw [repeatedLabels, List.range_eq_range']
  exact Index.Finds.empty.duplicateLabelsFrom_eq

/-- The remarks on a program and its labels are as many as its lines. -/
theorem length_duplicateLabels (source : Text) (lines : List Line) :
    (duplicateLabels lines).length + (Program.ofLines source lines).labels.length =
      lines.length := by
  have count := @Index.Finds.length_duplicateLabelsFrom _ [] lines .empty
  have listed : (Program.ofLines source lines).labels.length =
      (Index.ofLines lines).labels.size := by
    rw [← List.length_map (f := Prod.fst), Program.map_fst_labels, List.length_map, Index.toList,
      Std.TreeMap.length_toList]
    rfl
  have none : Index.empty.labels.size = 0 := Std.TreeMap.size_emptyc
  rw [none, Nat.zero_add] at count
  rw [listed]
  exact count

/-! ## Texts -/

/-- In a program a label is always remarked upon with an earlier physical line. -/
theorem previous_lt_current {lines : List Line}
    (order : lines.Pairwise fun l m => l.position.line < m.position.line) :
    ∀ d ∈ repeatedLabels lines, d.previous < d.current := by
  intro d member
  obtain ⟨n, -, remark⟩ := List.mem_filterMap.mp member
  obtain ⟨line, here, remark⟩ := Option.bind_eq_some_iff.mp remark
  obtain ⟨previous, ⟨m, -, found⟩, rfl⟩ := Line.repeats?_eq_some_iff.mp remark
  have before : m < n := by
    by_contra beyond
    rw [List.getElem?_take_eq_none (Nat.le_of_not_lt beyond)] at found
    contradiction
  rw [List.getElem?_take_of_lt before] at found
  obtain ⟨inside, rfl⟩ := List.getElem?_eq_some_iff.mp found
  obtain ⟨inside', rfl⟩ := List.getElem?_eq_some_iff.mp here
  exact List.pairwise_iff_getElem.mp order m n inside inside' before

/-- What is logged of a text. If it is read, that is told with the number of lines, and in detail
after it each label that is used again, in the order of the lines: once for each line with a label
that an earlier line has, with the nearest such line and the line itself. Otherwise nothing but the
error is logged. -/
theorem log_exact (e : Encoding) (source s : Text) :
    match Program.parse e source s with
    | .ok p =>
      eventsShownAt .trace e s =
        .parsed p.lines.length :: (repeatedLabels p.lines).map .duplicate ∧
      eventsShownAt .debug e s = [.parsed p.lines.length] ∧
      (∀ d ∈ repeatedLabels p.lines, d.previous < d.current) ∧
      (repeatedLabels p.lines).length + p.labels.length = p.lines.length
    | .error error =>
      eventsShownAt .trace e s = [.failed error] ∧ eventsShownAt .debug e s = [.failed error] := by
  cases read : readLines e s with
  | error error =>
    rw [Program.parse_eq_error_iff.mpr read]
    simp [eventsShownAt, logEvents, read, LogEvent.shownAt]
  | ok lines =>
    rw [Program.parse_eq_ok_iff.mpr ⟨lines, read, rfl⟩]
    have events : logEvents e s =
        .parsed lines.length :: (repeatedLabels lines).map .duplicate := by
      rw [logEvents, read, ← duplicateLabels_eq]
    obtain ⟨-, derived⟩ := derives_of_readLines read
    obtain ⟨rest, -, chain, -⟩ := chained_cut s
    have order := derived.pairwise_line (rows_place e .start chain)
    have count := length_duplicateLabels source lines
    rw [duplicateLabels_eq] at count
    refine ⟨?_, ?_, previous_lt_current order, count⟩
    · simp [eventsShownAt, events, LogEvent.shownAt, Program.ofLines]
    · simp [eventsShownAt, events, LogEvent.shownAt, Program.ofLines]

/-- Three lines with one label and three with another between them, over an empty line and one with
a label of its own: each names the nearest line before it. -/
theorem log_exact_interleaved :
    ∃ p, Program.parse .utf16 [] "1 a\n2 b\n01 c\r\r2 d\n3 rem\n1 e\n2 f".toList = .ok p ∧
      eventsShownAt .trace .utf16 "1 a\n2 b\n01 c\r\r2 d\n3 rem\n1 e\n2 f".toList =
        [.parsed 7, .duplicate ⟨1, 1, 3⟩, .duplicate ⟨2, 2, 5⟩, .duplicate ⟨1, 3, 7⟩,
          .duplicate ⟨2, 5, 8⟩] ∧
      eventsShownAt .debug .utf16 "1 a\n2 b\n01 c\r\r2 d\n3 rem\n1 e\n2 f".toList =
        [.parsed 7] ∧
      p.labels.length = 3 := by
  have read : (Program.parse .utf16 []
      "1 a\n2 b\n01 c\r\r2 d\n3 rem\n1 e\n2 f".toList).toOption.map
        (fun p => (p.lines.length, repeatedLabels p.lines)) =
      some (7, [⟨1, 1, 3⟩, ⟨2, 2, 5⟩, ⟨1, 3, 7⟩, ⟨2, 5, 8⟩]) := by
    decide +kernel
  obtain ⟨p, parsed, both⟩ := Program.exists_parse_of_map read
  obtain ⟨lines, repeated⟩ := Prod.mk.inj both
  refine ⟨p, parsed, ?_⟩
  generalize "1 a\n2 b\n01 c\r\r2 d\n3 rem\n1 e\n2 f".toList = s at parsed ⊢
  have logged := log_exact .utf16 [] s
  rw [parsed] at logged
  obtain ⟨trace, debug, -, count⟩ := logged
  rw [lines, repeated] at trace count
  rw [lines] at debug
  exact ⟨trace, debug, Nat.add_left_cancel count⟩

end CommodoreBasic
