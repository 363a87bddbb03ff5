import CommodoreBasic.Proofs.Lexical.Locality

/-!
# Physical lines

The lines of a text stand between its line ends. `physicalLines` cuts a text into them, `Lined` is
the relation between a text and its lines, and `LineAt` says of one line where it stands: how many
line ends there are before it and what it borders on.

`Text.lines` cuts a text in two goes, first at line feeds and then at carriage returns. It gives the
same lines but for one case, `Lined.lines_eq`: the empty line after a carriage return that ends the
text is missing. `sourceLine_eq_some_iff` is what this means for the choice of a line by its number,
and `sourceLine_final_return` is a text that shows it.
-/

namespace CommodoreBasic

namespace Text

/-- The pieces of a text between its line ends. A line feed, a carriage return, and the pair of
both end a line. -/
def physicalLines : Text → List Text
  | [] => [[]]
  | '\r' :: '\n' :: s => [] :: physicalLines s
  | c :: s =>
    if isLineBreak c then [] :: physicalLines s else (physicalLines s).modifyHead (c :: ·)

/-- What ends a line, if the text goes on as given. -/
inductive LineEnd : Text → Text → Prop
  | feed {s : Text} : LineEnd ['\n'] s
  | pair {s : Text} : LineEnd ['\r', '\n'] s
  | ret {s : Text} (alone : s.head? ≠ some '\n') : LineEnd ['\r'] s

/-- A text and its lines. -/
inductive Lined : Text → List Text → Prop
  | last {t : Text} (line : IsLine t) : Lined t [t]
  | cons {t ending s : Text} {ts : List Text} (line : IsLine t) (ends : LineEnd ending s)
      (later : Lined s ts) : Lined (t ++ (ending ++ s)) (t :: ts)

theorem Lined.cons_char {c : Char} {s : Text} {ts : List Text} (h : Lined s ts)
    (plain : isLineBreak c = false) : Lined (c :: s) (ts.modifyHead (c :: ·)) := by
  have longer : ∀ {t : Text}, IsLine t → IsLine (c :: t) := by
    intro t line d hd
    rcases List.mem_cons.mp hd with rfl | hd
    · exact plain
    · exact line d hd
  cases h with
  | last line => exact .last (longer line)
  | cons line ends later => exact .cons (longer line) ends later

theorem lined_physicalLines (s : Text) : Lined s s.physicalLines := by
  have empty : IsLine [] := fun c hc => absurd hc List.not_mem_nil
  fun_induction physicalLines s with
  | case1 => exact .last empty
  | case2 s ih => exact .cons empty .pair ih
  | case3 c s other isBreak ih =>
    simp only [isLineBreak, Bool.or_eq_true, decide_eq_true_eq] at isBreak
    rcases isBreak with rfl | rfl
    · exact .cons empty .feed ih
    · refine .cons empty (.ret ?_) ih
      intro feed
      cases s with
      | nil => simp at feed
      | cons d s =>
        cases feed
        exact other s rfl rfl
  | case4 c s _ plain ih => exact ih.cons_char (by simpa using plain)

theorem Lined.ne_nil {s : Text} {ts : List Text} (h : Lined s ts) : ts ≠ [] := by
  cases h <;> simp

theorem Lined.isLine {s : Text} {ts : List Text} (h : Lined s ts) : ∀ t ∈ ts, IsLine t := by
  induction h with
  | last line => simpa using line
  | cons line _ _ ih =>
    intro t ht
    rcases List.mem_cons.mp ht with rfl | ht
    · exact line
    · exact ih t ht

theorem LineEnd.isLineBreak {ending s : Text} (h : LineEnd ending s) :
    ∀ c ∈ ending, isLineBreak c = true := by
  cases h <;> simp [CommodoreBasic.isLineBreak]

theorem LineEnd.endsLine {ending s : Text} (h : LineEnd ending s) : EndsLine (ending ++ s) := by
  cases h <;> exact stops_cons rfl

/-- It counts for one, also in front of more line ends. -/
theorem LineEnd.lineBreaks_append {ending run rest : Text} (h : LineEnd ending (run ++ rest)) :
    lineBreaks (ending ++ run) = 1 + lineBreaks run := by
  cases h with
  | feed => simp [lineBreaks]
  | pair => simp [lineBreaks]
  | ret alone =>
    have apart : run.head? ≠ some '\n' := by
      intro feed
      rw [List.head?_append, feed] at alone
      exact alone rfl
    simp [lineBreaks, apart]

theorem Lined.length {s : Text} {ts : List Text} (h : Lined s ts) :
    ts.length = s.lineBreaks + 1 := by
  induction h with
  | last line => rw [lineBreaks_eq_zero line, List.length_singleton]
  | @cons t ending s ts line ends _ ih =>
    have apart : t.getLast? = some '\r' → (ending ++ s).head? ≠ some '\n' := by
      intro last
      have plain := line '\r' (List.mem_of_getLast? last)
      contradiction
    have alone : LineEnd ending (s ++ []) := by rwa [List.append_nil]
    rw [lineBreaks_append apart, lineBreaks_eq_zero line, alone.lineBreaks_append,
      List.length_cons, ih]
    omega

/-! ## Lines by their place -/

/-- Line `n` of a text: `n - 1` line ends stand before it, the last of them next to it, and a line
end or the end of the text comes after it. -/
inductive LineAt : Text → Nat → Text → Prop
  | intro {before t after : Text}
      (starts : ∀ c, before.getLast? = some c → CommodoreBasic.isLineBreak c = true)
      (unparted : before.getLast? = some '\r' → (t ++ after).head? ≠ some '\n') (line : IsLine t)
      (ends : EndsLine after) : LineAt (before ++ (t ++ after)) (before.lineBreaks + 1) t

theorem lastLine_append_of_getLast? {u : Text}
    (starts : ∀ c, u.getLast? = some c → CommodoreBasic.isLineBreak c = true) (s : Text) :
    lastLine (u ++ s) = lastLine s := by
  have stuck : u.reverse.takeWhile (fun c => !CommodoreBasic.isLineBreak c) = [] := by
    cases reversed : u.reverse with
    | nil => rfl
    | cons c r =>
      have last : u.getLast? = some c := by rw [List.getLast?_eq_head?_reverse, reversed]; rfl
      exact List.takeWhile_cons_of_neg (by simp [starts c last])
  rw [lastLine, lastLine, List.reverse_append, List.takeWhile_append, stuck, List.append_nil]
  split
  · next all => rw [(List.takeWhile_prefix _).eq_of_length all]
  · rfl

theorem physicalLines_append_of_line {t : Text} (line : IsLine t) (s : Text) :
    physicalLines (t ++ s) = (physicalLines s).modifyHead (t ++ ·) := by
  induction t with
  | nil => exact (congrFun List.modifyHead_id (physicalLines s)).symm
  | cons c t ih =>
    have plain := line c List.mem_cons_self
    have feed : c ≠ '\r' := by
      rintro rfl
      contradiction
    rw [List.cons_append, physicalLines, plain, ih fun d hd => line d (List.mem_cons_of_mem c hd)]
    · exact List.modifyHead_modifyHead ..
    · intro _ isReturn
      contradiction

theorem physicalLines_append_of_lineEnd {ending s : Text} (h : LineEnd ending s) :
    physicalLines (ending ++ s) = [] :: physicalLines s := by
  cases h with
  | feed => rfl
  | pair => rfl
  | ret alone =>
    rw [List.singleton_append, physicalLines]
    · rfl
    · rintro t - rfl
      exact alone rfl

/-- The lines of a text and of what comes after it, if no pair of line ends is parted: the last line
of the one goes on with the first of the other. -/
theorem Lined.physicalLines_append {s rest : Text} {ts : List Text} (h : Lined s ts)
    (unparted : s.getLast? = some '\r' → rest.head? ≠ some '\n') :
    physicalLines (s ++ rest) =
      ts.dropLast ++ (physicalLines rest).modifyHead (s.lastLine ++ ·) := by
  induction h with
  | @last t line =>
    have whole := lastLine_append_of_line [] line
    rw [List.nil_append, show lastLine [] = [] from rfl, List.nil_append] at whole
    rw [physicalLines_append_of_line line, whole]
    rfl
  | @cons t ending s ts line ends later ih =>
    have apart : s.getLast? = some '\r' → rest.head? ≠ some '\n' := by
      intro last
      refine unparted ?_
      rw [List.getLast?_append, List.getLast?_append, last]
      rfl
    have ends' : LineEnd ending (s ++ rest) := by
      cases ends with
      | feed => exact .feed
      | pair => exact .pair
      | ret alone =>
        refine .ret ?_
        cases s with
        | nil => exact unparted (by simp)
        | cons c s => exact alone
    have starts : ∀ c, (t ++ ending).getLast? = some c → CommodoreBasic.isLineBreak c = true := by
      intro c last
      refine ends.isLineBreak c (List.mem_of_getLast? ?_)
      cases ends <;> simpa using last
    obtain ⟨u, us, rfl⟩ := List.exists_cons_of_ne_nil later.ne_nil
    rw [List.append_assoc, List.append_assoc, physicalLines_append_of_line line,
      physicalLines_append_of_lineEnd ends', ih apart, ← List.append_assoc t,
      lastLine_append_of_getLast? starts]
    simp

theorem head?_physicalLines {t after : Text} (line : IsLine t) (ends : EndsLine after) :
    (physicalLines (t ++ after)).head? = some t := by
  obtain ⟨ts, starts⟩ : ∃ ts, physicalLines after = [] :: ts := by
    cases after with
    | nil => exact ⟨[], rfl⟩
    | cons c s =>
      have isBreak := ends c rfl
      simp only [Bool.not_eq_false'] at isBreak
      unfold physicalLines
      split
      · next impossible => simp at impossible
      · exact ⟨_, rfl⟩
      · next d r _ same =>
        obtain ⟨rfl, rfl⟩ := List.cons.inj same
        rw [isBreak]
        exact ⟨_, rfl⟩
  rw [physicalLines_append_of_line line, starts]
  simp

theorem LineAt.getElem?_physicalLines {s t : Text} {n : Nat} (h : LineAt s n t) :
    ∃ i, n = i + 1 ∧ s.physicalLines[i]? = some t := by
  cases h with
  | @intro before t after starts unparted line ends =>
    have lined := lined_physicalLines before
    refine ⟨before.lineBreaks, rfl, ?_⟩
    have empty : before.lastLine = [] := by
      have alone := lastLine_append_of_getLast? starts []
      rwa [List.append_nil] at alone
    have length : before.physicalLines.dropLast.length = before.lineBreaks := by
      rw [List.length_dropLast, lined.length, Nat.add_sub_cancel]
    have first := head?_physicalLines line ends
    rw [lined.physicalLines_append unparted, empty, ← length,
      List.getElem?_append_right (Nat.le_refl _), Nat.sub_self, ← List.head?_eq_getElem?]
    show ((physicalLines (t ++ after)).modifyHead id).head? = _
    rw [List.modifyHead_id]
    exact first

/-- The lines of a text are at their places. -/
theorem Lined.lineAt {s : Text} {ts : List Text} (h : Lined s ts) {i : Nat} {t : Text}
    (found : ts[i]? = some t) : LineAt s (i + 1) t := by
  induction h generalizing i with
  | @last u line =>
    cases i with
    | succ i => simp at found
    | zero =>
      obtain rfl : u = t := by simpa using found
      have whole : LineAt ([] ++ (u ++ [])) (lineBreaks [] + 1) u :=
        .intro (by simp) (by simp) line (stops_nil _)
      rwa [List.nil_append, List.append_nil] at whole
  | @cons u ending s ts line ends later ih =>
    cases i with
    | zero =>
      obtain rfl : u = t := by simpa using found
      have whole : LineAt ([] ++ (u ++ (ending ++ s))) (lineBreaks [] + 1) u :=
        .intro (by simp) (by simp) line ends.endsLine
      exact whole
    | succ i =>
      have place := ih (by simpa using found)
      generalize number : i + 1 = n at place
      cases place with
      | @intro before t after starts unparted isLine stop =>
        -- the first line and its end come before what stands before the line in the rest
        have apart : u.getLast? = some '\r' → (ending ++ before).head? ≠ some '\n' := by
          intro last
          have plain := line '\r' (List.mem_of_getLast? last)
          contradiction
        have count : (u ++ (ending ++ before)).lineBreaks = before.lineBreaks + 1 := by
          rw [lineBreaks_append apart, lineBreaks_eq_zero line, ends.lineBreaks_append]
          omega
        have longer : LineAt ((u ++ (ending ++ before)) ++ (t ++ after))
            ((u ++ (ending ++ before)).lineBreaks + 1) t := by
          refine .intro ?_ ?_ isLine stop
          · intro c last
            cases before with
            | cons d before =>
              refine starts c ?_
              rw [List.getLast?_append, List.getLast?_append] at last
              simpa using last
            | nil =>
              refine ends.isLineBreak c (List.mem_of_getLast? ?_)
              cases ends <;> simpa using last
          · intro last
            cases before with
            | cons d before =>
              refine unparted ?_
              rw [List.getLast?_append, List.getLast?_append] at last
              simpa using last
            | nil =>
              cases ends with
              | feed => simp at last
              | pair => simp at last
              | ret alone => exact alone
        rw [count] at longer
        simpa only [List.append_assoc, number] using longer

/-- A text has one line more than line ends. -/
theorem exists_lineAt_iff (s : Text) (n : Nat) :
    (∃ t, LineAt s n t) ↔ 1 ≤ n ∧ n ≤ 1 + s.lineBreaks := by
  have lined := lined_physicalLines s
  constructor
  · rintro ⟨t, place⟩
    obtain ⟨i, rfl, found⟩ := place.getElem?_physicalLines
    obtain ⟨within, -⟩ := List.getElem?_eq_some_iff.mp found
    rw [lined.length] at within
    omega
  · rintro ⟨positive, within⟩
    obtain ⟨i, rfl⟩ : ∃ i, n = i + 1 := ⟨n - 1, by omega⟩
    have inside : i < s.physicalLines.length := by
      rw [lined.length]
      omega
    exact ⟨_, lined.lineAt (List.getElem?_eq_getElem inside)⟩

/-! ## Lines cut out in two goes -/

theorem dropFinalReturn_cons {c : Char} (other : c ≠ '\r') (s : Text) :
    dropFinalReturn (c :: s) = c :: dropFinalReturn s := by
  cases s with
  | nil => simp [dropFinalReturn, other]
  | cons d s =>
    simp only [dropFinalReturn, List.getLast?_cons_cons, List.dropLast_cons_cons]
    split <;> rfl

theorem dropFinalReturn_return_cons (d : Char) (s : Text) :
    dropFinalReturn ('\r' :: d :: s) = '\r' :: dropFinalReturn (d :: s) := by
  simp only [dropFinalReturn, List.getLast?_cons_cons, List.dropLast_cons_cons]
  split <;> rfl

theorem split_cons_of_ne {sep c : Char} (other : c ≠ sep) (s : Text) :
    split sep (c :: s) = (split sep s).modifyHead (c :: ·) := by
  rw [split, if_neg other]

theorem lines_append_of_line {t : Text} (line : IsLine t) (s : Text) :
    lines (t ++ s) = (lines s).modifyHead (t ++ ·) := by
  induction t with
  | nil => exact (congrFun List.modifyHead_id (lines s)).symm
  | cons c t ih =>
    have plain := line c List.mem_cons_self
    simp only [CommodoreBasic.isLineBreak, Bool.or_eq_false_iff, decide_eq_false_iff_not] at plain
    obtain ⟨p, ps, pieces⟩ := List.exists_cons_of_ne_nil (split_ne_nil '\n' (t ++ s))
    obtain ⟨q, qs, parts⟩ := List.exists_cons_of_ne_nil (split_ne_nil '\r' (dropFinalReturn p))
    have later := ih fun d hd => line d (List.mem_cons_of_mem c hd)
    have one : lines (c :: (t ++ s)) = (lines (t ++ s)).modifyHead (c :: ·) := by
      simp only [lines, split_cons_of_ne plain.1, pieces, List.modifyHead_cons, List.flatMap_cons,
        dropFinalReturn_cons plain.2, split_cons_of_ne plain.2, parts, List.cons_append]
    rw [List.cons_append, one, later]
    exact List.modifyHead_modifyHead ..

/-- A line end cuts, unless it is a carriage return that ends the text. -/
theorem lines_append_of_lineEnd {ending s : Text} (h : LineEnd ending s)
    (more : ending = ['\r'] → s ≠ []) : lines (ending ++ s) = [] :: lines s := by
  cases h with
  | feed => rfl
  | pair => rfl
  | ret alone =>
    obtain ⟨d, s, rfl⟩ := List.exists_cons_of_ne_nil (more rfl)
    have other : d ≠ '\n' := by
      rintro rfl
      exact alone rfl
    obtain ⟨p, ps, pieces⟩ := List.exists_cons_of_ne_nil (split_ne_nil '\n' s)
    have ret : '\r' ≠ '\n' := by decide
    have cut : split '\r' ('\r' :: dropFinalReturn (d :: p)) =
        [] :: split '\r' (dropFinalReturn (d :: p)) := if_pos rfl
    show lines ('\r' :: d :: s) = _
    simp only [lines, split_cons_of_ne ret, split_cons_of_ne other, pieces, List.modifyHead_cons,
      List.flatMap_cons, dropFinalReturn_return_cons, cut, List.cons_append]

/-- The two ways to cut a text into lines differ in the empty line after a carriage return that ends
the text. -/
theorem Lined.lines_eq {s : Text} {ts : List Text} (h : Lined s ts) :
    lines s = if s.getLast? = some '\r' then ts.dropLast else ts := by
  induction h with
  | @last t line =>
    have other : t.getLast? ≠ some '\r' := by
      intro last
      have plain := line '\r' (List.mem_of_getLast? last)
      contradiction
    have whole := lines_append_of_line line []
    rw [List.append_nil] at whole
    rw [whole, if_neg other]
    simp [lines, split, dropFinalReturn]
  | @cons t ending s ts line ends later ih =>
    obtain ⟨u, us, rfl⟩ := List.exists_cons_of_ne_nil later.ne_nil
    rw [lines_append_of_line line]
    by_cases final : ending = ['\r'] ∧ s = []
    · obtain ⟨rfl, rfl⟩ := final
      have length := later.length
      obtain rfl : us = [] := by simpa [lineBreaks] using length
      simp [lines, split, dropFinalReturn]
    · have more : ending = ['\r'] → s ≠ [] := fun isReturn empty => final ⟨isReturn, empty⟩
      have same : (t ++ (ending ++ s)).getLast? = some '\r' ↔ s.getLast? = some '\r' := by
        cases s with
        | cons c s => simp [List.getLast?_append]
        | nil => cases ends <;> simp_all
      rw [lines_append_of_lineEnd ends more, ih]
      simp only [same]
      split <;> simp

theorem LineAt.sourceLine {s t : Text} {n : Nat} (h : LineAt s n t)
    (inside : s.getLast? = some '\r' → n ≤ s.lineBreaks) : s.sourceLine n = some t := by
  have lined := lined_physicalLines s
  obtain ⟨i, rfl, found⟩ := h.getElem?_physicalLines
  rw [Text.sourceLine, lined.lines_eq]
  split
  · next last =>
    have within := inside last
    rw [List.getElem?_dropLast, lined.length, if_pos (by omega), found]
  · exact found

/-- Where a line ends, at least one line end is counted. -/
theorem lineBreaks_pos {s : Text} {c : Char} (member : c ∈ s)
    (isBreak : CommodoreBasic.isLineBreak c = true) : 0 < s.lineBreaks := by
  have lined := lined_physicalLines s
  have length := lined.length
  generalize physicalLines s = ts at lined length
  cases lined with
  | last line =>
    rw [line c member] at isBreak
    contradiction
  | cons _ _ later =>
    have more := List.length_pos_iff.mpr later.ne_nil
    rw [List.length_cons] at length
    omega

/-- What stands before the last line ends with a line end. -/
theorem exists_append_lastLine (s : Text) :
    ∃ before, s = before ++ lastLine s ∧ IsLine (lastLine s) ∧
      ∀ c, before.getLast? = some c → CommodoreBasic.isLineBreak c = true := by
  refine ⟨(s.reverse.dropWhile fun c => !CommodoreBasic.isLineBreak c).reverse, ?_, ?_, ?_⟩
  · rw [lastLine, ← List.reverse_append, List.takeWhile_append_dropWhile, List.reverse_reverse]
  · intro c member
    have inside := List.all_eq_true.mp List.all_takeWhile c (List.mem_reverse.mp member)
    simpa using inside
  · intro c last
    have stopped := stops_dropWhile (fun c => !CommodoreBasic.isLineBreak c) s.reverse c
    rw [List.getLast?_reverse] at last
    simpa using stopped last

/-- The line of a place: what stands there since the last line end, and what comes up to the next
one. -/
theorem lineAt_append {before rest : Text}
    (unparted : before.getLast? = some '\r' → rest.head? ≠ some '\n') :
    LineAt (before ++ rest) (before.lineBreaks + 1)
      (before.lastLine ++ rest.takeWhile fun c => !CommodoreBasic.isLineBreak c) := by
  obtain ⟨front, split, line, starts⟩ := exists_append_lastLine before
  obtain ⟨now, later, rfl, taken, plain, ends⟩ :=
    Rule.takeWhile_split (fun c => !CommodoreBasic.isLineBreak c) rest
  have here : IsLine (before.lastLine ++ now) := by
    intro c hc
    rcases List.mem_append.mp hc with hc | hc
    · exact line c hc
    · simpa using plain c hc
  have apart : front.getLast? = some '\r' →
      (before.lastLine ++ (now ++ later)).head? ≠ some '\n' := by
    intro last
    cases tail : before.lastLine with
    | nil =>
      rw [tail, List.append_nil] at split
      exact unparted (split ▸ last)
    | cons c s =>
      have other := line c (by simp [tail])
      intro feed
      obtain rfl : c = '\n' := by simpa using feed
      contradiction
  have count : before.lineBreaks = front.lineBreaks := by
    have parts : (front ++ before.lastLine).lineBreaks = _ := lineBreaks_append fun last feed =>
      apart last (by rw [List.head?_append, feed]; rfl)
    rw [← split, lineBreaks_eq_zero line] at parts
    exact parts
  rw [← List.append_assoc] at apart
  have place := LineAt.intro starts apart here ends
  rw [taken, count]
  rwa [← List.append_assoc, ← List.append_assoc, ← split, List.append_assoc] at place

/-- The line of a place is found by its number, unless it is the empty one after a carriage return
that ends the text. -/
theorem sourceLine_append {before rest : Text}
    (unparted : before.getLast? = some '\r' → rest.head? ≠ some '\n')
    (inside : rest = [] → before.getLast? ≠ some '\r') :
    (before ++ rest).sourceLine (before.lineBreaks + 1) =
      some (before.lastLine ++ rest.takeWhile fun c => !CommodoreBasic.isLineBreak c) := by
  refine (lineAt_append unparted).sourceLine ?_
  intro last
  rw [List.getLast?_append] at last
  cases final : rest.getLast? with
  | none =>
    rw [final] at last
    exact absurd last (inside (List.getLast?_eq_none_iff.mp final))
  | some c =>
    rw [final] at last
    obtain rfl : c = '\r' := by simpa using last
    have more := lineBreaks_pos (List.mem_of_getLast? final) rfl
    rw [lineBreaks_append unparted]
    omega

/-- The line that is found under a number stands at the place of that number, and the line of every
place is found, but for the empty line after a carriage return that ends the text. There is a place
for each number from 1 to the one after the number of line ends. -/
theorem sourceLine_eq_some_iff (s : Text) (n : Nat) :
    ((∃ t, LineAt s n t) ↔ 1 ≤ n ∧ n ≤ 1 + s.lineBreaks) ∧
      ∀ t, s.sourceLine n = some t ↔
        LineAt s n t ∧ (s.getLast? = some '\r' → n ≤ s.lineBreaks) := by
  refine ⟨exists_lineAt_iff s n, ?_⟩
  intro t
  constructor
  · intro h
    cases n with
    | zero => contradiction
    | succ i =>
      have lined := lined_physicalLines s
      rw [Text.sourceLine, lined.lines_eq] at h
      split at h
      · rw [List.getElem?_dropLast, lined.length] at h
        split at h
        · exact ⟨lined.lineAt h, fun _ => by omega⟩
        · contradiction
      · next other => exact ⟨lined.lineAt h, fun last => absurd last other⟩
  · rintro ⟨place, inside⟩
    exact place.sourceLine inside

/-- The lexer counts two lines here, and the second of them is empty. -/
theorem sourceLine_final_return :
    LineAt "ab\r".toList 2 [] ∧ Text.sourceLine "ab\r".toList 2 = none := by
  refine ⟨?_, rfl⟩
  have second : (physicalLines "ab\r".toList)[1]? = some [] := rfl
  exact (lined_physicalLines _).lineAt second

end Text

end CommodoreBasic
