import CommodoreBasic.Proofs.Lexical.Placement

/-!
# The table of keywords

A keyword is looked for in a table in which several entries begin with others. What is found at the
start of a text does not depend on the order of the table, and comparing bytes instead of characters
finds the same: a text begins with a keyword if as many bytes as the keyword has, cut where a
character ends, spell it (`Keyword.any_takeBytes?`). A keyword makes up the whole text if it is the
one at the start and no bytes are left (`Keyword.ofText_eq_some_iff`).

The main statement is `Keyword.atStart_of_table`.
-/

namespace CommodoreBasic

namespace Text

/-- The text begins with `k`, letters in either case. -/
def CaseBlindPrefix (k s : Text) : Prop := ∃ head rest, s = head ++ rest ∧ head.upper = k.upper

theorem beginsWith_iff_caseBlindPrefix (k s : Text) :
    beginsWith k s = true ↔ CaseBlindPrefix k s := by
  constructor
  · intro h
    exact ⟨s.take k.length, s.drop k.length, (List.take_append_drop ..).symm, beginsWith_take h⟩
  · rintro ⟨head, rest, rfl, same⟩
    rw [beginsWith_iff, upper_append, same]
    exact List.prefix_append ..

/-- The beginning of a text that takes up that many bytes in UTF-8, if a character ends there. -/
def takeBytes? : Nat → Text → Option Text
  | 0, _ => some []
  | _ + 1, [] => none
  | n + 1, c :: s =>
    if c.utf8Size ≤ n + 1 then (takeBytes? (n + 1 - c.utf8Size) s).map (c :: ·) else none

/-- What is taken is a beginning of the text with that width. -/
theorem takeBytes?_eq_some_iff (n : Nat) (s t : Text) :
    takeBytes? n s = some t ↔ t <+: s ∧ Encoding.utf8.width t = n := by
  induction s generalizing n t with
  | nil =>
    rw [List.prefix_nil]
    cases n with
    | zero =>
      rw [takeBytes?, Option.some.injEq]
      constructor
      · rintro rfl
        exact ⟨rfl, rfl⟩
      · exact fun h => h.1.symm
    | succ n =>
      rw [takeBytes?]
      constructor
      · exact fun h => nomatch h
      · rintro ⟨rfl, width⟩
        exact nomatch width
  | cons c s ih =>
    cases t with
    | nil =>
      cases n with
      | zero => simp [takeBytes?]
      | succ n => simp [takeBytes?]
    | cons d t =>
      rw [List.cons_prefix_cons]
      have width : Encoding.utf8.width (d :: t) = d.utf8Size + Encoding.utf8.width t := rfl
      have wide : 0 < d.utf8Size := d.utf8Size_pos
      cases n with
      | zero =>
        rw [takeBytes?]
        constructor
        · exact fun h => nomatch Option.some.inj h
        · rintro ⟨-, none⟩
          omega
      | succ n =>
        rw [takeBytes?]
        constructor
        · intro h
          split at h
          · next fits =>
            obtain ⟨u, taken, same⟩ := Option.map_eq_some_iff.mp h
            obtain ⟨rfl, rfl⟩ := List.cons.inj same
            obtain ⟨begins, rest⟩ := (ih _ _).mp taken
            exact ⟨⟨rfl, begins⟩, by omega⟩
          · contradiction
        · rintro ⟨⟨rfl, begins⟩, whole⟩
          have taken := (ih (n + 1 - d.utf8Size) t).mpr ⟨begins, by omega⟩
          rw [if_pos (by omega), taken]
          rfl

end Text

namespace Keyword

open ReservedWord (width_spelling)

/-- The longest of some keywords with which a text begins, as it is found by bytes: a keyword is
compared with as many bytes of the text as it has. Of the longest ones the last is taken. -/
def longestAmong (ks : List ReservedWord) (s : Text) : Option ReservedWord :=
  (ks.filter fun k =>
    (s.takeBytes? (Encoding.utf8.width k.spelling)).any k.spelling.sameLetters).reverse.maxOn?
      fun k => Encoding.utf8.width k.spelling

/-- As many bytes as a keyword has spell it if as many characters do. -/
theorem any_takeBytes? (k : ReservedWord) (s : Text) :
    (s.takeBytes? (Encoding.utf8.width k.spelling)).any k.spelling.sameLetters =
      Text.beginsWith k.spelling s := by
  rw [Bool.eq_iff_iff, Text.beginsWith_iff_caseBlindPrefix, Option.any_eq_true]
  constructor
  · rintro ⟨head, taken, same⟩
    obtain ⟨⟨rest, rfl⟩, -⟩ := (Text.takeBytes?_eq_some_iff ..).mp taken
    exact ⟨head, rest, rfl, (beq_iff_eq.mp same).symm⟩
  · rintro ⟨head, rest, rfl, same⟩
    refine ⟨head, (Text.takeBytes?_eq_some_iff ..).mpr ⟨List.prefix_append .., ?_⟩,
      beq_iff_eq.mpr same.symm⟩
    rw [k.width_spelling]
    exact width_of_keyword .utf8 (same.trans k.spelling_plain.2)

/-- The search by bytes finds the same in all orders of the table. -/
theorem longestAmong_eq_atStart {ks : List ReservedWord} (every : ∀ k : ReservedWord, k ∈ ks)
    (s : Text) : longestAmong ks s = atStart s := by
  have search : longestAmong ks s =
      (ks.reverse.filter fun k => Text.beginsWith k.spelling s).maxOn?
        fun k => k.spelling.length := by
    simp only [longestAmong, any_takeBytes?, List.filter_reverse]
    simp only [width_spelling]
  have backwards : ∀ k : ReservedWord, k ∈ ks.reverse := fun k => List.mem_reverse.mpr (every k)
  apply Option.ext
  intro k
  rw [search, maxOn?_eq_some_iff backwards, atStart_eq_some_iff]

theorem ofText_eq_some_iff_upper (s : Text) (k : ReservedWord) :
    ofText s = some k ↔ s.upper = k.spelling := by
  have same : ∀ k : ReservedWord, Text.sameLetters k.spelling s = true ↔ s.upper = k.spelling := by
    intro k
    rw [Text.sameLetters, beq_iff_eq, k.spelling_plain.2, eq_comm]
  have spelled : ∀ k : ReservedWord, ofText s = some k → s.upper = k.spelling := fun k found =>
    (same k).mp (List.find?_some (p := fun k : ReservedWord => Text.sameLetters k.spelling s) found)
  refine ⟨spelled k, ?_⟩
  intro h
  cases found : ofText s with
  | none => exact absurd ((same k).mpr h) (List.find?_eq_none.mp found k (mem_all k))
  | some k' => rw [eq_of_spelling ((spelled k' found).symm.trans h)]

/-- A keyword makes up the whole text if it is the one at the start and as wide as the text. -/
theorem ofText_eq_some_iff (s : Text) (k : ReservedWord) :
    ofText s = some k ↔
      atStart s = some k ∧ Encoding.utf8.width k.spelling = Encoding.utf8.width s := by
  rw [ofText_eq_some_iff_upper, atStart_eq_some_iff, width_spelling]
  constructor
  · intro whole
    have length : s.length = k.spelling.length := by rw [← whole, Text.length_upper]
    refine ⟨⟨?_, ?_⟩, (width_of_keyword .utf8 whole).symm⟩
    · have same : k.spelling.upper = s.upper := k.spelling_plain.2.trans whole.symm
      exact (Text.beginsWith_iff _ _).mpr (same ▸ List.prefix_rfl)
    · intro k' begins
      have shorter := ((Text.beginsWith_iff _ _).mp begins).length_le
      rwa [Text.length_upper, Text.length_upper, length] at shorter
  · rintro ⟨⟨begins, -⟩, width⟩
    obtain ⟨head, rest, rfl, same⟩ := (Text.beginsWith_iff_caseBlindPrefix _ _).mp begins
    rw [k.spelling_plain.2] at same
    rw [Encoding.width_append, width_of_keyword .utf8 same] at width
    -- after the keyword no bytes are left
    cases rest with
    | nil => rwa [List.append_nil]
    | cons c rest =>
      have wide := Encoding.utf8.width_pos (List.cons_ne_nil c rest)
      omega

/-- The keyword at the start of a text is the longest entry of the table with which the text begins,
letters in either case. The search by bytes finds it in every order of the table. If a keyword makes
up the whole text, it is the one at the start, and no narrower than the text. -/
theorem atStart_of_table (s : Text) :
    (∀ k : Text, (atStart s).map (·.spelling) = some k ↔
      k ∈ table ∧ Text.CaseBlindPrefix k s ∧
        ∀ k' ∈ table, Text.CaseBlindPrefix k' s →
          Encoding.utf8.width k' ≤ Encoding.utf8.width k) ∧
      (∀ ks : List ReservedWord, ks.Perm all → longestAmong ks s = atStart s) ∧
      ∀ k : ReservedWord, ofText s = some k ↔
        atStart s = some k ∧ Encoding.utf8.width k.spelling = Encoding.utf8.width s := by
  refine ⟨?_, ?_, ofText_eq_some_iff s⟩
  · intro k
    simp only [Option.map_eq_some_iff, atStart_eq_some_iff, Text.beginsWith_iff_caseBlindPrefix]
    constructor
    · rintro ⟨k, ⟨begins, longest⟩, rfl⟩
      refine ⟨k.mem_table, begins, ?_⟩
      intro k' entry begins'
      have bound := longest ⟨⟨k'⟩, entry⟩ begins'
      rwa [← width_spelling, ← width_spelling] at bound
    · rintro ⟨entry, begins, longest⟩
      refine ⟨⟨⟨k⟩, entry⟩, ⟨begins, ?_⟩, rfl⟩
      intro k' begins'
      have bound := longest k'.spelling k'.mem_table begins'
      rwa [← width_spelling, ← width_spelling]
  · intro ks order
    exact longestAmong_eq_atStart (fun k => order.mem_iff.mpr (mem_all k)) s

/-- The table backwards, in which `INPUT` stands before `INPUT#`, and a text with a character of two
bytes that a cut after seven bytes, for keywords such as `RESTORE`, would part. -/
theorem atStart_of_table_reversed :
    all.reverse.Perm all ∧
      longestAmong all.reverse "inPut#ü".toList = atStart "inPut#ü".toList ∧
      (atStart "inPut#ü".toList).map (·.spelling) = some "INPUT#".toList := by
  have order := List.reverse_perm all
  refine ⟨order, (atStart_of_table _).2.1 _ order, ?_⟩
  decide +kernel

end Keyword

end CommodoreBasic
