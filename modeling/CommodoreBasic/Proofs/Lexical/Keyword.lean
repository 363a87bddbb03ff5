import CommodoreBasic.Lexical.Keyword

/-!
# Keywords at the start of a text

`atStart_eq_some_iff` and `atStart_eq_none_iff` say what `Keyword.atStart` finds without the search
through the table: a keyword that the text begins with and that no other such keyword exceeds.

The rest is about neighbours. A keyword consists of letters and a few marks, so no other character
lets one begin (`startsKeyword_of_beginsWith`), and none reaches past such a character
(`beginsWith_append`). Nor does the sign of a remark (`beginsWith_remark_append`).
-/

namespace CommodoreBasic

namespace Text

/-- What a text begins with, every continuation of it begins with. -/
theorem beginsWith_append_right {k s : Text} (h : beginsWith k s = true) (t : Text) :
    beginsWith k (s ++ t) = true := by
  rw [beginsWith_iff, upper_append] at *
  exact h.trans (List.prefix_append _ _)

/-- What a text does not begin with, no beginning of it begins with. -/
theorem not_beginsWith_of_append {k s rest : Text} (h : beginsWith k (s ++ rest) = false) :
    beginsWith k s = false := by
  rw [Bool.eq_false_iff] at *
  exact mt (beginsWith_append_right · rest) h

/-- A case-blind beginning does not reach past a character that it does not contain. -/
theorem beginsWith_append {k s rest : Text}
    (stop : ∀ c, rest.head? = some c → ∀ a ∈ k, a.toUpper ≠ c.toUpper) :
    beginsWith k (s ++ rest) = beginsWith k s := by
  induction k generalizing s with
  | nil => simp [beginsWith]
  | cons a k ih =>
    have later : ∀ c, rest.head? = some c → ∀ b ∈ k, b.toUpper ≠ c.toUpper :=
      fun c hc b hb => stop c hc b (List.mem_cons_of_mem a hb)
    cases s with
    | nil =>
      cases rest with
      | nil => rfl
      | cons c rest =>
        have first := stop c rfl a List.mem_cons_self
        simp [beginsWith, first]
    | cons c s =>
      show (a.toUpper == c.toUpper && beginsWith k (s ++ rest)) = _
      rw [ih later]
      rfl

theorem beginsWith_take {k s : Text} (h : beginsWith k s = true) :
    upper (s.take k.length) = upper k := by
  have begins := List.prefix_iff_eq_take.mp ((beginsWith_iff k s).mp h)
  rw [length_upper] at begins
  rw [begins, upper, upper, List.map_take]

end Text

namespace Keyword

/-- The marks that occur in keywords. -/
def isMark (c : Char) : Bool := c ∈ "#$+-*/^><=".toList

/-- The marks that are keywords on their own. -/
def isOperator (c : Char) : Bool := c ∈ "+-*/^><=".toList

/-- A letter or an operator begins every keyword. -/
def startsKeyword (c : Char) : Bool := c.isAlpha || isOperator c

/-- No keyword contains anything but letters and marks. -/
theorem mem_spelling (k : ReservedWord) : ∀ c ∈ k.spelling, c.isAlpha = true ∨ isMark c = true := by
  have plain : (table.all fun s => s.all fun c => c.isAlpha || isMark c) = true := by
    decide +kernel
  intro c hc
  have spelled := List.all_eq_true.mp (List.all_eq_true.mp plain k.spelling k.mem_table) c hc
  simpa using spelled

theorem startsKeyword_head (k : ReservedWord) :
    ∀ c, k.spelling.head? = some c → startsKeyword c = true := by
  have plain : (table.all fun s => s.head?.all startsKeyword) = true := by decide +kernel
  intro c hc
  have spelled := List.all_eq_true.mp plain k.spelling k.mem_table
  rwa [hc] at spelled

/-- Upper case takes a character that is no letter to itself. -/
theorem toUpper_eq_of_not_isAlpha {c : Char} (h : c.isAlpha = false) : c.toUpper = c := by
  unfold Char.toUpper
  rw [dif_neg]
  intro lower
  have small : c.isLower = true := by
    show (decide ('a'.val ≤ c.val) && decide (c.val ≤ 'z'.val)) = true
    rw [Bool.and_eq_true, decide_eq_true_eq, decide_eq_true_eq]
    exact lower
  have letter : c.isAlpha = true := by
    show (c.isUpper || c.isLower) = true
    rw [small, Bool.or_true]
  rw [h] at letter
  contradiction

theorem eq_of_spelling {k k' : ReservedWord} (h : k.spelling = k'.spelling) : k = k' := by
  obtain ⟨⟨spelling⟩, entry⟩ := k
  obtain ⟨⟨spelling'⟩, entry'⟩ := k'
  cases h
  rfl

/-- A text that begins with a keyword begins with a letter or an operator. -/
theorem startsKeyword_of_beginsWith {k : ReservedWord} {c : Char} {s : Text}
    (h : Text.beginsWith k.spelling (c :: s) = true) : startsKeyword c = true := by
  obtain ⟨nonempty, upper⟩ := k.spelling_plain
  have head := startsKeyword_head k
  by_cases letter : c.isAlpha = true
  · simp [startsKeyword, letter]
  · cases hk : k.spelling with
    | nil => exact absurd hk nonempty
    | cons a t =>
      rw [hk] at h head upper
      simp only [Text.beginsWith, Bool.and_eq_true, beq_iff_eq] at h
      have same : a = c := by
        rw [← toUpper_eq_of_not_isAlpha (Bool.eq_false_iff.mpr letter), ← h.1]
        exact (List.cons.inj upper).1.symm
      exact same ▸ head a rfl

/-- A character that ends every keyword and every remark sign: neither a letter nor a mark. -/
def isOutside (c : Char) : Bool := !c.isAlpha && !isMark c

/-- A word in upper case, made of letters and marks, does not reach past a character outside. -/
theorem beginsWith_append_outside {word s rest : Text}
    (inside : ∀ a ∈ word, a.toUpper = a ∧ (a.isAlpha = true ∨ isMark a = true))
    (outside : ∀ c, rest.head? = some c → isOutside c = true) :
    Text.beginsWith word (s ++ rest) = Text.beginsWith word s := by
  apply Text.beginsWith_append
  intro c hc a ha same
  obtain ⟨upper, plain⟩ := inside a ha
  have out := outside c hc
  simp only [isOutside, Bool.and_eq_true, Bool.not_eq_true'] at out
  rw [upper, toUpper_eq_of_not_isAlpha out.1] at same
  subst same
  rcases plain with h | h
  · exact absurd h (Bool.eq_false_iff.mp out.1)
  · exact absurd h (Bool.eq_false_iff.mp out.2)

/-- No keyword reaches past a character outside. -/
theorem beginsWith_append {s rest : Text}
    (outside : ∀ c, rest.head? = some c → isOutside c = true) (k : ReservedWord) :
    Text.beginsWith k.spelling (s ++ rest) = Text.beginsWith k.spelling s := by
  refine beginsWith_append_outside ?_ outside
  intro a ha
  have fixed := k.spelling_plain.2
  exact ⟨List.map_inj_left.mp (fixed.trans (List.map_id _).symm) a ha, mem_spelling k a ha⟩

/-- Nor does the sign of a remark. -/
theorem beginsWith_remark_append {s rest : Text}
    (outside : ∀ c, rest.head? = some c → isOutside c = true) :
    Text.beginsWith "REM".toList (s ++ rest) = Text.beginsWith "REM".toList s := by
  have plain : ("REM".toList.all fun a => a.toUpper == a && a.isAlpha) = true := by decide
  refine beginsWith_append_outside ?_ outside
  intro a ha
  have letter := List.all_eq_true.mp plain a ha
  simp only [Bool.and_eq_true, beq_iff_eq] at letter
  exact ⟨letter.1, Or.inl letter.2⟩

/-- A remark is no keyword, and no keyword goes on as a remark. -/
theorem not_beginsWith_of_remark {s : Text} (remark : Text.beginsWith "REM".toList s = true)
    (k : ReservedWord) : Text.beginsWith k.spelling s = false := by
  have apart : ∀ word ∈ table, ¬ word <+: "REM".toList ∧ ¬ "REM".toList <+: word := by
    decide +kernel
  obtain ⟨notBefore, notAfter⟩ := apart k.spelling k.mem_table
  cases begins : Text.beginsWith k.spelling s with
  | false => rfl
  | true =>
    rw [Text.beginsWith_iff] at begins remark
    rw [k.spelling_plain.2] at begins
    rcases List.prefix_or_prefix_of_prefix begins remark with h | h
    · exact absurd h notBefore
    · exact absurd h notAfter

theorem atStart_eq_none_iff (s : Text) :
    atStart s = none ↔ ∀ k : ReservedWord, Text.beginsWith k.spelling s = false := by
  rw [atStart, ← Option.not_isSome_iff_eq_none, List.isSome_maxOn?_iff, ne_eq, Classical.not_not,
    List.filter_eq_nil_iff]
  constructor
  · intro h k
    simpa using h k (mem_all k)
  · intro h k _
    simp [h k]

/-- Of the keywords at the start of a text the longest is found, wherever it stands among all
keywords. -/
theorem maxOn?_eq_some_iff {ks : List ReservedWord} (every : ∀ k : ReservedWord, k ∈ ks) (s : Text)
    (k : ReservedWord) :
    ((ks.filter fun k => Text.beginsWith k.spelling s).maxOn? fun k => k.spelling.length) =
        some k ↔
      Text.beginsWith k.spelling s = true ∧
        ∀ k' : ReservedWord, Text.beginsWith k'.spelling s = true →
          k'.spelling.length ≤ k.spelling.length := by
  have member : ∀ k : ReservedWord, k ∈ ks.filter (fun k => Text.beginsWith k.spelling s) ↔
      Text.beginsWith k.spelling s = true := fun k => by simp [every k]
  have longest : ∀ k, ((ks.filter fun k => Text.beginsWith k.spelling s).maxOn?
      fun k => k.spelling.length) = some k → ∀ k' : ReservedWord,
      Text.beginsWith k'.spelling s = true → k'.spelling.length ≤ k.spelling.length := by
    intro k found k' begins
    have bound := List.le_apply_get_maxOn?_of_mem (f := fun k : ReservedWord => k.spelling.length)
      ((member k').mpr begins)
    simpa only [found, Option.get_some] using bound
  constructor
  · exact fun found => ⟨(member k).mp (List.maxOn?_mem found), longest k found⟩
  · rintro ⟨begins, maximal⟩
    cases found : (ks.filter fun k => Text.beginsWith k.spelling s).maxOn?
        fun k => k.spelling.length with
    | none =>
      have nonempty := List.isSome_maxOn?_iff (f := fun k : ReservedWord => k.spelling.length).mpr
        (List.ne_nil_of_mem ((member k).mpr begins))
      rw [found] at nonempty
      contradiction
    | some k' =>
      -- two keywords of one length at the start of one text have one spelling
      have begins' := (member k').mp (List.maxOn?_mem found)
      have length : k'.spelling.length = k.spelling.length :=
        Nat.le_antisymm (maximal k' begins') (longest k' found k begins)
      have same := (Text.beginsWith_take begins').symm.trans
        (length ▸ Text.beginsWith_take begins)
      rw [k'.spelling_plain.2, k.spelling_plain.2] at same
      rw [eq_of_spelling same]

/-- The longest keyword at the start of a text is the one that is found. -/
theorem atStart_eq_some_iff (s : Text) (k : ReservedWord) :
    atStart s = some k ↔
      Text.beginsWith k.spelling s = true ∧
        ∀ k' : ReservedWord, Text.beginsWith k'.spelling s = true →
          k'.spelling.length ≤ k.spelling.length :=
  maxOn?_eq_some_iff mem_all s k

end Keyword

end CommodoreBasic
