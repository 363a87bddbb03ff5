import CommodoreBasic.Proofs.Grammar.Parentheses
import CommodoreBasic.Proofs.Program.Lines

/-!
# The keyword at a character

An editor's question is answered from the tree: the line is looked up, and the items of its
statements are gone through. The same answer can be given from the lexemes alone, without a tree.
It is the first keyword on the line in whose reach the character is and before which, on that line,
as many parentheses have been closed as have been opened.

`keywordAmong?` goes through lexemes like that. Each nonterminal of the grammar has a lemma that
compares it with the tree, and `keywordAt_eq_of_parse` is the one for whole texts.
-/

namespace CommodoreBasic

/-- The lexemes on a physical line. -/
def onLine (line : Nat) (ls : List Lexeme) : List Lexeme :=
  ls.filter fun l => l.position.line = line

/-- On the line, as many parentheses are closed as are opened. -/
def Balanced (line : Nat) (ls : List Lexeme) : Prop :=
  (onLine line ls).countP Lexeme.opens = (onLine line ls).countP Lexeme.closes

instance (line : Nat) (ls : List Lexeme) : Decidable (Balanced line ls) :=
  inferInstanceAs (Decidable (_ = _))

/-- The keyword that a lexeme after `before` is, if it stands outside of parentheses on that line
and reaches the character. Both count from 0. -/
def Lexeme.keywordAt? (line character : Nat) (before : List Lexeme) (l : Lexeme) :
    Option Keyword :=
  match l.token with
  | .keyword k =>
    if l.position.line = line + 1 ∧ Balanced (line + 1) before ∧ l.position.column ≤ character ∧
        character ≤ l.position.column + l.width then some k
    else none
  | _ => none

/-- The first keyword that `Lexeme.keywordAt?` gives for a lexeme of `ls`, if `before` comes before
them. -/
def keywordAmong? (line character : Nat) (before ls : List Lexeme) : Option Keyword :=
  (ls.zipIdx before.length).findSome? fun (l, i) =>
    l.keywordAt? line character ((before ++ ls).take i)

section

variable {line character : Nat}

/-! ## Lexemes that are not found -/

theorem Lexeme.keywordAt?_of_token {l : Lexeme} (other : ∀ k, l.token ≠ .keyword k)
    (before : List Lexeme) : l.keywordAt? line character before = none := by
  unfold keywordAt?
  split
  · next k token => exact absurd token (other k)
  · rfl

theorem Lexeme.keywordAt?_of_line {l : Lexeme} (other : l.position.line ≠ line + 1)
    (before : List Lexeme) : l.keywordAt? line character before = none := by
  unfold keywordAt?
  split
  · exact if_neg fun found => other found.1
  · rfl

theorem Lexeme.keywordAt?_of_not_balanced {before : List Lexeme}
    (inside : ¬ Balanced (line + 1) before) (l : Lexeme) :
    l.keywordAt? line character before = none := by
  unfold keywordAt?
  split
  · exact if_neg fun found => inside found.2.1
  · rfl

/-! ## Going through lexemes -/

@[simp] theorem keywordAmong?_nil (before : List Lexeme) :
    keywordAmong? line character before [] = none := rfl

theorem keywordAmong?_cons (before : List Lexeme) (l : Lexeme) (ls : List Lexeme) :
    keywordAmong? line character before (l :: ls) =
      (l.keywordAt? line character before).or
        (keywordAmong? line character (before ++ [l]) ls) := by
  have later : keywordAmong? line character (before ++ [l]) ls =
      (ls.zipIdx (before.length + 1)).findSome? fun (m, i) =>
        m.keywordAt? line character ((before ++ l :: ls).take i) := by
    rw [keywordAmong?, List.length_append, List.length_singleton, List.append_assoc,
      List.singleton_append]
  rw [later, keywordAmong?, List.zipIdx_cons, List.findSome?_cons]
  simp only [List.take_left]
  cases l.keywordAt? line character before <;> rfl

theorem keywordAmong?_append (before ls ms : List Lexeme) :
    keywordAmong? line character before (ls ++ ms) =
      (keywordAmong? line character before ls).or
        (keywordAmong? line character (before ++ ls) ms) := by
  induction ls generalizing before with
  | nil => simp
  | cons l ls ih =>
    rw [List.cons_append, keywordAmong?_cons, ih, keywordAmong?_cons, Option.or_assoc,
      List.append_assoc, List.singleton_append]

theorem keywordAmong?_eq_none {before ls : List Lexeme}
    (none : ∀ left l right, ls = left ++ l :: right →
      l.keywordAt? line character (before ++ left) = none) :
    keywordAmong? line character before ls = Option.none := by
  induction ls generalizing before with
  | nil => rfl
  | cons l ls ih =>
    have first := none [] l ls rfl
    rw [List.append_nil] at first
    have later : keywordAmong? line character (before ++ [l]) ls = Option.none := by
      refine ih fun left m right split => ?_
      have found := none (l :: left) m right (by rw [split, List.cons_append])
      rwa [List.append_assoc, List.singleton_append]
    rw [keywordAmong?_cons, first, later]
    rfl

theorem keywordAmong?_of_token {ls : List Lexeme}
    (other : ∀ l ∈ ls, ∀ k, l.token ≠ .keyword k) (before : List Lexeme) :
    keywordAmong? line character before ls = none := by
  refine keywordAmong?_eq_none fun left l right split => ?_
  exact Lexeme.keywordAt?_of_token (other l (by simp [split])) _

theorem keywordAmong?_concat {l : Lexeme} (other : ∀ k, l.token ≠ .keyword k)
    (before ls : List Lexeme) :
    keywordAmong? line character before (ls ++ [l]) = keywordAmong? line character before ls := by
  have nothing : keywordAmong? line character (before ++ ls) [l] = none :=
    keywordAmong?_of_token (by simpa using other) _
  rw [keywordAmong?_append, nothing, Option.or_none]

theorem keywordAmong?_of_line {ls : List Lexeme} (other : ∀ l ∈ ls, l.position.line ≠ line + 1)
    (before : List Lexeme) : keywordAmong? line character before ls = none := by
  refine keywordAmong?_eq_none fun left l right split => ?_
  exact Lexeme.keywordAt?_of_line (other l (by simp [split])) _

/-! ## Parentheses on the line -/

/-- The lexeme stands on the line, and if it is a keyword it is as wide as it has bytes, at least
one. -/
structure Lexeme.Fits (line : Nat) (l : Lexeme) : Prop where
  line : l.position.line = line
  width : ∀ k, l.token = .keyword k → l.width = k.size
  wide : ∀ k, l.token = .keyword k → 0 < k.size

theorem onLine_append (line : Nat) (ls ms : List Lexeme) :
    onLine line (ls ++ ms) = onLine line ls ++ onLine line ms := List.filter_append ..

theorem onLine_eq_self {ls : List Lexeme} (fits : ∀ l ∈ ls, l.Fits line) : onLine line ls = ls := by
  refine List.filter_eq_self.mpr fun l member => ?_
  simpa using (fits l member).line

theorem onLine_eq_nil {ls : List Lexeme} (elsewhere : ∀ l ∈ ls, l.position.line ≠ line) :
    onLine line ls = [] := by
  refine List.filter_eq_nil_iff.mpr fun l member => ?_
  simpa using elsewhere l member

/-- Parentheses that match leave the line as balanced as it is. -/
theorem Balanced.append {before ls : List Lexeme} (balanced : Balanced line before)
    (content : Parse.Enclosed ls) (fits : ∀ l ∈ ls, l.Fits line) :
    Balanced line (before ++ ls) := by
  unfold Balanced at balanced ⊢
  rw [onLine_append, onLine_eq_self fits, List.countP_append, List.countP_append, balanced,
    content.even]

/-- After an opening parenthesis and a part of what it encloses, the line is not balanced. -/
theorem Balanced.not_inside {before left right : List Lexeme} {opening : Lexeme}
    (balanced : Balanced line before) (opens : opening.token = .punctuation '(')
    (content : Parse.Enclosed (left ++ right)) (fits : ∀ l ∈ opening :: left, l.Fits line) :
    ¬ Balanced line (before ++ opening :: left) := by
  have isOpening : opening.opens = true ∧ opening.closes = false := by
    simp [Lexeme.opens, Lexeme.closes, opens]
  have within := content.opened left.length
  rw [List.take_left] at within
  unfold Balanced at balanced ⊢
  rw [onLine_append, onLine_eq_self fits, List.countP_append, List.countP_append,
    List.countP_cons_of_pos isOpening.1, List.countP_cons_of_neg (by simp [isOpening.2])]
  omega

/-! ## Items -/

/-- On a balanced line an atom is found like the item that it is. -/
theorem Parse.IsAtom.keywordAt?_eq {l : Lexeme} {a : Atom} (h : IsAtom l.token a)
    (mark : Option Char) {before : List Lexeme} (fits : l.Fits (line + 1))
    (balanced : Balanced (line + 1) before) :
    l.keywordAt? line character before =
      Program.keywordOver? character (.atom l.position a mark) := by
  generalize token : l.token = t at h
  cases h with
  | keyword k =>
    unfold Lexeme.keywordAt? Program.keywordOver?
    rw [token, Item.keyword?, Option.filter_some, Item.position, fits.width k token]
    simp only [fits.line, balanced, true_and, Bool.and_eq_true, decide_eq_true_eq]
  | _ =>
    rw [Lexeme.keywordAt?_of_token (by simp [token])]
    rfl

theorem Parse.DerivesMark.keywordAmong?_eq {marks : List Lexeme} {mark : Option Char}
    (h : DerivesMark marks mark) (before : List Lexeme) :
    keywordAmong? line character before marks = Option.none := by
  cases h with
  | none => rfl
  | some token => exact keywordAmong?_of_token (by simp [token]) before

/-- Nothing is found in parentheses. -/
theorem keywordAmong?_group {opening closing : Lexeme} {inside before : List Lexeme}
    (opens : opening.token = .punctuation '(') (content : Parse.Enclosed inside)
    (closes : closing.token = .punctuation ')')
    (fits : ∀ l ∈ opening :: (inside ++ [closing]), l.Fits (line + 1))
    (balanced : Balanced (line + 1) before) :
    keywordAmong? line character before (opening :: (inside ++ [closing])) = none := by
  have nothing : keywordAmong? line character (before ++ [opening]) inside = none := by
    refine keywordAmong?_eq_none fun left l right split => ?_
    rw [split] at content fits
    have first : ∀ m ∈ opening :: left, m.Fits (line + 1) := by
      intro m member
      refine fits m ?_
      rw [List.append_assoc, ← List.cons_append]
      exact List.mem_append_left _ member
    rw [List.append_assoc, List.singleton_append]
    exact Lexeme.keywordAt?_of_not_balanced (balanced.not_inside opens content first) l
  rw [keywordAmong?_cons, Lexeme.keywordAt?_of_token (by simp [opens]), keywordAmong?_append,
    nothing, keywordAmong?_of_token (by simp [closes])]
  rfl

/-- Among the lexemes of items, what is found is what is found among the items. -/
theorem Parse.DerivesItems.keywordAmong?_eq {ls before : List Lexeme} {items : List Item}
    (h : DerivesItems ls items) (fits : ∀ l ∈ ls, l.Fits (line + 1))
    (balanced : Balanced (line + 1) before) :
    keywordAmong? line character before ls =
      items.findSome? (Program.keywordOver? character) := by
  induction h generalizing before with
  | nil => rfl
  | @atom l a marks ls mark items head trail later ih =>
    rw [← List.cons_append, List.forall_mem_append] at fits
    obtain ⟨marked, rest⟩ := fits
    have found : l.keywordAt? line character before =
        Program.keywordOver? character (.atom l.position a mark) :=
      head.keywordAt?_eq mark (marked l List.mem_cons_self) balanced
    have after : Balanced (line + 1) (before ++ l :: marks) :=
      balanced.append (head.enclosed.cons trail.enclosed) marked
    rw [← List.cons_append, keywordAmong?_append, ih rest after, keywordAmong?_cons, found,
      trail.keywordAmong?_eq, Option.or_none, List.findSome?_cons]
    cases Program.keywordOver? character (.atom l.position a mark) <;> rfl
  | @group opening first closing inside marks ls inner mark items opens statement closes trail
      later _ ih =>
    have split : opening :: (first :: inside ++ closing :: (marks ++ ls)) =
        opening :: (first :: inside ++ [closing]) ++ marks ++ ls := by simp
    rw [split, List.forall_mem_append] at fits
    obtain ⟨marked, rest⟩ := fits
    have nothing : keywordAmong? line character before
        (opening :: (first :: inside ++ [closing])) = none :=
      keywordAmong?_group opens statement.enclosed closes (List.forall_mem_append.mp marked).1
        balanced
    have group := statement.enclosed.group opens closes
    have after := balanced.append (group.append trail.enclosed) marked
    rw [split, keywordAmong?_append, ih rest after, keywordAmong?_append, nothing,
      trail.keywordAmong?_eq, List.findSome?_cons]
    rfl

/-! ## Lines -/

theorem Parse.DerivesStatement.keywordAmong?_eq {ls before : List Lexeme} {s : Statement}
    (h : DerivesStatement ls s) (fits : ∀ l ∈ ls, l.Fits (line + 1))
    (balanced : Balanced (line + 1) before) :
    keywordAmong? line character before ls =
      s.items.findSome? (Program.keywordOver? character) := by
  cases h with
  | items content => exact content.keywordAmong?_eq fits balanced

theorem Parse.DerivesStatements.keywordAmong?_eq {ls before : List Lexeme} {ss : List Statement}
    (h : DerivesStatements ls ss) (fits : ∀ l ∈ ls, l.Fits (line + 1))
    (balanced : Balanced (line + 1) before) :
    keywordAmong? line character before ls =
      (ss.flatMap Statement.items).findSome? (Program.keywordOver? character) := by
  induction h generalizing before with
  | one statement =>
    rw [List.flatMap_singleton]
    exact statement.keywordAmong?_eq fits balanced
  | @cons ls ms colon s ss statement isColon later ih =>
    rw [List.forall_mem_append, List.forall_mem_cons] at fits
    obtain ⟨first, onColon, rest⟩ := fits
    have after : Balanced (line + 1) (before ++ ls ++ [colon]) :=
      (balanced.append statement.enclosed first).append (enclosed_colon isColon)
        (List.forall_mem_singleton.mpr onColon)
    rw [keywordAmong?_append, statement.keywordAmong?_eq first balanced, keywordAmong?_cons,
      Lexeme.keywordAt?_of_token (by simp [isColon]), Option.none_or, ih rest after,
      List.flatMap_cons, List.findSome?_append]

theorem Parse.IsLabel.ne_keyword {token : Token} {n : Nat} (h : IsLabel token n) (k : Keyword) :
    token ≠ .keyword k := by
  cases h
  simp

/-- The keyword of the line that reaches the character. -/
def Line.keywordOver? (character : Nat) (l : Line) : Option Keyword :=
  (l.statements.flatMap Statement.items).findSome? (Program.keywordOver? character)

/-- Among the lexemes of a line, what is found is what is found in it. -/
theorem Parse.DerivesLine.keywordAmong?_eq {ls before : List Lexeme} {l : Line}
    (h : DerivesLine ls l) (fits : ∀ m ∈ ls, m.Fits (line + 1))
    (balanced : Balanced (line + 1) before) :
    keywordAmong? line character before ls = l.keywordOver? character := by
  cases h with
  | comment label remark =>
    refine keywordAmong?_of_token ?_ before
    intro m member
    rcases List.mem_cons.mp member with rfl | member
    · exact label.ne_keyword
    · obtain rfl := List.mem_singleton.mp member
      simp [remark]
  | @statements m n ls ss label statements =>
    obtain ⟨onLabel, rest⟩ := List.forall_mem_cons.mp fits
    have after : Balanced (line + 1) (before ++ [m]) :=
      balanced.append label.enclosed (List.forall_mem_singleton.mpr onLabel)
    rw [keywordAmong?_cons, Lexeme.keywordAt?_of_token label.ne_keyword, Option.none_or]
    exact statements.keywordAmong?_eq rest after

/-! ## Programs -/

/-- A line is gone through if it is the one that is asked for, and otherwise has nothing to
give. -/
theorem Parse.DerivesLine.keywordAmong?_of_row {ls before : List Lexeme} {l : Line} {k : Nat}
    (h : DerivesLine ls l) (fits : ∀ m ∈ ls, m.Fits k)
    (earlier : ∀ m ∈ before, m.position.line < k) :
    keywordAmong? line character before ls =
      ([l].find? fun l => l.position.line = line + 1).bind (Line.keywordOver? character) := by
  obtain ⟨m, member, same⟩ := h.exists_position
  have begins : l.position.line = k := same ▸ (fits m member).line
  by_cases asked : k = line + 1
  · have balanced : Balanced (line + 1) before := by
      have none : onLine (line + 1) before = [] :=
        onLine_eq_nil fun m member => Nat.ne_of_lt (asked ▸ earlier m member)
      simp [Balanced, none]
    rw [h.keywordAmong?_eq (asked ▸ fits) balanced,
      List.find?_cons_of_pos (by simp [begins, asked])]
    rfl
  · have elsewhere : ∀ m ∈ ls, m.position.line ≠ line + 1 := by
      intro m member
      rw [(fits m member).line]
      exact asked
    rw [keywordAmong?_of_line elsewhere, List.find?_cons_of_neg (by simp [begins, asked])]
    rfl

/-- Among the lexemes of a program, what is found is what is found in the last line that begins on
the physical line. -/
theorem Parse.DerivesProgram.keywordAmong?_eq {ls before : List Lexeme} {lines : List Line}
    {k : Nat} (h : DerivesProgram ls lines) (rows : Rows k ls)
    (earlier : ∀ m ∈ before, m.position.line < k)
    (spelled : ∀ m ∈ ls, m.Fits m.position.line) :
    keywordAmong? line character before ls =
      (lines.reverse.find? fun l => l.position.line = line + 1).bind
        (Line.keywordOver? character) := by
  -- the lexemes before the ones that are left stand on earlier lines
  induction h generalizing before k with
  | nil => rfl
  | @endOfLine eol ls lines ends later ih =>
    obtain ⟨here, next, grows, following⟩ := rows.of_endOfLine ends
    have passed : ∀ m ∈ before ++ [eol], m.position.line < next := by grind
    rw [keywordAmong?_cons, Lexeme.keywordAt?_of_token (by simp [ends]), Option.none_or]
    exact ih following passed (List.forall_mem_cons.mp spelled).2
  | @line ls ms eol l lines content ends later ih =>
    obtain ⟨row, tail⟩ := rows.append content.enclosed.inner
    obtain ⟨here, next, grows, following⟩ := tail.of_endOfLine ends
    rw [List.forall_mem_append, List.forall_mem_cons] at spelled
    obtain ⟨first, -, rest⟩ := spelled
    have fits : ∀ m ∈ ls, m.Fits k := fun m member => row m member ▸ first m member
    have passed : ∀ m ∈ before ++ ls ++ [eol], m.position.line < next := by grind
    rw [keywordAmong?_append, content.keywordAmong?_of_row fits earlier, keywordAmong?_cons,
      Lexeme.keywordAt?_of_token (by simp [ends]), Option.none_or, ih following passed rest,
      List.reverse_cons, List.find?_append]
    by_cases asked : l.position.line = line + 1
    · have none : (lines.reverse.find? fun l => l.position.line = line + 1) = none := by
        rw [List.find?_eq_none]
        intro l' member
        have le := later.le_of_rows following l' (List.mem_reverse.mp member)
        obtain ⟨m, hm, same⟩ := content.exists_position
        have eq : l.position.line = k := same ▸ row m hm
        simp only [decide_eq_true_eq]
        omega
      rw [none, Option.none_or, Option.bind_none, Option.or_none]
    · rw [List.find?_cons_of_neg (by simpa using asked), List.find?_nil, Option.or_none,
        Option.bind_none, Option.none_or]
  | @last ls l content =>
    rw [← List.append_nil ls] at rows
    obtain ⟨row, -⟩ := rows.append content.enclosed.inner
    exact content.keywordAmong?_of_row (fun m member => row m member ▸ spelled m member) earlier

end

/-! ## Texts -/

/-- A keyword of a text is as wide as it has bytes. -/
theorem fits_of_mem_place (e : Encoding) {pieces : List Piece} (chain : Chained [] pieces)
    {l : Lexeme} (h : l ∈ place e .start pieces) : l.Fits l.position.line := by
  obtain ⟨left, segment, right, -, -, width, reads, -⟩ :=
    exists_segment_of_mem_place e chain (Text.apart_nil _) h
  refine ⟨rfl, ?_, ?_⟩
  · intro k token
    rw [token] at reads
    cases reads with
    | @keyword k _ _ same _ =>
      rw [width, width_of_keyword e same, Keyword.size, k.width_spelling]
  · intro k token
    rw [token] at reads
    cases reads with
    | @keyword k _ _ same _ => exact Encoding.utf8.width_pos k.spelling_plain.1

namespace Program

/-- In the program of a text, the keyword at a character is the one that its lexemes give for it.
The last line number that fits a word leads to no line, and a text of fewer characters than words
has no lexeme there. -/
theorem keywordAt_eq_of_parse {e : Encoding} {source s : Text} {p : Program}
    (h : parse e source s = .ok p) :
    ∃ ls, lex e s = .ok ls ∧
      (∀ line character, line + 1 < wordCount → p.keywordAt? line character =
        ls.zipIdx.findSome? fun (l, i) => l.keywordAt? line character (ls.take i)) ∧
      (∀ line character, wordCount ≤ line + 1 → p.keywordAt? line character = none) ∧
      (s.length + 1 < wordCount → ∀ line character, p.keywordAt? line character =
        ls.zipIdx.findSome? fun (l, i) => l.keywordAt? line character (ls.take i)) := by
  obtain ⟨lines, read, rfl⟩ := parse_eq_ok_iff.mp h
  obtain ⟨clean, derived⟩ := derives_of_readLines read
  obtain ⟨whole, chain⟩ := chained_of_fault_eq_none clean
  have lexed := lex_eq_ok_iff.mpr ⟨clean, Eq.refl (place e .start (cut s).pieces ++ [_])⟩
  have found : ∀ line character, line + 1 < wordCount →
      (ofLines source lines).keywordAt? line character =
        keywordAmong? line character [] (place e .start (cut s).pieces) := by
    intro line character word
    rw [keywordAt?, textLine?_ofLines source lines word,
      derived.keywordAmong?_eq (rows_place e .start chain) (by simp)
        fun l member => fits_of_mem_place e chain member]
    rfl
  have beyond : ∀ line character, wordCount ≤ line + 1 →
      (ofLines source lines).keywordAt? line character = none := by
    intro line character large
    rw [keywordAt?, textLine?_eq_none_of_le _ large]
    rfl
  refine ⟨_, lexed, ?_, beyond, ?_⟩
  · intro line character word
    exact (found line character word).trans (keywordAmong?_concat (by simp) [] _).symm
  · intro short line character
    refine Eq.trans ?_ (keywordAmong?_concat (by simp) [] _).symm
    rcases Nat.lt_or_ge (line + 1) wordCount with word | large
    · exact found line character word
    · rw [beyond line character large]
      refine (keywordAmong?_of_line (fun l member => ?_) []).symm
      have le := line_le_of_mem_place e chain member
      rw [← whole] at le
      omega

/-- Keywords before, in and after parentheses, with a character of two units on the way. -/
theorem keywordAt_eq_of_parse_parentheses :
    ∃ p, parse .utf16 [] "1 if\"𝄞\"=(not a)then 2".toList = .ok p ∧
      ∃ ls, lex .utf16 "1 if\"𝄞\"=(not a)then 2".toList = .ok ls ∧
        (∀ line character, p.keywordAt? line character =
          ls.zipIdx.findSome? fun (l, i) => l.keywordAt? line character (ls.take i)) ∧
        ∀ character, p.keywordAt? (wordCount - 1) character = none := by
  have read : (parse .utf16 [] "1 if\"𝄞\"=(not a)then 2".toList).toOption.map
      (fun p => p.lines.length) = some 1 := by
    decide +kernel
  obtain ⟨p, parsed, -⟩ := exists_parse_of_map read
  obtain ⟨ls, lexed, -, beyond, found⟩ := keywordAt_eq_of_parse parsed
  exact ⟨p, parsed, ls, lexed, found (by decide), fun character => beyond _ character (by decide)⟩

end Program

end CommodoreBasic
