import CommodoreBasic.Proofs.Dump.Decoration
import CommodoreBasic.Proofs.Dump.Rows

/-!
# Colour is decoration

Styles add nothing to a dump but escape sequences (`Palette.Coded.lines`), so that deleting them
leaves the plain dump, unless that has escape characters itself. A plain dump makes up no
characters but its own (`Palette.isOwn`); all others are characters of the text
(`within_of_readLines`), for names, strings and remarks are shown as they were read. So the text
alone decides: `Program.unstyled_dump` is the main statement.
-/

namespace CommodoreBasic

/-- The characters that a dump has of its own: those of keywords and numbers, the marks after items
and in positions, and those that set parts of a row apart. -/
def Palette.isOwn (c : Char) : Bool :=
  c.isAlphanum || Keyword.isMark c || c ∈ "\n '(@:,;.".toList

namespace Text

open Palette (isOwn)

/-- All characters of `t` are characters of `s` or a dump's own. -/
def Within (s t : Text) : Prop := ∀ c ∈ t, c ∈ s ∨ isOwn c = true

variable {s t t' : Text}

theorem within_of_subset (subset : t ⊆ s) : Within s t := fun _ member => Or.inl (subset member)

theorem within_of_own (own : ∀ c ∈ t, isOwn c = true) : Within s t :=
  fun c member => Or.inr (own c member)

theorem Within.append (first : Within s t) (second : Within s t') : Within s (t ++ t') :=
  List.forall_mem_append.mpr ⟨first, second⟩

theorem Within.cons {c : Char} (own : isOwn c = true) (h : Within s t) : Within s (c :: t) :=
  List.forall_mem_cons.mpr ⟨Or.inr own, h⟩

theorem within_nil : Within s [] := within_of_subset (List.nil_subset s)

theorem within_of_all (own : t.all isOwn = true) : Within s t :=
  within_of_own (List.all_eq_true.mp own)

theorem within_flatMap {α : Type} {l : List α} {f : α → Text} (h : ∀ a ∈ l, Within s (f a)) :
    Within s (l.flatMap f) := by
  intro c member
  obtain ⟨a, inside, shown⟩ := List.mem_flatMap.mp member
  exact h a inside c shown

end Text

namespace Palette

open Text

variable {s : Text}

/-! ## Parts of rows -/

theorem isOwn_of_isAlphanum {c : Char} (h : c.isAlphanum = true) : isOwn c = true := by
  rw [isOwn, h, Bool.true_or, Bool.true_or]

theorem isOwn_of_isAlpha {c : Char} (h : c.isAlpha = true) : isOwn c = true := by
  apply isOwn_of_isAlphanum
  rw [Char.isAlphanum, h, Bool.true_or]

theorem isOwn_of_isDigit {c : Char} (h : c.isDigit = true) : isOwn c = true := by
  apply isOwn_of_isAlphanum
  rw [Char.isAlphanum, h, Bool.or_true]

theorem within_decimal (n : Nat) : Within s (decimal n) :=
  within_of_own fun c member => isOwn_of_isDigit (isDigit_of_mem_decimal c member)

theorem within_blanks (n : Nat) : Within s (List.replicate n ' ') :=
  within_of_own fun _ member => (List.eq_of_mem_replicate member).symm ▸ rfl

theorem within_spelling (k : ReservedWord) : Within s k.spelling := by
  refine within_of_own fun c member => ?_
  rcases Keyword.mem_spelling k c member with letter | mark
  · exact isOwn_of_isAlpha letter
  · rw [isOwn, mark, Bool.or_true, Bool.true_or]

theorem within_number (x : Binary64) : Within s x.text := by
  refine within_of_own fun c member => ?_
  rcases Binary64.mem_text c member with alphanumeric | rfl | rfl
  · exact isOwn_of_isAlphanum alphanumeric
  · rfl
  · rfl

theorem within_mark {m : Option Char} (isMark : IsMark m) : Within s (mark m) := by
  cases m with
  | none => exact within_nil
  | some c =>
    have marks := isMark c rfl
    rw [isTrailingMark, Bool.or_eq_true, decide_eq_true_eq, decide_eq_true_eq] at marks
    rcases marks with rfl | rfl
    · exact within_of_all rfl
    · exact within_of_all rfl

theorem within_heading (n : Nat) : Within s (heading n) :=
  .append (within_blanks n) (within_of_all rfl)

theorem within_row (n : Nat) (p : Position) {item : Text} (content : Within s item)
    {m : Option Char} (isMark : IsMark m) : Within s (plain.row n p item m) := by
  rw [row_plain]
  have entry : Within s (' ' :: (item ++ mark m)) :=
    .cons rfl (.append content (within_mark isMark))
  exact .append (.append (within_blanks n) (.cons rfl (.append (within_decimal _) entry)))
    (within_of_all rfl)

end Palette

/-! ## From derivations -/

/-- A lexeme that is read from characters of the text. -/
def Lexeme.DrawnFrom (s : Text) (l : Lexeme) : Prop :=
  ∃ segment rest, segment ⊆ s ∧ l.token.Reads segment rest

theorem subset_quote (body : Text) : body ⊆ quote body := by
  intro c member
  refine List.mem_cons_of_mem _ (List.mem_append_left _ (List.mem_flatMap.mpr ⟨c, member, ?_⟩))
  split
  · next quotes => exact quotes ▸ List.mem_cons_of_mem _ List.mem_cons_self
  · exact List.mem_singleton.mpr rfl

namespace Parse

open Text Palette

variable {s : Text}

theorem IsAtom.within {l : Lexeme} {a : Atom} (h : IsAtom l.token a) (drawn : l.DrawnFrom s) :
    Within s (plain.atom a) := by
  obtain ⟨segment, rest, subset, reads⟩ := drawn
  generalize l.token = t at h reads
  cases h with
  | keyword k =>
    cases reads with
    | @keyword k =>
      exact .append (.append (within_of_all rfl) (within_spelling k)) (within_of_all rfl)
  | @number digits value => exact .append (within_of_all rfl) (within_number value)
  | name name =>
    cases reads with
    | identifier => exact .append (within_of_all rfl) (within_of_subset subset)
  | string body =>
    cases reads with
    | string =>
      have shown := within_of_subset (List.Subset.trans (subset_quote body) subset)
      exact .append (.append (within_of_all rfl) shown) (within_of_all rfl)

theorem DerivesMark.isMark_of_drawnFrom {ls : List Lexeme} {m : Option Char}
    (h : DerivesMark ls m) (drawn : ∀ l ∈ ls, l.DrawnFrom s) : IsMark m := by
  apply isTrailingMark_of_derives h
  intro l member
  obtain ⟨segment, rest, -, reads⟩ := drawn l member
  exact ⟨segment, rest, reads⟩

theorem DerivesItems.within {ls : List Lexeme} {items : List Item} (h : DerivesItems ls items)
    (drawn : ∀ l ∈ ls, l.DrawnFrom s) (n : Nat) : Within s (plain.items n items) := by
  induction h generalizing n with
  | nil => exact within_nil
  | atom head trail later ih =>
    simp only [List.forall_mem_cons, List.forall_mem_append] at drawn
    obtain ⟨first, marks, rest⟩ := drawn
    exact (within_row n _ (head.within first) (trail.isMark_of_drawnFrom marks)).append
      (ih rest n)
  | group opens statement closes trail later inner_ih ih =>
    simp only [List.forall_mem_cons, List.forall_mem_append, List.cons_append] at drawn
    obtain ⟨-, first, inside, -, marks, rest⟩ := drawn
    have inner := inner_ih (List.forall_mem_cons.mpr ⟨first, inside⟩) (n + 4)
    refine .append (.append (.append ?_ (within_heading (n + 2))) inner) (ih rest n)
    exact within_row n _ (within_of_all rfl) (trail.isMark_of_drawnFrom marks)

theorem DerivesStatement.within {ls : List Lexeme} {statement : Statement}
    (h : DerivesStatement ls statement) (drawn : ∀ l ∈ ls, l.DrawnFrom s) (n : Nat) :
    Within s (plain.statement n statement) := by
  cases h with
  | items content => exact (within_heading n).append (content.within drawn (n + 2))

theorem DerivesStatements.within {ls : List Lexeme} {ss : List Statement}
    (h : DerivesStatements ls ss) (drawn : ∀ l ∈ ls, l.DrawnFrom s) (n : Nat) :
    ∀ statement ∈ ss, Within s (plain.statement n statement) := by
  induction h with
  | one statement => exact List.forall_mem_singleton.mpr (statement.within drawn n)
  | cons statement isColon later ih =>
    simp only [List.forall_mem_cons, List.forall_mem_append] at drawn
    obtain ⟨first, -, rest⟩ := drawn
    exact List.forall_mem_cons.mpr ⟨statement.within first n, ih rest⟩

theorem DerivesLine.within {ls : List Lexeme} {line : Line} (h : DerivesLine ls line)
    (drawn : ∀ l ∈ ls, l.DrawnFrom s) : Within s (plain.line line) := by
  have header : ∀ (label : Nat) (p : Position), Within s ("BASIC line".toList ++
      ' ' :: decimal label ++ ' ' :: ('@' :: p.text)) := by
    intro label p
    refine .append (.append (within_of_all rfl) (.cons rfl (within_decimal label))) ?_
    exact .cons rfl (.cons rfl (.append (within_decimal p.line) (.cons rfl (within_decimal _))))
  cases h with
  | @comment l m n text label remark =>
    obtain ⟨segment, rest, subset, reads⟩ := drawn m (by simp)
    rw [remark] at reads
    cases reads with
    | comment =>
      refine .append (header n l.position) (.cons rfl ?_)
      exact .append (.append (within_of_all rfl) (within_of_subset subset)) (within_of_all rfl)
  | statements label content =>
    refine .append (header _ _) (.cons rfl ?_)
    exact within_flatMap (content.within (List.forall_mem_cons.mp drawn).2 2)

end Parse

/-- The plain dump of a line has no characters but those of the text and its own. -/
theorem within_of_readLines {e : Encoding} {s : Text} {lines : List Line}
    (h : readLines e s = .ok lines) :
    ∀ line ∈ lines, Text.Within s (Palette.plain.line line) := by
  obtain ⟨clean, derived⟩ := derives_of_readLines h
  obtain ⟨whole, chain⟩ := chained_of_fault_eq_none clean
  intro line member
  obtain ⟨ms, among, content, -⟩ :=
    derived.exists_row (rows_place e .start chain) line member
  refine content.within fun l inside => ?_
  obtain ⟨left, segment, right, split, -, -, reads, -⟩ :=
    exists_segment_of_mem_place e chain (Text.apart_nil _) (among.subset inside)
  refine ⟨segment, _, ?_, reads⟩
  rw [whole, split]
  exact List.subset_append_of_subset_right _ (List.subset_append_left segment right)

/-- Of a text without escape characters, the plain dump is what is left of the one with colours
when all escape sequences are deleted from it. So it is line by line. -/
theorem Program.unstyled_dump {e : Encoding} {source s : Text} {p : Program} (plain : '\x1b' ∉ s)
    (h : Program.parse e source s = .ok p) :
    Text.unstyled (Palette.coloured.lines p.lines) = Palette.plain.lines p.lines ∧
      ∀ l ∈ p.lines, Text.unstyled (Palette.coloured.line l) = Palette.plain.line l := by
  obtain ⟨lines, read, rfl⟩ := parse_eq_ok_iff.mp h
  have within := within_of_readLines read
  have noEscape : ∀ {t : Text}, Text.Within s t → '\x1b' ∉ t := by
    intro t inside escape
    rcases inside _ escape with shown | own
    · exact plain shown
    · contradiction
  constructor
  · apply (Palette.coded_coloured.lines _).unstyled_eq
    exact noEscape (Text.within_flatMap within)
  · intro l member
    apply (Palette.coded_coloured.line l).unstyled_eq
    exact noEscape (within l member)

/-- Brackets, a code and its letter in a string and in a remark, and a mark after parentheses. -/
theorem Program.unstyled_dump_brackets :
    ∃ p, Program.parse .utf16 [] "1 print \"[1;34m\"(a$);\n2 rem [0m".toList = .ok p ∧
      (Palette.coloured.lines p.lines).head? = some '\x1b' ∧
      Text.unstyled (Palette.coloured.lines p.lines) =
        "BASIC line 1 @1:1\n  stmt\n    @3 BASIC 'PRINT'\n    @9 string '[1;34m'\n".toList ++
          "    @17 ( ;\n      stmt\n        @18 var a$\n".toList ++
          "BASIC line 2 @2:1\n  comment 'rem [0m'\n".toList ∧
      ∀ l ∈ p.lines, Text.unstyled (Palette.coloured.line l) = Palette.plain.line l := by
  have dumps : (Program.parse .utf16 [] "1 print \"[1;34m\"(a$);\n2 rem [0m".toList).toOption.map
      (fun p => ((Palette.coloured.lines p.lines).head?, Palette.plain.lines p.lines)) =
        some (some '\x1b',
          "BASIC line 1 @1:1\n  stmt\n    @3 BASIC 'PRINT'\n    @9 string '[1;34m'\n".toList ++
            "    @17 ( ;\n      stmt\n        @18 var a$\n".toList ++
            "BASIC line 2 @2:1\n  comment 'rem [0m'\n".toList) := by
    decide +kernel
  obtain ⟨p, parsed, shown⟩ := exists_parse_of_map dumps
  obtain ⟨coloured, plain⟩ := Prod.mk.inj shown
  obtain ⟨whole, lines⟩ := Program.unstyled_dump (by decide) parsed
  exact ⟨p, parsed, coloured, whole.trans plain, lines⟩

end CommodoreBasic
