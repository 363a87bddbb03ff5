import CommodoreBasic.Grammar.Listing
import CommodoreBasic.Proofs.Grammar.Derivation
import CommodoreBasic.Proofs.Grammar.Relocation
import CommodoreBasic.Proofs.Numeric.RoundTrip

/-!
# Trees that can be listed

A tree can be listed if each node of it is one that program text can say: a finite number without a
sign, a name that no keyword begins, a string that fits between quotes, a label that is a word.
`Line.Listed` relates such a tree to the tokens of its listing.

The tokens of a listing derive the same tree again, at whatever places they stand
(`Parse.derivesProgram_of_tokens`).
-/

namespace CommodoreBasic

/-- Takes every place to the first one, so that trees compare without their places. -/
def nowhere (_ : Position) : Position := .start

/-! ## The numbers of a tree -/

/-- Too large for a numeral. -/
def Binary64.isInfinite : Binary64 → Bool
  | nan => false
  | signed _ x => x = .infinity

/-- The number that an item of one token is. -/
def Atom.numbers : Atom → List Binary64
  | number x => [x]
  | _ => []

mutual

/-- The numbers in an item. -/
def Item.numbers : Item → List Binary64
  | .atom _ a _ => a.numbers
  | .group _ _ inner _ => Item.listNumbers inner

/-- The numbers in items. -/
def Item.listNumbers : List Item → List Binary64
  | [] => []
  | i :: is => i.numbers ++ Item.listNumbers is

end

def Statement.numbers (s : Statement) : List Binary64 := Item.listNumbers s.items

/-- The numbers in a line, apart from its label. -/
def Line.numbers (line : Line) : List Binary64 := line.statements.flatMap Statement.numbers

/-! ## Trees and the tokens of their listings -/

/-- An item of one token, and this token. -/
inductive Atom.Listed : Atom → Token → Prop
  | keyword (k : ReservedWord) : Listed (.keyword k) (.keyword k)
  | number {x : Magnitude} (finite : x ≠ .infinity) :
      Listed (.number (.signed false x)) (.number x.text)
  | name {letters sigil : Text} (nonempty : letters ≠ []) (alpha : ∀ c ∈ letters, c.isAlpha = true)
      (mark : sigil = [] ∨ ∃ c, isSigil c = true ∧ sigil = [c])
      (noKeyword : ∀ k : ReservedWord, Text.beginsWith k.spelling (letters ++ sigil) = false)
      (noRemark : Text.beginsWith "REM".toList (letters ++ sigil) = false) :
      Listed (.name (letters ++ sigil)) (.identifier (letters ++ sigil))
  | string {body : Text} (quotable : Quotable body) : Listed (.string body) (.string body)

def markTokens (mark : Option Char) : List Token := mark.toList.map .trailing

/-- Items. -/
inductive Item.Listed : List Item → List Token → Prop
  | nil : Listed [] []
  | atom {p : Position} {a : Atom} {t : Token} {mark : Option Char} {items : List Item}
      {ts : List Token} (head : a.Listed t) (trail : ∀ c ∈ mark, isTrailingMark c = true)
      (later : Listed items ts) : Listed (.atom p a mark :: items) (t :: (markTokens mark ++ ts))
  | group {p start : Position} {inner items : List Item} {mark : Option Char} {ts us : List Token}
      (nonempty : inner ≠ []) (inside : Listed inner us)
      (trail : ∀ c ∈ mark, isTrailingMark c = true) (later : Listed items ts) :
      Listed (.group p start inner mark :: items)
        (.punctuation '(' :: (us ++ .punctuation ')' :: (markTokens mark ++ ts)))

/-- Statements with colons between them. -/
inductive Statement.Listed : List Statement → List Token → Prop
  | one {s : Statement} {ts : List Token} (nonempty : s.items ≠ [])
      (content : Item.Listed s.items ts) : Listed [s] ts
  | cons {s : Statement} {ss : List Statement} {ts us : List Token} (nonempty : s.items ≠ [])
      (content : Item.Listed s.items us) (later : Listed ss ts) :
      Listed (s :: ss) (us ++ .colon :: ts)

/-- Lines, each with its end. -/
inductive Line.Listed : List Line → List Token → Prop
  | nil : Listed [] []
  | comment {n : Nat} {p : Position} {text : Text} {lines : List Line} {ts : List Token}
      (word : n < wordCount) (remark : Text.beginsWith "REM".toList text = true)
      (line : ∀ c ∈ text, isLineBreak c = false) (later : Listed lines ts) :
      Listed (⟨n, p, .comment text⟩ :: lines)
        (.number (decimal n) :: .comment text :: .endOfLine :: ts)
  | statements {n : Nat} {p : Position} {ss : List Statement} {lines : List Line}
      {ts us : List Token} (word : n < wordCount) (content : Statement.Listed ss us)
      (later : Listed lines ts) :
      Listed (⟨n, p, .statements ss⟩ :: lines) (.number (decimal n) :: (us ++ .endOfLine :: ts))

namespace Parse

/-! ## A listing derives its tree -/

theorem isLabel_decimal {n : Nat} (word : n < wordCount) : IsLabel (.number (decimal n)) n := by
  have label := @IsLabel.digits (decimal n) Nat.toDigits_ne_nil isDigit_of_mem_decimal
    (by rwa [ofDigitChars_decimal])
  rwa [ofDigitChars_decimal] at label

theorem isAtom_of_listed {a : Atom} {t : Token} (h : a.Listed t) : IsAtom t a := by
  cases h with
  | keyword k => exact .keyword k
  | number finite => exact .number (Binary64.ofText_text finite)
  | name => exact .name _
  | string => exact .string _

theorem derivesMark_of_tokens {mark : Option Char} {ls : List Lexeme}
    (tokens : ls.map Lexeme.token = markTokens mark) : DerivesMark ls mark := by
  cases mark with
  | none =>
    obtain rfl := List.map_eq_nil_iff.mp tokens
    exact .none
  | some c =>
    obtain ⟨l, rest, rfl, token, last⟩ := List.map_eq_cons_iff.mp tokens
    obtain rfl := List.map_eq_nil_iff.mp last
    exact .some token

/-- Lexemes with the tokens of items derive the items, at their own places. -/
theorem derivesItems_of_tokens {items : List Item} {ts : List Token} (h : Item.Listed items ts)
    {ls : List Lexeme} (tokens : ls.map Lexeme.token = ts) :
    ∃ items', DerivesItems ls items' ∧
      items'.map (Item.relocate nowhere) = items.map (Item.relocate nowhere) := by
  induction h generalizing ls with
  | nil =>
    obtain rfl := List.map_eq_nil_iff.mp tokens
    exact ⟨[], .nil, rfl⟩
  | atom head trail _ ih =>
    obtain ⟨l, rest, rfl, token, tokens⟩ := List.map_eq_cons_iff.mp tokens
    obtain ⟨marks, more, rfl, marked, tokens⟩ := List.map_eq_append_iff.mp tokens
    obtain ⟨items', later, same⟩ := ih tokens
    refine ⟨_, .atom (token ▸ isAtom_of_listed head) (derivesMark_of_tokens marked) later, ?_⟩
    simp [same, nowhere]
  | group nonempty inside trail _ inside_ih ih =>
    obtain ⟨opening, rest, rfl, opens, tokens⟩ := List.map_eq_cons_iff.mp tokens
    obtain ⟨middle, rest, rfl, content, tokens⟩ := List.map_eq_append_iff.mp tokens
    obtain ⟨closing, rest, rfl, closes, tokens⟩ := List.map_eq_cons_iff.mp tokens
    obtain ⟨marks, more, rfl, marked, tokens⟩ := List.map_eq_append_iff.mp tokens
    obtain ⟨inner', statement, same_inner⟩ := inside_ih content
    obtain ⟨items', later, same⟩ := ih tokens
    -- there is something inside, so there is a first lexeme of it
    cases middle with
    | nil =>
      obtain rfl := statement.nil_iff.mp rfl
      exact absurd (List.map_eq_nil_iff.mp same_inner.symm) nonempty
    | cons first middle =>
      refine ⟨_, .group opens statement closes (derivesMark_of_tokens marked) later, ?_⟩
      simp [same, same_inner, nowhere]

theorem derivesStatement_of_tokens {s : Statement} {ts : List Token} (nonempty : s.items ≠ [])
    (content : Item.Listed s.items ts) {ls : List Lexeme} (tokens : ls.map Lexeme.token = ts) :
    ∃ s', DerivesStatement ls s' ∧ s'.relocate nowhere = s.relocate nowhere := by
  obtain ⟨items', derived, same⟩ := derivesItems_of_tokens content tokens
  obtain ⟨position, items⟩ := s
  cases ls with
  | nil =>
    obtain rfl := derived.nil_iff.mp rfl
    exact absurd (List.map_eq_nil_iff.mp same.symm) nonempty
  | cons l ls => exact ⟨_, .items derived, by simp [same, nowhere]⟩

theorem derivesStatements_of_tokens {ss : List Statement} {ts : List Token}
    (h : Statement.Listed ss ts) {ls : List Lexeme} (tokens : ls.map Lexeme.token = ts) :
    ∃ ss', DerivesStatements ls ss' ∧
      ss'.map (Statement.relocate nowhere) = ss.map (Statement.relocate nowhere) := by
  induction h generalizing ls with
  | one nonempty content =>
    obtain ⟨s', derived, same⟩ := derivesStatement_of_tokens nonempty content tokens
    exact ⟨[s'], .one derived, by simp [same]⟩
  | cons nonempty content _ ih =>
    obtain ⟨first, rest, rfl, firstTokens, tokens⟩ := List.map_eq_append_iff.mp tokens
    obtain ⟨colon, rest, rfl, isColon, tokens⟩ := List.map_eq_cons_iff.mp tokens
    obtain ⟨s', derived, same⟩ := derivesStatement_of_tokens nonempty content firstTokens
    obtain ⟨ss', later, sames⟩ := ih tokens
    exact ⟨s' :: ss', .cons derived isColon later, by simp [same, sames]⟩

/-- Lexemes with the tokens of a listing derive what is listed, at their own places. -/
theorem derivesProgram_of_tokens {lines : List Line} {ts : List Token}
    (h : Line.Listed lines ts) {ls : List Lexeme} (tokens : ls.map Lexeme.token = ts) :
    ∃ lines', DerivesProgram ls lines' ∧
      lines'.map (Line.relocate nowhere) = lines.map (Line.relocate nowhere) := by
  induction h generalizing ls with
  | nil =>
    obtain rfl := List.map_eq_nil_iff.mp tokens
    exact ⟨[], .nil, rfl⟩
  | comment word remark line _ ih =>
    obtain ⟨l, rest, rfl, label, tokens⟩ := List.map_eq_cons_iff.mp tokens
    obtain ⟨m, rest, rfl, comment, tokens⟩ := List.map_eq_cons_iff.mp tokens
    obtain ⟨ending, rest, rfl, ends, tokens⟩ := List.map_eq_cons_iff.mp tokens
    obtain ⟨lines', later, same⟩ := ih tokens
    have content := DerivesLine.comment (label ▸ isLabel_decimal word) comment
    refine ⟨_, .line content ends later, ?_⟩
    simp [same, nowhere]
  | statements word content _ ih =>
    obtain ⟨l, rest, rfl, label, tokens⟩ := List.map_eq_cons_iff.mp tokens
    obtain ⟨inside, rest, rfl, statements, tokens⟩ := List.map_eq_append_iff.mp tokens
    obtain ⟨ending, rest, rfl, ends, tokens⟩ := List.map_eq_cons_iff.mp tokens
    obtain ⟨ss', derived, sames⟩ := derivesStatements_of_tokens content statements
    obtain ⟨lines', later, same⟩ := ih tokens
    have content := DerivesLine.statements (label ▸ isLabel_decimal word) derived
    refine ⟨_, .line content ends later, ?_⟩
    simp [same, sames, nowhere]

end Parse

end CommodoreBasic
