import CommodoreBasic.Proofs.Lexical.Placement
import CommodoreBasic.Proofs.Lexical.Respacing

/-!
# Texts put together, with places

A text that stands alone is cut in the same way if something comes after it at which words end
(`Token.Reads.append_of_endsWord`). A remark is the exception here too: it takes what comes after
it.

`LexesAt` is `LexesTo` with places: which lexemes a text is cut into from a place on, and where it
ends, if a given rest follows. `LexesAt.append` puts two texts together, and `LexesAt.gap` passes
spaces.
-/

namespace CommodoreBasic

/-! ## A text with more after it -/

/-- What is read is read with more text after it, if words, spaces and line ends stop there and it
is no remark. -/
theorem Token.Reads.append_of_endsWord {token : Token} {segment s rest : Text}
    (h : token.Reads segment s) (other : ∀ text, token ≠ .comment text) (ends : rest.EndsWord)
    (noSpace : Text.Stops isSpacing rest) (noBreak : Text.Stops isLineBreak rest) :
    token.Reads segment (s ++ rest) := by
  have keyword : ∀ k : ReservedWord, Text.beginsWith k.spelling (segment ++ (s ++ rest)) =
      Text.beginsWith k.spelling (segment ++ s) := by
    intro k
    rw [← List.append_assoc, Keyword.beginsWith_append ends.outside]
  have digits := (Text.stops_append_iff ends.digits s).mpr
  cases h with
  | keyword same longest =>
    refine .keyword same fun k begins => ?_
    rw [keyword] at begins
    exact longest k begins
  | comment => exact absurd rfl (other segment)
  | string quotable => exact .string quotable
  | number whole fraction nonempty stop point =>
    have notPoint : rest.head? ≠ some '.' := fun first => absurd (ends '.' first) (by decide)
    exact .number whole fraction nonempty (digits stop) fun empty =>
      (Rule.fractionLength_append notPoint ends.digits s).mpr (point empty)
  | identifier nonempty alpha stop noKeyword noRemark =>
    refine .identifier nonempty alpha ?_ ?_ ?_
    · exact stop.imp_left fun ⟨empty, stop⟩ =>
        ⟨empty, (Text.stops_append_iff ends.name s).mpr stop⟩
    · intro k
      rw [keyword, noKeyword]
    · rw [← List.append_assoc, Keyword.beginsWith_remark_append ends.outside, noRemark]
  | trailing mark => exact .trailing mark
  | colon => exact .colon
  | punctuation mark plain point => exact .punctuation mark plain fun same => digits (point same)
  | whitespace nonempty spacing stop =>
    exact .whitespace nonempty spacing ((Text.stops_append_iff noSpace s).mpr stop)
  | endOfLine nonempty breaks stop =>
    exact .endOfLine nonempty breaks ((Text.stops_append_iff noBreak s).mpr stop)

/-- A chain without remarks stays one. -/
theorem Chained.append_of_endsWord {pieces : List Piece} (chain : Chained [] pieces) {rest : Text}
    (other : ∀ piece ∈ pieces, ∀ text, piece.token ≠ .comment text) (ends : rest.EndsWord)
    (noSpace : Text.Stops isSpacing rest) (noBreak : Text.Stops isLineBreak rest) :
    Chained rest pieces := by
  induction chain with
  | nil => exact .nil
  | @cons piece pieces reads _ ih =>
    rw [List.append_nil] at reads
    refine .cons ?_ (ih fun p member => other p (List.mem_cons_of_mem piece member))
    exact reads.append_of_endsWord (other piece List.mem_cons_self) ends noSpace noBreak

/-! ## Texts and their lexemes -/

/-- The text is cut into the lexemes, spaces left out, from the place `p` to the place `q`, if it is
followed by `rest`. -/
def LexesAt (e : Encoding) (p : Position) (s : Text) (ls : List Lexeme) (q : Position)
    (rest : Text) : Prop :=
  ∃ pieces, Piece.textOf pieces = s ∧ Chained rest pieces ∧ place e p pieces = ls ∧
    endOf e p pieces = q

namespace LexesAt

variable {e : Encoding} {p q r : Position} {s t rest : Text} {ls ms : List Lexeme}

theorem nil (e : Encoding) (p : Position) (rest : Text) : LexesAt e p [] [] p rest :=
  ⟨[], rfl, .nil, rfl, rfl⟩

theorem append (first : LexesAt e p s ls q (t ++ rest)) (second : LexesAt e q t ms r rest) :
    LexesAt e p (s ++ t) (ls ++ ms) r rest := by
  obtain ⟨ps, rfl, chain, rfl, rfl⟩ := first
  obtain ⟨qs, rfl, later, rfl, rfl⟩ := second
  exact ⟨ps ++ qs, Piece.textOf_append ps qs, chain.append later, place_append e p ps qs,
    endOf_append e p ps qs⟩

theorem token {token : Token} (reads : token.Reads s rest) (kept : token.isSpace = false)
    (inner : token ≠ .endOfLine) :
    LexesAt e p s [⟨token, p, e.width s⟩] (p.right (e.width s)) rest := by
  refine ⟨[⟨token, s⟩], ?_, .cons reads .nil, ?_, ?_⟩
  · simp [Piece.textOf]
  · simp [place, kept]
  · simp [endOf, Piece.next, inner, Position.right]

/-- Spaces and tabs, if there are any, are passed over if no more of them follow. -/
theorem gap (spacing : ∀ c ∈ s, isSpacing c = true) (stop : Text.Stops isSpacing rest) :
    LexesAt e p s [] (p.right (e.width s)) rest := by
  by_cases empty : s = []
  · subst empty
    exact nil e p rest
  · refine ⟨[⟨.whitespace s.length, s⟩], ?_,
      .cons (.whitespace empty spacing stop) .nil, rfl, rfl⟩
    simp [Piece.textOf]

/-- What stands alone on a line, without a remark, can stand further to the right, with more after
it. -/
theorem of_cut (p : Position) {s : Text} (line : Text.IsLine s) (clean : (cut s).fault = none)
    (other : ∀ piece ∈ (cut s).pieces, ∀ text, piece.token ≠ .comment text) (n : Nat)
    (ends : rest.EndsWord) (noSpace : Text.Stops isSpacing rest)
    (noBreak : Text.Stops isLineBreak rest) :
    LexesAt e (p.right n) s ((place e p (cut s).pieces).map (Lexeme.relocate (Position.right n)))
      ((endOf e p (cut s).pieces).right n) rest := by
  obtain ⟨whole, chain⟩ := chained_of_fault_eq_none clean
  have moves : ∀ (p : Position) w,
      Position.right n ⟨p.line, p.column + w⟩ = ⟨(p.right n).line, (p.right n).column + w⟩ := by
    intro p w
    rw [Position.right, Position.right, Nat.add_right_comm]
  obtain ⟨places, stop⟩ := place_relocate e moves (pieces_of_line line) p
  exact ⟨_, whole.symm, chain.append_of_endsWord other ends noSpace noBreak, places, stop⟩

/-- Such a text, if it is the whole one, is lexed to the lexemes and an end of input. -/
theorem lex (h : LexesAt e .start s ls q []) : lex e s = .ok (ls ++ [⟨.endOfInput, q, 0⟩]) := by
  obtain ⟨pieces, rfl, chain, rfl, rfl⟩ := h
  have cutting := cut_of_chained chain
  rw [List.append_nil, cut_nil, List.append_nil] at cutting
  rw [lex_eq_ok_iff, cutting]
  exact ⟨rfl, rfl⟩

end LexesAt

end CommodoreBasic
