import CommodoreBasic.Lexical.Piece
import CommodoreBasic.Text.Position

/-!
# Lexemes

A lexeme is a token at its place: where it begins and how wide it is, in the units of an encoding.
`lex` reads a whole text. The blanks between tokens are dropped, and an end of input closes the
list.

The cutting itself is done before any column is counted, so the encoding can move lexemes and
never change them: `map_token_place` gives the tokens without it.
-/

namespace CommodoreBasic

/-- A token at its place. -/
structure Lexeme where
  token : Token
  position : Position
  width : Nat
deriving DecidableEq

/-- Why a text cannot be read, and where. -/
structure LexicalError where
  position : Position
  fault : LexicalFault
deriving DecidableEq

/-- The error as it is reported. -/
def LexicalError.message (e : LexicalError) : Text :=
  e.position.text ++ ": ".toList ++ e.fault.message

/-- The place after a piece. An end of line leads to the first column of a later line, any other
token stays on its line. -/
def Piece.next (e : Encoding) (p : Position) (piece : Piece) : Position :=
  if piece.token = .endOfLine then ⟨p.line + piece.segment.lineBreaks, 1⟩
  else ⟨p.line, p.column + e.width piece.segment⟩

/-- The place after all the pieces. -/
def endOf (e : Encoding) (p : Position) (pieces : List Piece) : Position :=
  pieces.foldl (Piece.next e) p

/-- Whether a token is kept. -/
def Token.isSpace : Token → Bool
  | .whitespace _ => true
  | _ => false

/-- The lexemes of consecutive pieces, the first of them at `p`. -/
def place (e : Encoding) : Position → List Piece → List Lexeme
  | _, [] => []
  | p, piece :: pieces =>
    let rest := place e (piece.next e p) pieces
    if piece.token.isSpace then rest else ⟨piece.token, p, e.width piece.segment⟩ :: rest

/-- Placing keeps the tokens, in their order. -/
theorem map_token_place (e : Encoding) (p : Position) (pieces : List Piece) :
    (place e p pieces).map Lexeme.token =
      (pieces.map Piece.token).filter fun token => !token.isSpace := by
  induction pieces generalizing p with
  | nil => rfl
  | cons piece pieces ih =>
    simp only [place]
    split <;> simp_all

/-- The lexemes of a text, with the end of input as the last one. -/
def lex (e : Encoding) (s : Text) : Except LexicalError (List Lexeme) :=
  let stop := endOf e .start (cut s).pieces
  match (cut s).fault with
  | some fault => .error ⟨stop, fault⟩
  | none => .ok (place e .start (cut s).pieces ++ [⟨.endOfInput, stop, 0⟩])

/-- A text is lexed if there is no fault in it, to the lexemes of its pieces and an end of input. -/
theorem lex_eq_ok_iff {e : Encoding} {s : Text} {ls : List Lexeme} :
    lex e s = .ok ls ↔ (cut s).fault = none ∧
      place e .start (cut s).pieces ++ [⟨.endOfInput, endOf e .start (cut s).pieces, 0⟩] = ls := by
  simp only [lex]
  cases (cut s).fault with
  | some fault => simp
  | none => simp

end CommodoreBasic
