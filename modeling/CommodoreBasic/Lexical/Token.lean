import CommodoreBasic.Lexical.Keyword
import CommodoreBasic.Numeric.Decimal

/-!
# Tokens

The words of a program line. A token keeps what the text says where the text has a choice (the
digits of a number, the case of a name) and only the meaning where it has none.

`Token.spelling` writes a token as program text, `Token.description` as a word for a message.
-/

namespace CommodoreBasic

/-- A word of program text. -/
inductive Token where
  /-- That many blanks and tabs. -/
  | whitespace (count : Nat)
  | keyword (keyword : Keyword)
  /-- A remark as written, from its `REM` to the end of the line. -/
  | comment (text : Text)
  /-- What stands between the quotes. -/
  | string (body : Text)
  /-- A number as written. -/
  | number (digits : Text)
  /-- A variable name as written. -/
  | identifier (name : Text)
  /-- A comma or semicolon, which closes the item before it. -/
  | trailing (mark : Char)
  | colon
  | punctuation (mark : Char)
  | endOfLine
  | endOfInput
deriving DecidableEq

/-- Puts a text into quotes; a quote inside it gets a backslash, a backslash does not. -/
def quote (s : Text) : Text :=
  '"' :: (s.flatMap fun c => if c = '"' then ['\\', '"'] else [c]) ++ ['"']

namespace Token

/-- The token as program text. -/
def spelling : Token → Text
  | whitespace n => List.replicate n ' '
  | keyword k => k.spelling
  | comment s => s
  | string s => quote s
  | number s => s
  | identifier s => s
  | trailing c => [c]
  | colon => [':']
  | punctuation c => [c]
  | endOfLine => ['\n']
  | endOfInput => []

/-- What a message calls the token. -/
def description : Token → Text
  | whitespace _ => "whitespace".toList
  | keyword k => "keyword ".toList ++ k.spelling
  | comment _ => "comment".toList
  | string s => "string \"".toList ++ s ++ ['"']
  | number s => "number ".toList ++ s
  | identifier s => "identifier ".toList ++ s
  | trailing c => ['\'', c, '\'']
  | colon => "':'".toList
  | punctuation c => ['\'', c, '\'']
  | endOfLine => "end of line".toList
  | endOfInput => "end of input".toList

end Token

end CommodoreBasic
