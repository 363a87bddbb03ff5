import CommodoreBasic.Text.Basic

/-!
# Visible text

A terminal does not show all that it is sent. An escape character begins a sequence that commands
the terminal, and other controls command it on their own. `visible` is the text that is left
without them. Blank controls are left in, and one that comes before a sequence is complete ends
it, unless the sequence holds a string.
-/

namespace CommodoreBasic

/-- What a terminal takes the next character for. -/
inductive Terminal where
  /-- A part of the text. -/
  | text
  /-- The kind of a sequence, after its escape character. -/
  | escape
  /-- The last character of a sequence, or one more mark before it. -/
  | marks
  /-- A parameter of a control sequence, or the letter that completes it. -/
  | parameters
  /-- A part of an operating system command, which a bell ends. -/
  | command
  /-- The start of the header of a device control, or its last character. -/
  | device
  /-- A parameter in such a header, a mark or its last character. -/
  | deviceParameters
  /-- A mark in such a header, or its last character. -/
  | deviceMarks
  /-- A part of a device control whose header makes no sense. -/
  | ignored
  /-- A part of a string that a terminator ends. -/
  | string
deriving DecidableEq, Repr

/-- A control that moves on without showing: a tab, or the end of a line or a page. -/
def isBlankControl (c : Char) : Bool := c = '\t' || c = '\n' || c = '\x0c' || c = '\r'

/-- The character has a code among the first 32 or is the one for deletion. -/
def isControl (c : Char) : Bool := c < ' ' || c = '\x7f'

/-- One of the bytes of the character in UTF-8 is the one that terminates strings. -/
def holdsTerminator (c : Char) : Bool := (String.utf8EncodeChar c).contains 0x9C

namespace Terminal

/-- The character is left in the text. -/
def shows : Terminal → Char → Bool
  | text, c => !isControl c || isBlankControl c
  | escape, c | marks, c | parameters, c => isBlankControl c
  | _, _ => false

/-- What the character after this one is taken for, if this one does not show. An escape character
begins a sequence anywhere, and a cancellation or substitution ends any. -/
def next (t : Terminal) (c : Char) : Terminal :=
  if c = '\x1b' then escape
  else if c = '\x18' || c = '\x1a' then text
  else
    match t with
    | text => text
    | escape =>
      if c = '[' then parameters
      else if c = ']' then command
      else if c = 'P' then device
      else if c = 'X' || c = '^' || c = '_' then string
      else if ' ' ≤ c && c ≤ '/' then marks
      else if '0' ≤ c && c ≤ '~' then text
      else escape
    | marks => if '0' ≤ c && c ≤ '~' then text else marks
    | parameters => if '@' ≤ c && c ≤ '~' then text else parameters
    | command => if c = '\x07' then text else command
    | device =>
      if ' ' ≤ c && c ≤ '/' then deviceMarks
      else if '0' ≤ c && c ≤ '?' then deviceParameters
      else if '@' ≤ c && c ≤ '~' then string
      else device
    | deviceParameters =>
      if ' ' ≤ c && c ≤ '/' then deviceMarks
      else if '<' ≤ c && c ≤ '?' then ignored
      else if '@' ≤ c && c ≤ '~' then string
      else deviceParameters
    | deviceMarks =>
      if '0' ≤ c && c ≤ '?' then ignored
      else if '@' ≤ c && c ≤ '~' then string
      else deviceMarks
    | ignored => ignored
    | string => if holdsTerminator c then text else string

end Terminal

namespace Text

/-- What shows of a text if its first character is taken for that. -/
def visibleFrom : Terminal → Text → Text
  | _, [] => []
  | t, c :: s => if t.shows c then c :: visibleFrom .text s else visibleFrom (t.next c) s

/-- What shows of a text. -/
def visible (s : Text) : Text := visibleFrom .text s

end Text

end CommodoreBasic
