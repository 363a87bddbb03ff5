import CommodoreBasic.Program.Basic
import CommodoreBasic.Text.Quoted

/-!
# Parse log

Reading a program leaves a record of what happened. That it was read, or why not, is of interest
to whoever debugs a tool; labels used more than once only to whoever traces the reading in detail.
`eventsShownAt` is what is recorded at a level, `log` the lines in which the tool writes it down.
-/

namespace CommodoreBasic

/-- How much is to be logged, each level more than the one before. -/
inductive LogLevel where
  | info
  | debug
  | trace
deriving DecidableEq, Repr

/-- Something that happened while a program was read. -/
inductive LogEvent where
  | parsed (lines : Nat)
  | failed (error : SourceError)
  | duplicate (label : DuplicateLabel)
deriving DecidableEq

/-- Whether the event is logged at that level. -/
def LogEvent.shownAt (level : LogLevel) : LogEvent → Bool
  | parsed _ => level ≠ .info
  | failed _ => level ≠ .info
  | duplicate _ => level = .trace

/-- What happens while a text is read, in order. -/
def logEvents (e : Encoding) (text : Text) : List LogEvent :=
  match readLines e text with
  | .ok lines => .parsed lines.length :: (duplicateLabels lines).map .duplicate
  | .error error => [.failed error]

/-- What of it is logged at a level. -/
def eventsShownAt (level : LogLevel) (e : Encoding) (text : Text) : List LogEvent :=
  (logEvents e text).filter (·.shownAt level)

/-! ## Lines of the log -/

namespace LogEvent

/-- What is logged of an event, after the name of the document. -/
def text : LogEvent → Text
  | parsed lines => "basic::prog: parsed lines=".toList ++ decimal lines
  | failed error => "basic::prog: parse failed error=".toList ++ error.message
  | duplicate d =>
    "basic::prog::listing: duplicate label, last one wins label=".toList ++ decimal d.label ++
      " previous=".toList ++ decimal d.previous ++ " current=".toList ++ decimal d.current

/-- The level under which the event is entered. -/
def heading : LogEvent → Text
  | duplicate _ => "TRACE ".toList
  | _ => "DEBUG ".toList

/-- The event as a line of the log. -/
def entry (source : Text) (event : LogEvent) : Text :=
  event.heading ++ "parse\x7bsource=".toList ++ quoted source ++ "\x7d: ".toList ++ event.text

end LogEvent

/-- The log of reading a text, at a level. -/
def log (level : LogLevel) (e : Encoding) (source text : Text) : List Text :=
  (eventsShownAt level e text).map (·.entry source)

end CommodoreBasic
