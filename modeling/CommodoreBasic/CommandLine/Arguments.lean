import CommodoreBasic.CommandLine.Coordinate
import CommodoreBasic.Dump.Style
import CommodoreBasic.Text.Encoding

/-!
# Command line arguments

The command takes one file and any of its options, in any order. An option is written with two
hyphens. A slot is an option with a value, which stands behind an equals sign or is the next
argument; a switch is one without. After `--` every argument is a file.

Arguments are read from left to right. A value that is an argument of its own is only looked at
when the argument after it is known to fit, so that a misspelt option is reported rather than the
bad value before it.
-/

namespace CommodoreBasic

/-- What can be given a value. The file is the one that has no name to be given by. -/
inductive Slot where
  | file
  | encoding
  | label
  | coordinate
deriving DecidableEq, Repr

/-- What can be switched on. -/
inductive Switch where
  | list
  | plain
  | version
deriving DecidableEq, Repr

/-- What the command can be given. -/
inductive Parameter where
  | slot (slot : Slot)
  | switch (switch : Switch)
deriving DecidableEq, Repr

/-- How a message shows a slot. -/
def Slot.usage : Slot → Text
  | file => "<FILE>".toList
  | encoding => "--encoding <ENCODING>".toList
  | label => "--label <LABEL>".toList
  | coordinate => "--at <LINE:CHARACTER>".toList

/-- How a message shows a switch. -/
def Switch.usage : Switch → Text
  | list => "--list".toList
  | plain => "--plain".toList
  | version => "--version".toList

/-- How a message shows a parameter. -/
def Parameter.usage : Parameter → Text
  | slot s => s.usage
  | switch s => s.usage

/-- The options by the names that follow their hyphens. -/
def Parameter.options : List (Text × Parameter) :=
  [("encoding".toList, slot .encoding), ("label".toList, slot .label),
    ("at".toList, slot .coordinate),
    ("list".toList, switch .list), ("plain".toList, switch .plain),
    ("version".toList, switch .version)]

/-- The option of that name. No part of a name will do. -/
def Parameter.ofName (name : Text) : Option Parameter := options.lookup name

/-- Why a value is refused. -/
inductive ValueError where
  | encoding (error : Encoding.UnknownName)
  | label (error : WordError)
  | coordinate (error : CoordinateError)
deriving DecidableEq

/-- The wording of each cause. -/
def ValueError.message : ValueError → Text
  | encoding e => e.message
  | label e => e.message
  | coordinate e => e.message

/-- What is wrong with the arguments. -/
inductive UsageError where
  | invalidValue (value : Text) (slot : Slot) (error : ValueError)
  | missingValue (slot : Slot)
  | unexpectedArgument (argument : Text)
  | repeated (parameter : Parameter)
  | unexpectedValue (value : Text) (switch : Switch)
  | missingFile
deriving DecidableEq

/-- The wording of each cause. What was given stands out from the words around it. -/
def UsageError.message : UsageError → Text
  | invalidValue v s e =>
    "invalid value '".toList ++ Style.yellow.paint v ++ "' for '".toList ++
      Style.bold.paint s.usage ++ "': ".toList ++ e.message
  | missingValue s =>
    "a value is required for '".toList ++ Style.yellow.paint s.usage ++
      "' but none was supplied".toList
  | unexpectedArgument a =>
    "unexpected argument '".toList ++ Style.yellow.paint a ++ "' found".toList
  | repeated p =>
    "the argument '".toList ++ Style.yellow.paint p.usage ++
      "' cannot be used multiple times".toList
  | unexpectedValue v s =>
    "unexpected value '".toList ++ Style.yellow.paint v ++ "' for '".toList ++
      Style.bold.paint s.usage ++ "' found; no more were expected".toList
  | missingFile => "the following required arguments were not provided:".toList

/-- The wording between its heading and a word on where to find help. -/
def UsageError.report (e : UsageError) : Text :=
  Style.boldRed.paint "error:".toList ++ ' ' :: e.message ++
    "\n\nFor more information, try '".toList ++ Style.bold.paint "--help".toList ++
    "'.\n".toList

/-- What the command is asked to do. -/
structure Task where
  file : Text
  encoding : Encoding
  /-- Only the line with this label is wanted. -/
  label : Option Nat
  /-- Only the keyword at this place is wanted. -/
  coordinate : Option Coordinate
  /-- A listing is wanted rather than a tree. -/
  list : Bool
  /-- No colours are wanted. -/
  plain : Bool

/-- What the arguments ask for. -/
inductive Request where
  | version
  | run (task : Task)

/-- The parameters as far as they have been given. -/
structure Given where
  file : Option Text
  encoding : Option Encoding
  label : Option Nat
  coordinate : Option Coordinate
  list : Bool
  plain : Bool

namespace Given

/-- Nothing has been given. -/
def nothing : Given := ⟨none, none, none, none, false, false⟩

/-- Whether a parameter has been given. -/
def has (g : Given) : Parameter → Bool
  | .slot .file => g.file.isSome
  | .slot .encoding => g.encoding.isSome
  | .slot .label => g.label.isSome
  | .slot .coordinate => g.coordinate.isSome
  | .switch .list => g.list
  | .switch .plain => g.plain
  | .switch .version => false

/-- Puts a value into a slot that has none yet. -/
def fill (g : Given) (slot : Slot) (value : Text) : Except UsageError Given :=
  if g.has (.slot slot) then .error (.repeated (.slot slot))
  else
    match slot with
    | .file =>
      if value.isEmpty then .error (.missingValue .file) else .ok { g with file := some value }
    | .encoding =>
      match Encoding.ofName value with
      | .ok e => .ok { g with encoding := some e }
      | .error e => .error (.invalidValue value slot (.encoding e))
    | .label =>
      match readWord value with
      | .ok n => .ok { g with label := some n }
      | .error e => .error (.invalidValue value slot (.label e))
    | .coordinate =>
      match Coordinate.ofText value with
      | .ok c => .ok { g with coordinate := some c }
      | .error e => .error (.invalidValue value slot (.coordinate e))

/-- Turns a switch on that is off. -/
def turnOn (g : Given) (switch : Switch) : Except UsageError Given :=
  if g.has (.switch switch) then .error (.repeated (.switch switch))
  else
    match switch with
    | .list => .ok { g with list := true }
    | .plain => .ok { g with plain := true }
    | .version => .ok g

/-- What is asked for, once all arguments have been read. -/
def request (g : Given) : Except UsageError Request :=
  match g.file with
  | none => .error .missingFile
  | some file =>
    .ok (.run ⟨file, g.encoding.getD default, g.label, g.coordinate, g.list, g.plain⟩)

end Given

/-- What has been read: the parameters that are settled, and the slot whose value has not been
looked at yet, with that value once it has come. -/
structure Reading where
  given : Given
  unsettled : Option (Slot × Option Text)

namespace Reading

/-- Looks at the value that is still unsettled. -/
def settle (r : Reading) : Except UsageError Given :=
  match r.unsettled with
  | none => .ok r.given
  | some (slot, some value) => r.given.fill slot value
  | some (slot, none) => .error (.missingValue slot)

/-- Whether there is a file. -/
def hasFile (r : Reading) : Bool :=
  r.given.file.isSome || r.unsettled.any fun (slot, _) => slot = .file

/-- Takes an argument as the file. There can only be one. -/
def file (r : Reading) (s : Text) : Except UsageError Reading :=
  if r.hasFile then .error (.unexpectedArgument s)
  else r.settle.map fun given => ⟨given, some (.file, some s)⟩

end Reading

/-- How an argument looks. -/
inductive Argument where
  /-- From here on there are only files. -/
  | separator
  /-- The name of an option, and what stands behind an equals sign. -/
  | long (name : Text) (value : Option Text)
  /-- The letter behind a single hyphen, with or without others after it. -/
  | short (letter : Char)
  /-- A value, or a file. -/
  | bare (text : Text)

/-- A hyphen tells an option, except for one that stands alone. -/
def Argument.ofText : Text → Argument
  | ['-', '-'] => .separator
  | '-' :: '-' :: s =>
    match s.dropWhile (· ≠ '=') with
    | _ :: value => .long (s.takeWhile (· ≠ '=')) (some value)
    | [] => .long s none
  | '-' :: c :: _ => .short c
  | s => .bare s

namespace Reading

/-- Reads the arguments after the separator. -/
def files (r : Reading) : List Text → Except UsageError Request
  | [] => r.settle.bind Given.request
  | s :: rest => (r.file s).bind fun r => r.files rest

/-- Reads an option with or without a value behind an equals sign. The answer is `none` if the
version is asked for. -/
def option (r : Reading) (name : Text) (value : Option Text) : Except UsageError (Option Reading) :=
  match Parameter.ofName name, value with
  | none, _ => .error (.unexpectedArgument ('-' :: '-' :: name))
  | some (.switch switch), some value => .error (.unexpectedValue value switch)
  | some (.switch .version), none => r.settle.map fun _ => none
  | some (.switch switch), none => do
    let given ← r.settle
    return some ⟨← given.turnOn switch, none⟩
  | some (.slot slot), some value => do
    let given ← r.settle
    return some ⟨← given.fill slot value, none⟩
  | some (.slot slot), none => do
    let given ← r.settle
    return some ⟨given, some (slot, none)⟩

/-- Reads arguments. -/
def arguments (r : Reading) : List Text → Except UsageError Request
  | [] => r.settle.bind Given.request
  | s :: rest =>
    match Argument.ofText s with
    | .separator => r.files rest
    | .short 'V' => r.settle.map fun _ => .version
    | .short c => .error (.unexpectedArgument ['-', c])
    | .long name value =>
      match r.option name value with
      | .error e => .error e
      | .ok none => .ok .version
      | .ok (some r) => r.arguments rest
    | .bare s =>
      match r.unsettled with
      | some (slot, none) => arguments ⟨r.given, some (slot, some s)⟩ rest
      | _ =>
        match r.file s with
        | .error e => .error e
        | .ok r => r.arguments rest

end Reading

/-- What the arguments ask for. -/
def Request.ofArguments (arguments : List Text) : Except UsageError Request :=
  Reading.arguments ⟨.nothing, none⟩ arguments

end CommodoreBasic
