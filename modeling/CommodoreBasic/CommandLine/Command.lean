import CommodoreBasic.CommandLine.Arguments
import CommodoreBasic.Dump.Report
import CommodoreBasic.Dump.Tree
import CommodoreBasic.Program.Basic
import CommodoreBasic.Text.Visible

/-!
# The command

`runCommand` is the command as a function: its arguments and the contents of the file that they
name determine the exit status and what is written. Reading the file and writing the result are
left to `Main`.
-/

namespace CommodoreBasic

/-- Why the contents of a file are not to be had. -/
inductive ReadFailure where
  | notFound
  | isDirectory
  | notUtf8
  | other (reason : Text)
deriving DecidableEq

/-- The wording of each cause. -/
def ReadFailure.message : ReadFailure → Text
  | notFound => "No such file or directory (os error 2)".toList
  | isDirectory => "Is a directory (os error 21)".toList
  | notUtf8 => "stream did not contain valid UTF-8".toList
  | other reason => reason

/-- What ends the command without a result. -/
inductive Failure where
  | unreadable (file : Text) (cause : ReadFailure)
  | invalid (report : Text)
  | undefinedLine (label : Nat)
deriving DecidableEq

/-- What is said about it. -/
def Failure.message : Failure → Text
  | unreadable file cause =>
    "failed to read source file ".toList ++ file ++ ": ".toList ++ cause.message
  | invalid report => report
  | undefinedLine label => "undefined line ".toList ++ decimal label

namespace Task

/-- The styles to write in. -/
def palette (t : Task) : Palette := if t.plain then .plain else .coloured

/-- Lines in the wanted form. -/
def write (t : Task) (lines : List Line) : Text :=
  if t.list then Line.listText lines else t.palette.lines lines

/-- What to write about a program. A coordinate comes before a label, and a label before the whole
program. -/
def answer (t : Task) (p : Program) : Except Failure Text :=
  match t.coordinate, t.label with
  | some place, _ =>
    match p.keywordAt? place.line place.character with
    | some k => .ok (k.spelling ++ ['\n'])
    | none => .ok "no\n".toList
  | none, some label =>
    match p.labelledLine? label with
    | some line => .ok (t.write [line])
    | none => .error (.undefinedLine label)
  | none, none => .ok (t.write p.lines)

/-- What to write, given the contents of the file. -/
def run (t : Task) (contents : Except ReadFailure Text) : Except Failure Text :=
  match contents with
  | .error cause => .error (.unreadable t.file cause)
  | .ok text =>
    match Program.parse t.encoding t.file text with
    | .error error => .error (.invalid (t.palette.report t.encoding t.file text error))
    | .ok p => t.answer p

end Task

/-- What the command leaves behind. -/
structure Outcome where
  status : Nat
  output : Text
  errors : Text
deriving DecidableEq

/-- The name and number of the version. -/
def versionText : Text := "basic-dump 0.1.0\n".toList

/-- The command, with `read` to give the contents of a file. Of the report on a usage error the
first line that shows is kept. -/
def runCommand (read : Text → Except ReadFailure Text) (arguments : List Text) : Outcome :=
  match Request.ofArguments arguments with
  | .error e => ⟨2, [], e.report.visible.firstLine⟩
  | .ok .version => ⟨0, versionText, []⟩
  | .ok (.run task) =>
    match task.run (read task.file) with
    | .ok output => ⟨0, output, []⟩
    | .error failure => ⟨1, [], failure.message⟩

end CommodoreBasic
