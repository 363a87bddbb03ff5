import CommodoreBasic.CommandLine.Command

/-!
# Entry point

Reads the file that the arguments name, runs the command on its contents and writes what comes of
it.
-/

namespace CommodoreBasic

/-- The contents of a file, or why they are not to be had. -/
def readContents (file : Text) : IO (Except ReadFailure Text) := do
  try
    let bytes ← IO.FS.readBinFile (String.ofList file)
    match String.fromUTF8? bytes with
    | some s => return .ok s.toList
    | none => return .error .notUtf8
  catch e =>
    match e with
    | .noFileOrDirectory .. => return .error .notFound
    | .inappropriateType .. => return .error .isDirectory
    | e => return .error (.other e.toString.toList)

/-- The file that the arguments name, if they ask for one to be read. -/
def wantedFile (arguments : List Text) : Option Text :=
  match Request.ofArguments arguments with
  | .ok (.run task) => some task.file
  | _ => none

end CommodoreBasic

open CommodoreBasic in
/-- Dumps the syntax tree of a program. -/
def main (args : List String) : IO UInt32 := do
  let arguments := args.map String.toList
  let contents ← match wantedFile arguments with
    | some file => readContents file
    | none => pure (.ok [])
  let outcome := runCommand (fun _ => contents) arguments
  (← IO.getStdout).putStr (String.ofList outcome.output)
  unless outcome.errors.isEmpty do
    (← IO.getStderr).putStrLn (String.ofList outcome.errors)
  return UInt32.ofNat outcome.status
