import Reckon.Session
import Reckon.Text.Utf8

/-!
# The program

Reads expressions from a file, a pipe or a terminal and writes what they reduce to.

* `--tree` writes each result as an outline too.
* `--steps` writes what each stage of the reduction makes of an expression.
* Any other argument names a file to read.
-/

namespace Reckon.Program

open Session

/-- Writes a transcript: the output first, then the complaints. -/
def write (transcript : Transcript) : IO Unit := do
  let out ← IO.getStdout
  let err ← IO.getStderr
  out.putStr (String.ofList transcript.output)
  out.flush
  for complaint in transcript.complaints do
    err.putStrLn complaint.headline
    if let .fault report _ := complaint then
      for (span, label) in report.labels do
        err.putStrLn s!"  {span.start}-{span.stop}: {label}"
      for help in report.help do
        err.putStrLn s!"  help: {help}"

/-- Reads the file with the given name. -/
def readText (name : String) : IO (Except Unreadable (List Char)) := do
  try
    let bytes ← IO.FS.readBinFile name
    match Text.decodeUtf8? bytes.toList with
    | some text => return .ok text
    | none => return .error .notText
  catch _ => return .error .missing

/-- Reads the standard input to its end. -/
def readInput : IO (Option (List Char)) := do
  let bytes ← (← IO.getStdin).readBinToEnd
  return Text.decodeUtf8? bytes.toList

/-- Reads the rest of a line after the bytes `before`, of which the last one comes first. There is
no line at the end of the input. -/
partial def readLine (before : List UInt8) : IO (Option (List UInt8)) := do
  match (← (← IO.getStdin).read 1).toList, before with
  | [], [] => return none
  | [], _ => return some before.reverse
  | byte :: _, _ => if byte = 10 then return some before.reverse else readLine (byte :: before)

/-- Answers the lines of a terminal. -/
partial def converse (options : Options) : IO Unit := do
  write { output := prompt }
  let line ← readLine []
  let (answer, goesOn) := turn options (line.map Text.decodeUtf8?)
  write answer
  if goesOn then converse options

end Reckon.Program

open Reckon Session Program in
/-- Runs the session that the arguments ask for. -/
def main (arguments : List String) : IO UInt32 := do
  let command := Command.ofArguments arguments
  if command.file.isNone && (← (← IO.getStdin).isTty) then
    converse command.options
    return 0
  let text ←
    match command.file with
    | some name => readText name
    | none => pure (.error .missing)
  let input ← if command.file.isNone then readInput else pure none
  let outcome := command.run (fun _ => text) (.piped input)
  write outcome.toTranscript
  return outcome.status.toUInt32
