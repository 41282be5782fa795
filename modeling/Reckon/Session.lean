import Reckon.Reduction
import Reckon.Expr.Outline
import Reckon.Text.Blank
import Reckon.Text.Lines

/-!
# Sessions

A session takes a text line by line, reduces each line that is not blank, and writes the result or
complains. The lines come from a file, from a pipe, or from a terminal, where each of them is asked
for by a prompt. However they come, a line is answered in the same way (`respond`), which depends on
nothing but the line and the options. On a terminal, lines of blanks are passed over before that
(`respondTyped`).

`Command` is what the command line asks for, and `Command.run` gives the outcome of the whole
session: all that is written, all that is complained about, and the exit status. A session on a
terminal is a row of turns (`turn`).
-/

namespace Reckon.Session

/-- What to write besides the results. -/
structure Options where
  /-- Write each result as an outline too. -/
  tree : Bool := false
  /-- Write what each stage of the reduction makes of an expression. -/
  steps : Bool := false
  deriving DecidableEq, Repr

/-- Why a file cannot be read. -/
inductive Unreadable where
  | missing
  | notText
  deriving DecidableEq, Repr

/-- What is said of input that is not UTF-8. -/
def notTextMessage : String :=
  "stream did not contain valid UTF-8"

/-- What is said of a file that cannot be read. -/
def Unreadable.message : Unreadable → String
  | missing => "No such file or directory (os error 2)"
  | notText => notTextMessage

/-- Something that went wrong in a session. -/
inductive Complaint where
  /-- A line could not be reduced. The report points into the `source`. -/
  | fault (report : Report) (source : List Char)
  /-- A file could not be read. -/
  | unreadable (name : String) (reason : Unreadable)
  | notText

/-- The line that a complaint begins with. -/
def Complaint.headline : Complaint → String
  | fault report _ => report.headline
  | unreadable name reason => s!"{name}: {reason.message}"
  | notText => notTextMessage

/-- What came out of a session, or of a part of one. -/
@[ext]
structure Transcript where
  /-- What was written. -/
  output : List Char := []
  /-- What was complained about. -/
  complaints : List Complaint := []

namespace Transcript

instance : Append Transcript where
  append s t := ⟨s.output ++ t.output, s.complaints ++ t.complaints⟩

/-- Puts transcripts together, one after the other. -/
def concat (transcripts : List Transcript) : Transcript :=
  ⟨transcripts.flatMap output, transcripts.flatMap complaints⟩

@[simp]
theorem output_append (s t : Transcript) : (s ++ t).output = s.output ++ t.output := rfl

@[simp]
theorem complaints_append (s t : Transcript) :
    (s ++ t).complaints = s.complaints ++ t.complaints := rfl

end Transcript

/-- A line of output. -/
def writtenLine (text : List Char) : List Char :=
  text ++ ['\n']

/-- What is written about the steps of a reduction. -/
def writtenSteps (steps : List Step) : List Char :=
  steps.flatMap fun step => writtenLine (toString step).toList

/-- What is written about a result. -/
def writtenResult (options : Options) (result : Expr) : List Char :=
  writtenLine result.line ++ if options.tree then result.outline else []

/-- Reduces a text, with the steps if they are asked for. -/
def reduceFor (options : Options) (text : List Char) : List Step × Except Error Expr :=
  if options.steps then reduceWithSteps text else ([], reduce text)

/-- Answers a text without blanks. The steps of a reduction that fails in the end are written all
the same. -/
def answer (options : Options) (text : List Char) : Transcript :=
  let (steps, result) := reduceFor options text
  match result with
  | .ok result => { output := writtenSteps steps ++ writtenResult options result }
  | .error error => { output := writtenSteps steps, complaints := [.fault error.report text] }

/-- Answers a line. Its blanks do not matter, and a line of nothing else gets no answer. -/
def respond (options : Options) (line : List Char) : Transcript :=
  let text := Text.withoutBlanks line
  if text.isEmpty then {} else answer options text

/-- Answers every line of a text. -/
def batch (options : Options) (text : List Char) : Transcript :=
  .concat ((Text.lines text).map (respond options))

/-- What a terminal shows when a line may be typed. -/
def prompt : List Char := ['>', ' ']

/-- Answers a line that was typed. A line of nothing but blanks is passed over at once. -/
def respondTyped (options : Options) (line : List Char) : Transcript :=
  if (Text.trim line).isEmpty then {} else respond options line

/-- What follows a prompt, and whether there is another one after that. Either a line was typed,
which may not be text, or the lines have ended. -/
def turn (options : Options) : Option (Option (List Char)) → Transcript × Bool
  | none => ({}, false)
  | some none => ({ complaints := [.notText] }, false)
  | some (some line) => (respondTyped options line, true)

/-- Answers lines as they are typed, until they end or one of them is not text. -/
def terminal (options : Options) : List (Option (List Char)) → Transcript
  | [] => { output := prompt : Transcript } ++ (turn options none).1
  | line :: lines =>
    let (answer, goesOn) := turn options (some line)
    { output := prompt : Transcript } ++ answer ++ if goesOn then terminal options lines else {}

/-! ### The command line -/

/-- What the command line asks for. -/
structure Command where
  options : Options := {}
  /-- The file to read, if any. -/
  file : Option String := none

/-- Takes another argument into account. All that are not options name a file, and the last one
counts. -/
def Command.add (command : Command) (argument : String) : Command :=
  if argument = "--tree" then { command with options.tree := true }
  else if argument = "--steps" then { command with options.steps := true }
  else { command with file := some argument }

/-- What a list of arguments asks for. -/
def Command.ofArguments (arguments : List String) : Command :=
  arguments.foldl Command.add {}

/-- The standard input of a session. -/
inductive Input where
  /-- Everything at once, if it is text. -/
  | piped (text : Option (List Char))
  /-- Line by line from a terminal, each if it is text. -/
  | typed (lines : List (Option (List Char)))

/-- What a session comes to. -/
structure Outcome extends Transcript where
  status : Nat

/-- A session that went through. -/
def Outcome.success (transcript : Transcript) : Outcome :=
  { transcript with status := 0 }

/-- A session that could not begin. -/
def Outcome.failure (complaint : Complaint) : Outcome :=
  { complaints := [complaint], status := 1 }

/-- Runs a session. If a file is named, the standard input does not matter. -/
def Command.run (command : Command) (files : String → Except Unreadable (List Char))
    (input : Input) : Outcome :=
  match command.file with
  | some name =>
    match files name with
    | .ok text => .success (batch command.options text)
    | .error reason => .failure (.unreadable name reason)
  | none =>
    match input with
    | .piped (some text) => .success (batch command.options text)
    | .piped none => .failure .notText
    | .typed lines => .success (terminal command.options lines)

end Reckon.Session
