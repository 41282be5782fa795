import Reckon.Session
import Reckon.Proofs.Steps

/-!
# Sessions

A session answers its lines one by one, and it makes no difference to the answers where the lines
come from. A file and a pipe give the same outcome, and on a terminal the same answers stand behind
prompts. A terminal passes over lines of blanks before they are answered, and the lines of a file
lose the carriage return at their end; but neither is seen in an answer, since a line is answered
without its blanks (`respondTyped_eq_respond`, `respond_dropReturn`).

The options only add to an answer: the steps before the result, and the outline behind it. What is
complained about does not depend on them (`answer_of_reduce_eq_error`).
-/

namespace Reckon.Session

open Text

/-! ### One line -/

/-- `dropReturn` makes no difference to `withoutBlanks`, since a carriage return is blank. -/
theorem withoutBlanks_dropReturn (line : List Char) :
    withoutBlanks (dropReturn line) = withoutBlanks line := by
  unfold dropReturn
  split
  case isTrue h =>
    obtain ⟨before, rfl⟩ := List.getLast?_eq_some_iff.1 h
    have hblank : withoutBlanks ['\r'] = [] := by decide
    rw [List.dropLast_concat, withoutBlanks_append, hblank, List.append_nil]
  case isFalse => rfl

theorem respond_of_withoutBlanks_eq_nil {line : List Char} (options : Options)
    (h : withoutBlanks line = []) : respond options line = {} := by
  simp [respond, h]

/-- `respond` gives the `answer` to the rest of the line that is not blank. -/
theorem respond_of_withoutBlanks_ne_nil {line : List Char} (options : Options)
    (h : withoutBlanks line ≠ []) : respond options line = answer options (withoutBlanks line) := by
  simp [respond, h]

theorem respond_congr {line line' : List Char} (options : Options)
    (h : withoutBlanks line = withoutBlanks line') :
    respond options line = respond options line' := by
  rw [respond, respond, h]

theorem respond_dropReturn (options : Options) (line : List Char) :
    respond options (dropReturn line) = respond options line :=
  respond_congr options (withoutBlanks_dropReturn line)

/-- `respondTyped` is `respond`: that lines of blanks are passed over is not seen in the answers. -/
theorem respondTyped_eq_respond (options : Options) (line : List Char) :
    respondTyped options line = respond options line := by
  unfold respondTyped
  split
  case isTrue h =>
    have hnil : withoutBlanks line = [] := by
      rw [← withoutBlanks_trim, List.isEmpty_iff.1 h]
      rfl
    rw [respond_of_withoutBlanks_eq_nil options hnil]
  case isFalse => rfl

/-! ### What the options add -/

/-- The steps of the reduction of a text, if they are to be written. -/
def listedSteps (options : Options) (text : List Char) : List Step :=
  if options.steps then (reduceWithSteps text).1 else []

/-- `reduceFor` lists the steps next to a result that does not depend on whether they are listed. -/
theorem reduceFor_eq (options : Options) (text : List Char) :
    reduceFor options text = (listedSteps options text, reduce text) := by
  unfold reduceFor listedSteps
  split
  case isTrue => rw [← reduceWithSteps_snd]
  case isFalse => rfl

theorem answer_of_reduce_eq_ok {text : List Char} {r : Expr} (options : Options)
    (h : reduce text = .ok r) :
    answer options text =
      { output := writtenSteps (listedSteps options text) ++ writtenResult options r } := by
  rw [answer, reduceFor_eq, h]

theorem answer_of_reduce_eq_error {text : List Char} {error : Error} (options : Options)
    (h : reduce text = .error error) :
    answer options text =
      { output := writtenSteps (listedSteps options text),
        complaints := [.fault error.report text] } := by
  rw [answer, reduceFor_eq, h]

/-! ### All lines -/

/-- `batch` answers a text of ended lines by `respond`, line by line. -/
theorem batch_flatMap_writtenLine {ls : List (List Char)} (options : Options)
    (h : ∀ line ∈ ls, '\n' ∉ line) :
    batch options (ls.flatMap writtenLine) =
      ⟨ls.flatMap fun line => (respond options line).output,
        ls.flatMap fun line => (respond options line).complaints⟩ := by
  have hlines : lines (ls.flatMap writtenLine) = ls.map dropReturn := lines_flatMap_append h
  have hanswer : respond options ∘ dropReturn = respond options :=
    funext fun line => respond_dropReturn options line
  rw [batch, hlines, List.map_map, hanswer]
  simp only [Transcript.concat, List.flatMap_map]

/-- `terminal` puts each answer behind a `prompt`, and another one is the last thing shown. -/
theorem terminal_map_some (options : Options) (ls : List (List Char)) :
    terminal options (ls.map some) =
      ⟨(ls.flatMap fun line => prompt ++ (respond options line).output) ++ prompt,
        ls.flatMap fun line => (respond options line).complaints⟩ := by
  induction ls with
  | nil => rfl
  | cons line ls ih =>
    rw [List.map_cons, terminal, turn, respondTyped_eq_respond]
    dsimp only
    rw [if_pos rfl, ih]
    refine Transcript.ext ?_ ?_
    · simp
    · simp

/-! ### The command line -/

/-- The arguments that choose an option. -/
def IsFlag (argument : String) : Prop :=
  argument = "--tree" ∨ argument = "--steps"

instance : DecidablePred IsFlag := fun argument =>
  inferInstanceAs (Decidable (argument = "--tree" ∨ argument = "--steps"))

/-- The options that arguments choose. -/
def Options.ofArguments (arguments : List String) : Options where
  tree := arguments.contains "--tree"
  steps := arguments.contains "--steps"

/-- The names of files among the arguments. -/
def fileNames (arguments : List String) : List String :=
  arguments.filter fun argument => !decide (IsFlag argument)

theorem foldl_add_eq (arguments : List String) (command : Command) :
    arguments.foldl Command.add command =
      { options.tree := command.options.tree || arguments.contains "--tree"
        options.steps := command.options.steps || arguments.contains "--steps"
        file := (fileNames arguments).getLast?.or command.file } := by
  induction arguments generalizing command with
  | nil => simp [fileNames]
  | cons argument arguments ih =>
    rw [List.foldl_cons, ih]
    by_cases htree : argument = "--tree"
    · simp [Command.add, fileNames, IsFlag, htree]
    · by_cases hsteps : argument = "--steps"
      · simp [Command.add, fileNames, IsFlag, hsteps]
      · have hadd : command.add argument = { command with file := some argument } := by
          simp [Command.add, htree, hsteps]
        have hnames : fileNames (argument :: arguments) = argument :: fileNames arguments := by
          simp [fileNames, IsFlag, htree, hsteps]
        rw [hadd, hnames, List.getLast?_cons]
        cases (fileNames arguments).getLast? <;> simp [Ne.symm htree, Ne.symm hsteps]

/-- Each option is chosen by its flag wherever that stands, and of all files that are named the last
one counts. -/
theorem ofArguments_eq (arguments : List String) :
    Command.ofArguments arguments =
      ⟨Options.ofArguments arguments, (fileNames arguments).getLast?⟩ := by
  rw [Command.ofArguments, foldl_add_eq]
  simp [Options.ofArguments]

theorem ofArguments_of_forall_isFlag {flags : List String} (h : ∀ flag ∈ flags, IsFlag flag) :
    Command.ofArguments flags = ⟨Options.ofArguments flags, none⟩ := by
  have hnone : fileNames flags = [] := by simpa [fileNames] using h
  rw [ofArguments_eq, hnone, List.getLast?_nil]

/-- Flags on both sides of the name of a file choose the options, as they do without it. -/
theorem ofArguments_append_cons {before after : List String} {name : String}
    (hbefore : ∀ flag ∈ before, IsFlag flag) (hafter : ∀ flag ∈ after, IsFlag flag)
    (hname : ¬IsFlag name) :
    Command.ofArguments (before ++ name :: after) =
      ⟨Options.ofArguments (before ++ after), some name⟩ := by
  have hfile : fileNames (before ++ name :: after) = [name] := by
    have hsides : fileNames before = [] ∧ fileNames after = [] := by
      simpa [fileNames] using ⟨hbefore, hafter⟩
    simp only [fileNames, List.filter_append, List.filter_cons] at hsides ⊢
    simp [hsides, hname]
  have hoptions : Options.ofArguments (before ++ name :: after) =
      Options.ofArguments (before ++ after) := by
    simp only [IsFlag, not_or] at hname
    simp [Options.ofArguments, Ne.symm hname.1, Ne.symm hname.2]
  rw [ofArguments_eq, hfile, hoptions, List.getLast?_singleton]

/-! ### Sessions -/

section Runs

variable {flags before after : List String} {name : String}
variable {files : String → Except Unreadable (List Char)}

/-- A session with a file answers the text in it, whatever the standard input is. -/
theorem run_of_files_eq_ok {text : List Char} (hbefore : ∀ flag ∈ before, IsFlag flag)
    (hafter : ∀ flag ∈ after, IsFlag flag) (hname : ¬IsFlag name) (hfile : files name = .ok text)
    (input : Input) :
    (Command.ofArguments (before ++ name :: after)).run files input =
      .success (batch (Options.ofArguments (before ++ after)) text) := by
  rw [ofArguments_append_cons hbefore hafter hname]
  simp only [Command.run, hfile]

theorem run_piped (hflags : ∀ flag ∈ flags, IsFlag flag) (text : List Char) :
    (Command.ofArguments flags).run files (.piped (some text)) =
      .success (batch (Options.ofArguments flags) text) := by
  rw [ofArguments_of_forall_isFlag hflags]
  rfl

theorem run_typed (hflags : ∀ flag ∈ flags, IsFlag flag) (lines : List (Option (List Char))) :
    (Command.ofArguments flags).run files (.typed lines) =
      .success (terminal (Options.ofArguments flags) lines) := by
  rw [ofArguments_of_forall_isFlag hflags]
  rfl

end Runs

/-- Whatever flags are given, a text of ended lines gets the same answers, line by line, from a file
and from a pipe. On a terminal, where the lines come without their ends, each answer stands behind a
prompt, and another prompt follows. What is complained about is the same in all three, and all of
these sessions go through.

The answer to a line depends on those of its characters that are not blank, and there is none if it
has no others. Where they can be reduced, the result is written as a line, which is the same with
any flags: all that these add are the steps before it and its outline after it. Where they cannot be
reduced, nothing but the steps is written, and what is complained about is the same with any
flags. -/
theorem run_lines {before after : List String} {name : String}
    {files : String → Except Unreadable (List Char)} {ls : List (List Char)}
    (hbefore : ∀ flag ∈ before, IsFlag flag) (hafter : ∀ flag ∈ after, IsFlag flag)
    (hname : ¬IsFlag name) (hls : ∀ line ∈ ls, '\n' ∉ line)
    (hfile : files name = .ok (ls.flatMap fun line => line ++ ['\n'])) :
    let options := Options.ofArguments (before ++ after)
    let filed (input : Input) := (Command.ofArguments (before ++ name :: after)).run files input
    let piped := (Command.ofArguments (before ++ after)).run files
      (.piped (some (ls.flatMap fun line => line ++ ['\n'])))
    let typed := (Command.ofArguments (before ++ after)).run files (.typed (ls.map some))
    let output := ls.flatMap fun line => (respond options line).output
    let complaints := ls.flatMap fun line => (respond options line).complaints
    (∀ input, (filed input).output = output ∧ (filed input).complaints = complaints ∧
      (filed input).status = 0) ∧
    (piped.output = output ∧ piped.complaints = complaints ∧ piped.status = 0) ∧
    (typed.output =
        (ls.flatMap fun line => ['>', ' '] ++ (respond options line).output) ++ ['>', ' '] ∧
      typed.complaints = complaints ∧ typed.status = 0) ∧
    ∀ line,
      let text := line.filter fun c => !isBlank c
      let steps := if options.steps then (reduceWithSteps text).1 else []
      let written := steps.flatMap fun step => (toString step).toList ++ ['\n']
      (text = [] → (respond options line).output = [] ∧ (respond options line).complaints = []) ∧
      (text ≠ [] → ∀ r, reduce text = .ok r →
        (respond options line).output =
            written ++ (r.line ++ ['\n'] ++ if options.tree then r.outline else []) ∧
          (respond options line).complaints = []) ∧
      (text ≠ [] → ∀ error, reduce text = .error error →
        (respond options line).output = written ∧
          (respond options line).complaints = [.fault error.report text]) := by
  intro options filed piped typed output complaints
  have hflags : ∀ flag ∈ before ++ after, IsFlag flag := List.forall_mem_append.2 ⟨hbefore, hafter⟩
  have hbatch : batch options (ls.flatMap fun line => line ++ ['\n']) = ⟨output, complaints⟩ :=
    batch_flatMap_writtenLine options hls
  refine ⟨?_, ?_, ?_, ?_⟩
  · intro input
    have hfiled : filed input = .success ⟨output, complaints⟩ := by
      rw [← hbatch]
      exact run_of_files_eq_ok hbefore hafter hname hfile input
    rw [hfiled]
    exact ⟨rfl, rfl, rfl⟩
  · have hpiped : piped = .success ⟨output, complaints⟩ := by
      rw [← hbatch]
      exact run_piped hflags _
    rw [hpiped]
    exact ⟨rfl, rfl, rfl⟩
  · have htyped : typed = .success (terminal options (ls.map some)) := run_typed hflags _
    rw [htyped, terminal_map_some]
    exact ⟨rfl, rfl, rfl⟩
  · intro line text steps written
    refine ⟨?_, ?_, ?_⟩
    · intro hnil
      rw [respond_of_withoutBlanks_eq_nil options hnil]
      exact ⟨rfl, rfl⟩
    · intro hne r hr
      have hanswer : respond options line = answer options text :=
        respond_of_withoutBlanks_ne_nil options hne
      rw [hanswer, answer_of_reduce_eq_ok options hr]
      exact ⟨rfl, rfl⟩
    · intro hne error herror
      have hanswer : respond options line = answer options text :=
        respond_of_withoutBlanks_ne_nil options hne
      rw [hanswer, answer_of_reduce_eq_error options herror]
      exact ⟨rfl, rfl⟩

/-- With `--tree`, the result of `1+ 1` is written as a line and as an outline. The carriage return
behind `1/0` is not seen in the complaint about it, and a space is no reason for another one. -/
theorem run_lines_of_sum_and_quotient :
    let ls := [['1', '+', ' ', '1'], [' '], ['1', '/', '0', '\r']]
    let text := ['1', '+', ' ', '1', '\n', ' ', '\n', '1', '/', '0', '\r', '\n']
    let files : String → Except Unreadable (List Char) := fun _ => .ok text
    let complaints : List Complaint :=
      [.fault (Error.report ⟨[⟨0, 3⟩], .divisionByZero⟩) ['1', '/', '0']]
    let filed := (Command.ofArguments ["--tree", "sums"]).run files (.piped none)
    let piped := (Command.ofArguments ["--tree"]).run files (.piped (some text))
    let typed := (Command.ofArguments ["--tree"]).run files (.typed (ls.map some))
    (filed.output = ['2', '\n', '2', '\n'] ∧ filed.complaints = complaints ∧ filed.status = 0) ∧
    (piped.output = ['2', '\n', '2', '\n'] ∧ piped.complaints = complaints ∧ piped.status = 0) ∧
    (typed.output = ['>', ' ', '2', '\n', '2', '\n', '>', ' ', '>', ' ', '>', ' '] ∧
      typed.complaints = complaints ∧ typed.status = 0) := by
  intro ls text files complaints filed piped typed
  obtain ⟨hfiled, hpiped, htyped, hline⟩ :=
    @run_lines ["--tree"] [] "sums" files ls (by decide) (by decide) (by decide) (by decide) rfl
  have hreduce : reduce ['1', '+', '1'] = .ok (.value 2) := by
    rw [reduce, parse, parseRaw_of_run rfl]
    rfl
  have hreduce' : reduce ['1', '/', '0'] = .error ⟨[⟨0, 3⟩], .divisionByZero⟩ := by
    rw [reduce, parse, parseRaw_of_run rfl]
    rfl
  let options : Options := { tree := true }
  have hsum : respond options ['1', '+', ' ', '1'] = ⟨['2', '\n', '2', '\n'], []⟩ :=
    have h := (hline ['1', '+', ' ', '1']).2.1 (by decide) (.value 2) hreduce
    Transcript.ext h.1 h.2
  have hblank : respond options [' '] = ⟨[], []⟩ :=
    have h := (hline [' ']).1 rfl
    Transcript.ext h.1 h.2
  have hquotient : respond options ['1', '/', '0', '\r'] = ⟨[], complaints⟩ :=
    have h := (hline ['1', '/', '0', '\r']).2.2 (by decide) _ hreduce'
    Transcript.ext h.1 h.2
  have houtput : (ls.flatMap fun line => (respond options line).output) =
      ['2', '\n', '2', '\n'] := by
    simp [ls, hsum, hblank, hquotient]
  have hcomplaints : (ls.flatMap fun line => (respond options line).complaints) = complaints := by
    simp [ls, hsum, hblank, hquotient]
  have hprompted : (ls.flatMap fun line => ['>', ' '] ++ (respond options line).output) ++
      ['>', ' '] = ['>', ' ', '2', '\n', '2', '\n', '>', ' ', '>', ' ', '>', ' '] := by
    simp [ls, hsum, hblank, hquotient]
  refine ⟨?_, ?_, ?_⟩
  · obtain ⟨hout, hcom, hstatus⟩ := hfiled (.piped none)
    exact ⟨hout.trans houtput, hcom.trans hcomplaints, hstatus⟩
  · obtain ⟨hout, hcom, hstatus⟩ := hpiped
    exact ⟨hout.trans houtput, hcom.trans hcomplaints, hstatus⟩
  · obtain ⟨hout, hcom, hstatus⟩ := htyped
    exact ⟨hout.trans hprompted, hcom.trans hcomplaints, hstatus⟩

end Reckon.Session
