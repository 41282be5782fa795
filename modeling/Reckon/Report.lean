import Reckon.Span

/-!
# Reports

A report tells the reader of a text about one error in it: a message, a label for each stretch of
the text that the error concerns, and maybe a hint on what to do.

What a kind of error has to say does not depend on where it occurred. It is a `Notice`, which a
`Report` then ties to spans (`Notice.report`). A notice either labels each span alike or has a fixed
list of labels, which are given out in order as long as there are both labels and spans.
-/

namespace Reckon

/-- The labels of a notice. -/
inductive Labels where
  /-- These labels, for as many spans. -/
  | fixed (texts : List String)
  /-- The same label for every span. -/
  | each (text : String)

/-- Ties labels to spans, in order. -/
def Labels.attach : Labels → List Span → List (Span × String)
  | .fixed texts, spans => spans.zip texts
  | .each text, spans => spans.map (·, text)

/-- What there is to say about an error, wherever it occurred. -/
structure Notice where
  message : String := "an error occurred"
  /-- What to say about each span. -/
  labels : Labels := .fixed [""]
  /-- A hint on how to put it right. -/
  help : Option String := none

/-- What there is to say about an error that occurred at certain places. -/
structure Report where
  message : String
  /-- The place to point at first. -/
  position : Nat
  /-- The spans that have a label, with their labels. -/
  labels : List (Span × String)
  /-- A hint on how to put it right. -/
  help : Option String

/-- Where an error begins: at its first span, or at the start of the text if it has none. -/
def positionOf (spans : List Span) : Nat :=
  (spans.head?.map Span.start).getD 0

/-- Ties a notice to the places that it concerns. -/
def Notice.report (notice : Notice) (spans : List Span) : Report where
  message := notice.message
  position := positionOf spans
  labels := notice.labels.attach spans
  help := notice.help

/-- The texts of the labels. A label may be empty; then it only marks its span. -/
def Report.labelTexts (report : Report) : List String :=
  (report.labels.map Prod.snd).filter (· ≠ "")

/-- The line that opens the report. -/
def Report.headline (report : Report) : String :=
  s!"Error: {report.message}"

/-- Marks text as the subject of a label: on a terminal it appears in green. -/
def highlight (text : String) : String :=
  "\x1b[38;2;52;235;152m" ++ text ++ "\x1b[0m"

end Reckon
