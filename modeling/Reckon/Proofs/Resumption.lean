import Reckon.Proofs.Reading
import Reckon.Proofs.Shift

/-!
# Using a parser again

A parser can be asked whether a term begins where it stands, and to read an expression with or
without anything behind it. Whatever was asked before, and whether or not that succeeded, it answers
like a new parser for the rest of the text (`Parser.answer_after`). All that an attempt leaves
behind is the place that it came to (`Parser.exists_answer_eq`): no parenthesis stays open
(`Outer.unwind_eq_zero`), and what is left of the tokens are the tokens of what is left of the text.
Reading them does not depend on where in a text they stand (`Parser.answer_shift`).
-/

namespace Reckon.Parser

/-- What a parser can be asked. -/
inductive Request where
  /-- Can a term begin here? -/
  | startsTerm
  /-- Read an expression, and leave what comes after it. -/
  | expression
  /-- Read an expression that takes up the rest of the text. -/
  | sentence
  deriving DecidableEq, Repr

/-- What a parser answers. -/
inductive Answer where
  | decision (startsTerm : Bool)
  | reading (result : Except Error Expr)

/-- The same answer in a text with `n` more bytes in front. -/
def Answer.shift (n : Nat) : Answer → Answer
  | decision startsTerm => decision startsTerm
  | reading result => reading (result.mapError (·.shift n))

/-- What a parser answers, and where it stands after that. -/
def answer (parser : Parser) : Request → Answer × Parser
  | .startsTerm => (.decision parser.startsTerm, parser)
  | .expression => (.reading parser.expression.1, parser.expression.2)
  | .sentence => (.reading parser.sentence.1, parser.sentence.2)

/-- The parser after some requests. -/
def after (parser : Parser) (requests : List Request) : Parser :=
  requests.foldl (fun parser request => (parser.answer request).2) parser

variable (n : Nat) (parser : Parser) (limits : Limits) (text : List Char)

/-! ### Asking elsewhere -/

theorem answer_shift (request : Request) :
    (parser.shift n).answer request =
      ((parser.answer request).1.shift n, (parser.answer request).2.shift n) := by
  cases request with
  | startsTerm => rw [answer, answer, startsTerm_shift, Answer.shift]
  | expression => rw [answer, answer, expression_shift, moved_id_eq_mapError, Answer.shift]
  | sentence => rw [answer, answer, sentence_shift, moved_id_eq_mapError, Answer.shift]

theorem after_shift (requests : List Request) :
    (parser.shift n).after requests = (parser.after requests).shift n := by
  induction requests generalizing parser with
  | nil => rfl
  | cons request requests ih =>
    have hstep : ((parser.shift n).answer request).2 = (parser.answer request).2.shift n := by
      rw [answer_shift]
    show ((parser.shift n).answer request).2.after requests = _
    rw [hstep, ih]
    rfl

/-! ### Where a parser stands -/

/-- A parser that has some of the tokens of a text left is a new one for the rest of the text, moved
by `shift`. -/
theorem exists_eq_shift {before : List Token} (hlimits : parser.limits = limits)
    (hstop : parser.cursor.stop = byteLength text)
    (hscan : Token.scan text = before ++ parser.cursor.rest) :
    ∃ s t, text = s ++ t ∧ parser = (ofChars t limits).shift (byteLength s) := by
  obtain ⟨s, t, rfl, hrest⟩ := Token.exists_eq_map_shift_of_scan_eq_append hscan
  refine ⟨s, t, rfl, Parser.ext ?_ hlimits⟩
  rw [byteLength_append] at hstop
  show Cursor.mk parser.cursor.rest parser.cursor.stop = _
  rw [hrest, hstop]
  rfl

/-- `answer` of a new parser leaves a new parser for the rest of the text. -/
theorem exists_answer_eq (request : Request) :
    ∃ s t, text = s ++ t ∧
      ((ofChars text limits).answer request).2 = (ofChars t limits).shift (byteLength s) := by
  cases request with
  | startsTerm => exact exists_eq_shift _ limits text rfl rfl (List.nil_append _).symm
  | expression | sentence =>
    obtain ⟨before, -, hscan, -⟩ := @Progress.exists_onward_of_run limits (byteLength text)
      (Token.scan text) _ (ofChars text limits).start _ _ rfl
    have hcursor := (ofChars text limits).measured_snd_cursor
    have hstop : (ofChars text limits).measured.2.cursor.stop = byteLength text := by
      rw [hcursor]
      rfl
    have hrest : Token.scan text = before ++ (ofChars text limits).measured.2.cursor.rest := by
      rw [hcursor]
      exact hscan
    exact exists_eq_shift (ofChars text limits).measured.2 limits text rfl hstop hrest

/-- So do any number of requests. -/
theorem exists_after_eq (requests : List Request) :
    ∃ s t, text = s ++ t ∧
      (ofChars text limits).after requests = (ofChars t limits).shift (byteLength s) := by
  induction requests generalizing text with
  | nil => exact exists_eq_shift _ limits text rfl rfl (List.nil_append _).symm
  | cons request requests ih =>
    obtain ⟨s, t, rfl, hanswer⟩ := exists_answer_eq limits text request
    obtain ⟨s', t', rfl, hafter⟩ := ih t
    refine ⟨s ++ s', t', (List.append_assoc ..).symm, ?_⟩
    show ((ofChars _ limits).answer request).2.after requests = _
    rw [hanswer, after_shift, hafter, shift_shift, byteLength_append]

/-- A new parser stands at the start of its text. -/
theorem position_ofChars : (ofChars text limits).cursor.position = 0 := by
  have htext := flatMap_chars_lexemes text
  show (Cursor.mk (Token.place 0 (lexemes text)) (byteLength text)).position = 0
  cases hlexemes : lexemes text with
  | nil =>
    rw [hlexemes] at htext
    rw [← htext]
    rfl
  | cons l ls =>
    rw [Token.place_cons]
    rfl

/-- `after` any requests, a parser answers like a new parser for the text from its position on, only
that the places of errors are counted from the start of the whole text. It never goes back. -/
theorem answer_after (requests : List Request) :
    ∃ before rest, text = before ++ rest ∧
      ((ofChars text limits).after requests).cursor.position = byteLength before ∧
      (∀ request, (((ofChars text limits).after requests).answer request).1 =
        ((ofChars rest limits).answer request).1.shift (byteLength before)) ∧
      ∀ more, ((ofChars text limits).after requests).cursor.position ≤
        ((ofChars text limits).after (requests ++ more)).cursor.position := by
  obtain ⟨before, rest, htext, hafter⟩ := exists_after_eq limits text requests
  have hposition : ∀ parser : Parser, (parser.shift (byteLength before)).cursor.position =
      byteLength before + parser.cursor.position := fun parser =>
    parser.cursor.position_shift (byteLength before)
  refine ⟨before, rest, htext, ?_, ?_, ?_⟩
  · rw [hafter, hposition, position_ofChars, Nat.add_zero]
  · intro request
    rw [hafter, answer_shift]
  · intro more
    have happend : (ofChars text limits).after (requests ++ more) =
        ((ofChars text limits).after requests).after more := List.foldl_append ..
    rw [happend, hafter, after_shift, hposition, hposition, position_ofChars, Nat.add_zero]
    exact Nat.le_add_right ..

/-- Where a third parenthesis is too much, the next expression can begin with it. -/
example : ((ofChars ['(', '(', '(', '1', ')'] ⟨2, 0⟩).after [.expression]).expression.1 =
    .ok (.value 1) := by cbv

end Reckon.Parser
