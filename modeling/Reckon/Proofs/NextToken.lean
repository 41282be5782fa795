import Reckon.Parser

/-!
# What the next token decides

A step of a reading (`Progress.step`) asks for the kind of the next token again in every part of the
grammar that it passes through, and each of these parts, as well as `Cursor.advance`, has an error
of its own for a token that is missing or of another kind. Here it is shown that a step is one
decision. `Progress.read` says what a token does and `Progress.finish` what the end of the text
does, and a step does the one or the other (`Progress.step_cons`, `Progress.step_nil`).

In particular `Cursor.number`, `Cursor.letter` and `Cursor.atom` are only used where they succeed
(`Cursor.atom_of_number`, `Cursor.atom_of_letter`), and `Cursor.advance` only where there is a token
(`Cursor.advance_cons`). All that is left to go wrong is that a limit is passed or that a term is
missing: of all parts of the grammar, an error names no other one.

`Progress.run` repeats this decision for the tokens of a list, and is what `Progress.proceed` does
(`Progress.proceed_eq_run`). The theory of the reading is about `Progress.read`, `Progress.finish`
and `Progress.run`.
-/

namespace Reckon

/-- The error at a token that cannot begin what has to come. -/
def Token.unexpected (token : Token) (expected : Production) : Error :=
  ⟨[token.span], .unexpectedCharacter expected token.first⟩

/-- Goes on with an operator after the given term. -/
def Frame.operate (limits : Limits) (frame : Frame) (term : Measured) (op : Op) (span : Span) :
    Except Error Frame :=
  match op with
  | .mul | .div => do
    let group ← frame.closeGroup limits term
    return { products := frame.products, groups := ⟨group, op, span⟩ :: frame.groups }
  | .add | .sub => do
    let product ← frame.closeProduct limits term
    return { products := ⟨product, op, span⟩ :: frame.products }

namespace Progress

/-- Reads the first token of a term. -/
def enter (limits : Limits) (frame : Frame) (outer : Outer) (token : Token) :
    Except Error Progress :=
  match token.kind with
  | .number => .ok (.holding (.value (Text.ofDigits token.chars)) frame outer)
  | .letter => .ok (.holding (.var token.first) frame outer)
  | .openParen =>
    if outer.depth < limits.depth then .ok (.awaiting {} (outer.push frame))
    else .error ⟨[token.span], .nestingTooDeep limits.depth⟩
  | .operator _ | .closeParen | .symbol => .error (token.unexpected .term)

/-- Ends an expression before a token that cannot go on with it. If it stands in parentheses, only
the closing one will do. -/
def leave (limits : Limits) (term : Measured) (frame : Frame) (outer : Outer) (token : Token) :
    Except Error Move := do
  let expr ← frame.close limits term
  match outer.pop? with
  | none => return .complete expr
  | some (frame, outer) =>
    if token.kind = .closeParen then return .onward (.holding expr frame outer)
    else throw (token.unexpected .term)

/-- Reads a token. -/
def read (limits : Limits) (progress : Progress) (token : Token) : Except Error Move :=
  match progress with
  | .awaiting frame outer => return .onward (← enter limits frame outer token)
  | .holding term frame outer =>
    match token.kind with
    | .number | .letter | .openParen =>
      return .onward (← enter limits (frame.juxtapose term token.span) outer token)
    | .operator op =>
      return .onward (.awaiting (← frame.operate limits term op token.span) outer)
    | .closeParen | .symbol => leave limits term frame outer token

/-- Meets the end of the text, which is `stop` bytes long. -/
def finish (limits : Limits) (stop : Nat) (progress : Progress) : Except Error Measured :=
  let unexpected : Error := ⟨[.point stop], .unexpectedEnd .term⟩
  match progress with
  | .awaiting _ _ => .error unexpected
  | .holding term frame outer => do
    let expr ← frame.close limits term
    match outer.pop? with
    | none => return expr
    | some _ => throw unexpected

/-- Reads tokens until the expression is complete or an error is found, and says what is left and
which expressions around it are still open. -/
def run (limits : Limits) (stop : Nat) (progress : Progress) :
    List Token → Except Error Measured × List Token × Outer
  | [] => (progress.finish limits stop, [], progress.outer)
  | token :: tokens =>
    match progress.read limits token with
    | .ok (.onward progress) => progress.run limits stop tokens
    | .ok (.complete expr) => (.ok expr, token :: tokens, progress.outer)
    | .error error => (.error error, token :: tokens, progress.outer)

end Progress

variable {limits : Limits} {token : Token} {rest : List Token} {stop : Nat}

/-- Either no parenthesis is open or there is a last one that was opened. -/
theorem Outer.eq_empty_or_eq_push (outer : Outer) :
    outer = .empty ∨ ∃ (frame : Frame) (outer' : Outer), outer = outer'.push frame := by
  obtain ⟨frames, depth, rfl⟩ := outer
  match frames with
  | [] => exact Or.inl rfl
  | frame :: frames => exact Or.inr ⟨frame, ⟨frames, frames.length, rfl⟩, rfl⟩

/-! ### Cursors -/

namespace Cursor

@[simp]
theorem kind?_cons : (mk (token :: rest) stop).kind? = some token.kind := rfl

/-- `advance` never fails where there is a token, whatever is expected. -/
@[simp]
theorem advance_cons (expected : Production) :
    (mk (token :: rest) stop).advance expected = .ok (token, mk rest stop) := rfl

/-- `atom` never fails where the next token is a number. -/
theorem atom_of_number (h : token.kind = .number) :
    (mk (token :: rest) stop).atom =
      .ok (.value (Text.ofDigits token.chars), mk rest stop) := by
  unfold atom number leaf
  rw [kind?_cons, h]
  rfl

/-- `atom` never fails where the next token is a letter. -/
theorem atom_of_letter (h : token.kind = .letter) :
    (mk (token :: rest) stop).atom = .ok (.var token.first, mk rest stop) := by
  unfold atom letter leaf
  rw [kind?_cons, h]
  rfl

end Cursor

/-! ### Steps -/

theorem Frame.takeOperator_cons (frame : Frame) (term : Measured) (op : Op) :
    frame.takeOperator limits term op ⟨token :: rest, stop⟩ =
      (frame.operate limits term op token.span).map (·, ⟨rest, stop⟩) := by
  cases op with
  | mul | div =>
    unfold takeOperator operate
    cases frame.closeGroup limits term <;> rfl
  | add | sub =>
    unfold takeOperator operate
    cases frame.closeProduct limits term <;> rfl

namespace Progress

theorem takeTerm_cons (frame : Frame) (outer : Outer) :
    takeTerm limits frame outer ⟨token :: rest, stop⟩ =
      (enter limits frame outer token).map (·, ⟨rest, stop⟩) := by
  unfold takeTerm enter
  rw [Cursor.kind?_cons]
  cases hkind : token.kind with
  | number =>
    dsimp only
    rw [Cursor.atom_of_number hkind]
    rfl
  | letter =>
    dsimp only
    rw [Cursor.atom_of_letter hkind]
    rfl
  | openParen =>
    dsimp only
    split <;> rfl
  | operator op | closeParen | symbol => rfl

/-- Where a move leaves the cursor before a token. -/
def Move.cursor (token : Token) (rest : List Token) (stop : Nat) : Move → Cursor
  | onward _ => ⟨rest, stop⟩
  | complete _ => ⟨token :: rest, stop⟩

theorem takeEnd_cons (term : Measured) (frame : Frame) (outer : Outer) :
    takeEnd limits term frame outer ⟨token :: rest, stop⟩ =
      (leave limits term frame outer token).map fun move =>
        (move, move.cursor token rest stop) := by
  unfold takeEnd leave
  cases frame.close limits term with
  | error error => rfl
  | ok expr =>
    cases outer.pop? with
    | none => rfl
    | some around =>
      have hkind : (Cursor.mk (token :: rest) stop).kind? = some .closeParen ↔
          token.kind = .closeParen := by
        rw [Cursor.kind?_cons, Option.some_inj]
      by_cases hclose : token.kind = .closeParen
      · show (if _ then _ else _) = Except.map _ (if _ then _ else _)
        rw [if_pos (hkind.2 hclose), if_pos hclose]
        rfl
      · show (if _ then _ else _) = Except.map _ (if _ then _ else _)
        rw [if_neg (mt hkind.1 hclose), if_neg hclose]
        rfl

/-- Where a term has to come, `step` is `read` of the next token. -/
theorem step_awaiting_cons (frame : Frame) (outer : Outer) :
    step limits (.awaiting frame outer) ⟨token :: rest, stop⟩ =
      (read limits (.awaiting frame outer) token).map fun move =>
        (move, move.cursor token rest stop) := by
  unfold step read
  dsimp only
  rw [takeTerm_cons]
  cases enter limits frame outer token <;> rfl

/-- `read` does with a token that begins a term after an operand what it does after the link that
the operand becomes. -/
theorem read_holding_of_startsTerm (term : Measured) (frame : Frame) (outer : Outer)
    (h : token.kind.startsTerm = true) :
    read limits (.holding term frame outer) token =
      read limits (.awaiting (frame.juxtapose term token.span) outer) token := by
  unfold read
  cases hkind : token.kind with
  | number | letter | openParen => rfl
  | operator op => simp [hkind, Token.Kind.startsTerm] at h
  | closeParen | symbol => simp [hkind, Token.Kind.startsTerm] at h

/-- `step` is `read` of the next token. -/
theorem step_cons (progress : Progress) :
    progress.step limits ⟨token :: rest, stop⟩ =
      (progress.read limits token).map fun move => (move, move.cursor token rest stop) := by
  match progress with
  | .awaiting frame outer => exact step_awaiting_cons frame outer
  | .holding term frame outer =>
    have hstarts : (Cursor.mk (token :: rest) stop).startsTerm = token.kind.startsTerm := rfl
    by_cases hterm : token.kind.startsTerm = true
    · rw [read_holding_of_startsTerm term frame outer hterm]
      rw [← step_awaiting_cons]
      exact if_pos (hstarts.trans hterm)
    · unfold step read
      dsimp only
      rw [if_neg (hstarts.symm ▸ hterm), Cursor.kind?_cons]
      cases hkind : token.kind with
      | number | letter | openParen => simp [hkind, Token.Kind.startsTerm] at hterm
      | operator op =>
        dsimp only
        rw [Frame.takeOperator_cons]
        cases frame.operate limits term op token.span <;> rfl
      | closeParen | symbol => exact takeEnd_cons term frame outer

/-- `step` is `finish` at the end of the text. -/
theorem step_nil (progress : Progress) :
    progress.step limits ⟨[], stop⟩ =
      (progress.finish limits stop).map fun expr => (.complete expr, ⟨[], stop⟩) := by
  cases progress with
  | awaiting frame outer => rfl
  | holding term frame outer =>
    show takeEnd limits term frame outer ⟨[], stop⟩ = _
    unfold takeEnd finish
    dsimp only
    cases frame.close limits term with
    | error error => rfl
    | ok expr => rcases outer.eq_empty_or_eq_push with rfl | ⟨frame', outer', rfl⟩ <;> rfl

/-- `proceed` is `run` over the tokens that are left. -/
theorem proceed_eq_run (progress : Progress) (tokens : List Token) :
    progress.proceed limits ⟨tokens, stop⟩ =
      ((progress.run limits stop tokens).1, ⟨(progress.run limits stop tokens).2.1, stop⟩,
        (progress.run limits stop tokens).2.2) := by
  induction tokens generalizing progress with
  | nil =>
    have hstep := @step_nil limits stop progress
    rw [run]
    cases hfinish : progress.finish limits stop with
    | error error =>
      rw [hfinish] at hstep
      exact proceed_of_step_eq_error hstep
    | ok expr =>
      rw [hfinish] at hstep
      exact proceed_of_step_eq_complete hstep
  | cons token tokens ih =>
    have hstep := @step_cons limits token tokens stop progress
    rw [run]
    cases hread : progress.read limits token with
    | error error =>
      rw [hread] at hstep
      exact proceed_of_step_eq_error hstep
    | ok move =>
      rw [hread] at hstep
      cases move with
      | onward next => exact (proceed_of_step_eq_onward hstep).trans (ih next)
      | complete expr => exact proceed_of_step_eq_complete hstep

end Progress

namespace Parser

variable (parser : Parser)

theorem measured_fst : parser.measured.1 =
    (parser.start.run parser.limits parser.cursor.stop parser.cursor.rest).1 :=
  congrArg (·.1) (Progress.proceed_eq_run parser.start parser.cursor.rest)

theorem measured_snd_cursor : parser.measured.2.cursor =
    ⟨(parser.start.run parser.limits parser.cursor.stop parser.cursor.rest).2.1,
      parser.cursor.stop⟩ :=
  congrArg (·.2.1) (Progress.proceed_eq_run parser.start parser.cursor.rest)

end Parser

end Reckon
