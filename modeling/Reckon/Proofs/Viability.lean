import Reckon.Proofs.Acceptance

/-!
# Where syntax errors are found

A text is *viable* if some expression begins with it. A syntax error is found at the first character
that makes the text hopeless: what stands before it is viable, and with it no longer
(`syntax_error_of_parseRaw_eq_error`).

Which token may come next depends on little more than what came right before, namely on whether a
term has to come and on the number of open parentheses. This is a `Stance`. The lexemes of a phrase
may follow in any stance and leave a term at hand (`Phrase.steps_lexemes`), so no expression begins
with lexemes that may not follow each other. The reading agrees with that: it goes on exactly with
the tokens that may come next, or else a limit is passed (`Progress.read_agrees`).

As long as it goes on, the text is viable, since a letter and the closing parentheses that are
missing complete what was read (`Progress.ReadFrom.exists_phrase`).
-/

namespace Reckon

/-- A text that some expression begins with. -/
def Viable (text : List Char) : Prop :=
  ∃ s, Derives .expression s ∧ text <+: s

/-! ### Stances -/

/-- What has to be known of the lexemes before a place to say which ones may follow. -/
inductive Stance where
  /-- A term has to come, inside of so many open parentheses. -/
  | awaiting (depth : Nat)
  /-- A term has come, inside of so many open parentheses. -/
  | holding (depth : Nat)
  deriving DecidableEq, Repr

namespace Stance

/-- Nothing has come yet. -/
def start : Stance := .awaiting 0

/-- The number of open parentheses. -/
def depth : Stance → Nat
  | awaiting depth | holding depth => depth

/-- The stance after a lexeme of a kind, if one may come here. -/
def step (stance : Stance) (kind : Token.Kind) : Option Stance :=
  match kind with
  | .number | .letter => some (.holding stance.depth)
  | .openParen => some (.awaiting (stance.depth + 1))
  | .operator _ =>
    match stance with
    | holding depth => some (.awaiting depth)
    | awaiting _ => none
  | .closeParen =>
    match stance with
    | holding (depth + 1) => some (.holding depth)
    | holding 0 | awaiting _ => none
  | .symbol => none

/-- The stance after lexemes, if they may come here. -/
def steps (stance : Stance) (ls : List Lexeme) : Option Stance :=
  ls.foldlM (fun stance l => stance.step (.ofChar l.first)) stance

@[simp]
theorem steps_nil (stance : Stance) : stance.steps [] = some stance := rfl

@[simp]
theorem steps_cons (stance : Stance) (l : Lexeme) (ls : List Lexeme) :
    stance.steps (l :: ls) = (stance.step (.ofChar l.first)).bind (·.steps ls) := rfl

@[simp]
theorem steps_append (stance : Stance) (ls ls' : List Lexeme) :
    stance.steps (ls ++ ls') = (stance.steps ls).bind (·.steps ls') :=
  List.foldlM_append

/-- `step` never refuses a digit. -/
theorem isDigit_eq_false_of_step_eq_none {stance : Stance} {c : Char}
    (h : stance.step (.ofChar c) = none) : c.isDigit = false := by
  by_contra hc
  rw [Bool.not_eq_false] at hc
  rw [Token.Kind.ofChar_of_isDigit hc] at h
  contradiction

/-- `step` takes the first token of a term after another term as it does where a term has to
come. -/
theorem step_holding_of_startsTerm {kind : Token.Kind} (h : kind.startsTerm = true) (depth : Nat) :
    (holding depth).step kind = (awaiting depth).step kind := by
  cases kind <;> first | rfl | contradiction

/-- `steps` takes the `sign` of an operator after a term, and keeps the depth. -/
theorem exists_steps_sign (tier : Tier) (op : Op) (depth : Nat) :
    ∃ stance, (holding depth).steps (tier.sign op) = some stance ∧ stance.depth = depth := by
  cases tier with
  | group => exact ⟨.holding depth, rfl, rfl⟩
  | product | expression => exact ⟨.awaiting depth, by simp [Tier.sign, Lexeme.ofChar, step], rfl⟩

end Stance

/-- `steps` takes the `lexemes` of a phrase anywhere, and then holds a term between the same
parentheses. -/
theorem Phrase.steps_lexemes {level : Option Tier} (p : Phrase level) (stance : Stance) :
    stance.steps p.lexemes = some (.holding stance.depth) := by
  induction p generalizing stance with
  | number first more h =>
    simp [lexemes, Stance.step, Token.Kind.ofChar_of_isDigit (h first (by simp))]
  | letter name h => simp [lexemes, Lexeme.ofChar, Stance.step, Token.Kind.ofChar_of_isAlpha h]
  | parentheses inner ih => simp [lexemes, Lexeme.ofChar, Stance.step, Stance.depth, ih]
  | only operand ih => exact ih stance
  | @link tier operand op h rest ih ihrest =>
    obtain ⟨next, hsign, hdepth⟩ := Stance.exists_steps_sign tier op stance.depth
    rw [lexemes, Stance.steps_append, ih, Option.bind_some, Stance.steps_append, hsign,
      Option.bind_some, ihrest, hdepth]

theorem steps_lexemes_of_derives {text : List Char} (h : Derives .expression text) :
    Stance.start.steps (lexemes text) = some (.holding 0) := by
  obtain ⟨p, hp⟩ := Phrase.derives_expression_iff.1 h
  rw [← hp, p.steps_lexemes]
  rfl

/-- A text is not `Viable` with a character behind it that `step` refuses. -/
theorem not_viable_of_step_eq_none {text : List Char} {stance : Stance} {c : Char}
    (htext : Stance.start.steps (lexemes text) = some stance)
    (hstep : stance.step (.ofChar c) = none) : ¬ Viable (text ++ [c]) := by
  rintro ⟨_, hderives, rest, rfl⟩
  have hsteps := steps_lexemes_of_derives hderives
  rw [List.append_assoc, List.singleton_append,
    lexemes_append_cons (Stance.isDigit_eq_false_of_step_eq_none hstep), Stance.steps_append, htext,
    Option.bind_some, Stance.steps_cons] at hsteps
  rw [show (Lexeme.ofChar c).first = c from rfl, hstep] at hsteps
  contradiction

/-! ### The stance of a reading -/

variable {limits : Limits}

/-- The error says that a limit was passed. -/
def Error.PassesLimit (limits : Limits) (error : Error) : Prop :=
  error.fault = .nestingTooDeep limits.depth ∨ error.fault = .expressionTooDeep limits.height

namespace Progress

/-- Whether a term has to come, and how many parentheses are open. -/
def stance : Progress → Stance
  | .awaiting _ outer => .awaiting outer.depth
  | .holding _ _ outer => .holding outer.depth

/-- What comes of a token agrees with the stance that it leads to: if there is one the token is
read. If not, it ends the expression, or it is unexpected where a term is due. -/
def Agrees (limits : Limits) (token : Token) (next : Option Stance) : Except Error Move → Prop
  | .ok (.onward progress) => next = some progress.stance
  | .ok (.complete _) => next = none
  | .error error => error.PassesLimit limits ∨ (error = token.unexpected .term ∧ next = none)

/-- `read` agrees with `step` where a term has to come. -/
theorem read_awaiting_agrees (frame : Frame) (outer : Outer) (token : Token) :
    Agrees limits token ((Stance.awaiting outer.depth).step token.kind)
      (read limits (.awaiting frame outer) token) := by
  unfold read enter
  cases token.kind with
  | number | letter => exact rfl
  | openParen =>
    dsimp only
    split
    · exact rfl
    · exact Or.inl (Or.inl rfl)
  | operator op | closeParen | symbol => exact Or.inr ⟨rfl, rfl⟩

/-- `operate` agrees with `step`. -/
theorem operate_agrees (term : Measured) (frame : Frame) (outer : Outer) (token : Token) (op : Op) :
    Agrees limits token ((Stance.holding outer.depth).step (.operator op))
      (frame.operate limits term op token.span >>= fun frame =>
        .ok (.onward (.awaiting frame outer))) := by
  rw [Frame.operate_eq]
  cases hclose : frame.closeAt limits term op.tier.operand with
  | error error => exact Or.inl (Or.inr (Frame.fault_of_closeAt_eq_error hclose))
  | ok left => exact rfl

/-- `leave` agrees with `step`. -/
theorem leave_agrees (term : Measured) (frame : Frame) (outer : Outer) {token : Token}
    {kind : Token.Kind} (hkind : token.kind = kind) (hends : kind = .closeParen ∨ kind = .symbol) :
    Agrees limits token ((Stance.holding outer.depth).step kind)
      (leave limits term frame outer token) := by
  unfold leave
  cases hclose : frame.close limits term with
  | error error =>
    exact Or.inl (Or.inr (@Frame.fault_of_closeAt_eq_error _ _ _ (some .expression) _ hclose))
  | ok expr =>
    rcases outer.eq_empty_or_eq_push with rfl | ⟨frame', outer', rfl⟩
    · rcases hends with rfl | rfl <;> exact rfl
    · rw [hkind]
      rcases hends with rfl | rfl
      · exact rfl
      · exact Or.inr ⟨rfl, rfl⟩

/-- `read` agrees with `step`: unless a limit is passed, it reads a token exactly if that may come
next. -/
theorem read_agrees (progress : Progress) (token : Token) :
    Agrees limits token (progress.stance.step token.kind) (progress.read limits token) := by
  match progress with
  | .awaiting frame outer => exact read_awaiting_agrees frame outer token
  | .holding term frame outer =>
    by_cases hstart : token.kind.startsTerm = true
    · rw [read_holding_of_startsTerm term frame outer hstart, stance,
        Stance.step_holding_of_startsTerm hstart]
      exact read_awaiting_agrees (frame.juxtapose term token.span) outer token
    · unfold read
      cases hkind : token.kind with
      | number | letter | openParen => simp [hkind, Token.Kind.startsTerm] at hstart
      | operator op => exact operate_agrees term frame outer token op
      | closeParen => exact leave_agrees term frame outer hkind (Or.inl rfl)
      | symbol => exact leave_agrees term frame outer hkind (Or.inr rfl)

theorem step_eq_none_of_read_eq_error {progress : Progress} {token : Token} {error : Error}
    (h : progress.read limits token = .error error) :
    error.PassesLimit limits ∨
      (error = token.unexpected .term ∧ progress.stance.step token.kind = none) := by
  have hagrees := @read_agrees limits progress token
  rwa [h] at hagrees

theorem step_eq_none_of_read_eq_complete {progress : Progress} {token : Token} {m : Measured}
    (h : progress.read limits token = .ok (.complete m)) :
    progress.stance.step token.kind = none := by
  have hagrees := @read_agrees limits progress token
  rwa [h] at hagrees

theorem step_eq_some_of_read_eq_onward {progress next : Progress} {token : Token}
    (h : progress.read limits token = .ok (.onward next)) :
    progress.stance.step token.kind = some next.stance := by
  have hagrees := @read_agrees limits progress token
  rwa [h] at hagrees

/-- `finish` fails, unless a limit is passed, only where a term has to come or a parenthesis is
open. -/
theorem stance_ne_of_finish_eq_error {progress : Progress} {stop : Nat} {error : Error}
    (h : progress.finish limits stop = .error error) :
    error.PassesLimit limits ∨
      (error = ⟨[.point stop], .unexpectedEnd .term⟩ ∧ progress.stance ≠ .holding 0) := by
  match progress with
  | .awaiting frame outer =>
    obtain rfl := Except.error.inj h
    exact Or.inr ⟨rfl, nofun⟩
  | .holding term frame outer =>
    rcases bind_eq_error_iff.1 h with hclose | ⟨expr, -, h⟩
    · exact Or.inl (Or.inr (@Frame.fault_of_closeAt_eq_error _ _ _ (some .expression) _ hclose))
    · rcases outer.eq_empty_or_eq_push with rfl | ⟨frame', outer', rfl⟩
      · contradiction
      · obtain rfl := Except.error.inj h
        exact Or.inr ⟨rfl, nofun⟩

/-- `steps` takes the tokens on the way. -/
theorem Onward.steps {progress last : Progress} {tokens : List Token}
    (h : progress.Onward limits tokens last) :
    progress.stance.steps (tokens.map Token.toLexeme) = some last.stance := by
  induction h with
  | nil progress => rfl
  | @cons progress _ _ token _ hread _ ih =>
    rw [List.map_cons, Stance.steps_cons]
    show (progress.stance.step token.kind).bind _ = _
    rw [step_eq_some_of_read_eq_onward hread, Option.bind_some, ih]

end Progress

/-! ### Completing what was read -/

/-- What a frame was `ReadFrom` is an expression with a term behind it. -/
theorem Frame.ReadFrom.exists_phrase {depth : Nat} {frame : Frame} {ls : List Lexeme}
    (h : frame.ReadFrom limits depth ls) (p : Phrase none) (hp : depth + p.depth ≤ limits.depth) :
    ∃ q : Phrase (some .expression), q.lexemes = ls ++ p.lexemes ∧
      depth + q.depth ≤ limits.depth := by
  obtain ⟨products, groups, terms, hproducts, hgroups, hterms, rfl⟩ := h
  obtain ⟨group, hgroup, -, hdepth⟩ := hterms.exists_phrase (.only p) hp
  obtain ⟨product, hproduct, -, hdepth⟩ := hgroups.exists_phrase (.only group) hdepth
  obtain ⟨q, hq, -, hdepth⟩ := hproducts.exists_phrase (.only product) hdepth
  refine ⟨q, ?_, hdepth⟩
  have hgroup : group.lexemes = terms ++ p.lexemes := hgroup
  have hproduct : product.lexemes = groups ++ group.lexemes := hproduct
  have hq : q.lexemes = products ++ product.lexemes := hq
  rw [hq, hproduct, hgroup]
  simp only [List.append_assoc]

/-- What frames were read from is the beginning of an expression, which goes on with the one inside
and the closing parentheses. -/
theorem FramesReadFrom.exists_phrase {frames : List Frame} {ls : List Lexeme}
    (h : FramesReadFrom limits frames ls) (p : Phrase (some .expression))
    (hp : frames.length + p.depth ≤ limits.depth) :
    ∃ (q : Phrase (some .expression)) (rest : List Lexeme),
      q.lexemes = ls ++ (p.lexemes ++ rest) := by
  induction h generalizing p with
  | nil => exact ⟨p, [], by simp⟩
  | @cons frame frames ls ls' hframe _ ih =>
    have hdepth : frames.length + (Phrase.parentheses p).depth ≤ limits.depth := by
      show frames.length + (p.depth + 1) ≤ limits.depth
      rw [List.length_cons] at hp
      omega
    obtain ⟨outer, houter, hdepth⟩ := hframe.exists_phrase (.parentheses p) hdepth
    obtain ⟨q, rest, hq⟩ := ih outer hdepth
    refine ⟨q, .ofChar ')' :: rest, ?_⟩
    rw [hq, houter, Phrase.lexemes]
    simp

/-- A term and the closing parentheses complete what is open. -/
theorem exists_phrase_of_term {frame : Frame} {outer : Outer} {ls ls' : List Lexeme}
    (houter : FramesReadFrom limits outer.frames ls)
    (hframe : frame.ReadFrom limits outer.depth ls') (p : Phrase none)
    (hp : outer.depth + p.depth ≤ limits.depth) :
    ∃ (q : Phrase (some .expression)) (rest : List Lexeme),
      q.lexemes = ls ++ (ls' ++ (p.lexemes ++ rest)) := by
  obtain ⟨inner, hinner, hdepth⟩ := hframe.exists_phrase p hp
  rw [← outer.depth_eq] at hdepth
  obtain ⟨q, rest, hq⟩ := houter.exists_phrase inner hdepth
  exact ⟨q, rest, by rw [hq, hinner, List.append_assoc]⟩

/-- What was read is the beginning of an expression. -/
theorem Progress.ReadFrom.exists_phrase {progress : Progress} {ls : List Lexeme}
    (h : progress.ReadFrom limits ls) :
    ∃ (q : Phrase (some .expression)) (rest : List Lexeme), q.lexemes = ls ++ rest := by
  cases h with
  | awaiting houter hdepth hframe =>
    -- any term will do
    let term : Phrase none := .letter 'x' rfl
    obtain ⟨q, rest, hq⟩ := exists_phrase_of_term houter hframe term hdepth
    exact ⟨q, term.lexemes ++ rest, by rw [hq, List.append_assoc]⟩
  | holding houter _ hframe hterm =>
    obtain ⟨q, rest, hq⟩ := exists_phrase_of_term houter hframe _ hterm.depth_le
    exact ⟨q, rest, by rw [hq]; simp only [List.append_assoc]⟩

/-- A text is `Viable` as long as it is read. -/
theorem Progress.ReadFrom.viable {progress : Progress} {text : List Char}
    (h : progress.ReadFrom limits (lexemes text)) : Viable text := by
  obtain ⟨q, rest, hq⟩ := h.exists_phrase
  refine ⟨q.chars, q.derives, rest.flatMap Lexeme.chars, ?_⟩
  rw [Phrase.chars, hq, List.flatMap_append, flatMap_chars_lexemes]

/-! ### Syntax errors -/

/-- The error is at the character `found` of the text, behind `before`. -/
structure Error.IsAt (error : Error) (text before : List Char) (found : Char) : Prop where
  exists_eq : ∃ after, text = before ++ found :: after
  spans_eq : error.spans = [⟨byteLength before, byteLength before + found.utf8Size⟩]

/-- A text is no expression because its reading comes to an error, or because it goes on after the
expression. -/
theorem exists_stops_of_parseRaw_eq_error {text : List Char} {error : Error}
    (h : parseRaw limits text = .error error) :
    ∃ before last rest, Token.scan text = before ++ rest ∧
      Progress.start.Onward limits before last ∧
        (last.Stops limits (byteLength text) (.error error) rest ∨
          ∃ m token tokens, rest = token :: tokens ∧
            last.Stops limits (byteLength text) (.ok m) rest ∧
              error = ⟨[token.span], .trailingInput token.first⟩) := by
  obtain ⟨⟨result, rest, outer⟩, hrun⟩ :
      ∃ r, Progress.start.run limits (byteLength text) (Token.scan text) = r := ⟨_, rfl⟩
  rw [parseRaw_of_run hrun] at h
  obtain ⟨before, last, hscan, honward, hstops⟩ := Progress.exists_onward_of_run hrun
  refine ⟨before, last, rest, hscan, honward, ?_⟩
  cases result with
  | error e =>
    obtain rfl := Except.error.inj h
    exact Or.inl hstops
  | ok m =>
    match rest, hstops, h with
    | token :: tokens, hstops, h =>
      exact Or.inr ⟨m, token, tokens, rfl, hstops, (Except.error.inj h).symm⟩

/-- A token that may not come next is a character that leaves no hope. -/
theorem exists_isAt_of_step_eq_none {text : List Char} {before rest : List Token} {token : Token}
    {stance : Stance} (hscan : Token.scan text = before ++ token :: rest)
    (hsteps : Stance.start.steps (before.map Token.toLexeme) = some stance)
    (hstep : stance.step token.kind = none) (fault : Fault) :
    ∃ s, lexemes s = before.map Token.toLexeme ∧
      Error.IsAt ⟨[token.span], fault⟩ text s token.first ∧ ¬ Viable (s ++ [token.first]) := by
  obtain ⟨s, t, htext, hs, hspan⟩ := Token.exists_eq_append_of_scan_eq_append hscan
    (Stance.isDigit_eq_false_of_step_eq_none hstep)
  rw [← hs] at hsteps
  exact ⟨s, hs, ⟨⟨t, htext⟩, congrArg (fun span => [span]) hspan⟩,
    not_viable_of_step_eq_none hsteps hstep⟩

/-- A syntax error of `parseRaw` is at the first character that leaves no hope. What stands before
it is `Viable`, and if the character is trailing input, it is an expression itself. With the
character, the text is not `Viable` any more. At the end of the text there is still hope, but the
text is no expression. What is missing is always a term. All other errors say which limit was
passed. -/
theorem syntax_error_of_parseRaw_eq_error {text : List Char} {error : Error}
    (h : parseRaw limits text = .error error) :
    match error.fault with
    | .unexpectedCharacter expected found =>
      expected = .term ∧ ∃ before, error.IsAt text before found ∧
        Viable before ∧ ¬ Viable (before ++ [found])
    | .trailingInput found =>
      ∃ before, error.IsAt text before found ∧
        Derives .expression before ∧ ¬ Viable (before ++ [found])
    | .unexpectedEnd expected =>
      expected = .term ∧ error.spans = [.point (byteLength text)] ∧
        ¬ Derives .expression text ∧ Viable text
    | .nestingTooDeep _ | .expressionTooDeep _ => error.PassesLimit limits
    | .divisionByZero => False := by
  by_cases hlimit : error.PassesLimit limits
  · obtain hfault | hfault := id hlimit <;> rw [hfault] <;> exact hlimit
  obtain ⟨before, last, rest, hscan, honward, hstops⟩ := exists_stops_of_parseRaw_eq_error h
  have hwell : ∀ token ∈ before ++ rest, token.toLexeme.WellFormed := by
    rw [← hscan]
    exact fun _ => Token.wellFormed_of_mem_scan
  rw [List.forall_mem_append] at hwell
  have hread : last.ReadFrom limits (before.map Token.toLexeme) :=
    honward.readFrom hwell.1 Progress.readFrom_start
  have hsteps : Stance.start.steps (before.map Token.toLexeme) = some last.stance := honward.steps
  rcases hstops with hstops | ⟨m, token, tokens, rfl, hstops, rfl⟩
  · match rest, hstops with
    | [], hstops =>
      obtain ⟨rfl, hstance⟩ := (Progress.stance_ne_of_finish_eq_error hstops).resolve_left hlimit
      have htext : before.map Token.toLexeme = lexemes text := by
        rw [← Token.map_toLexeme_scan, hscan, List.append_nil]
      rw [htext] at hread hsteps
      refine ⟨rfl, rfl, ?_, hread.viable⟩
      intro hderives
      rw [steps_lexemes_of_derives hderives] at hsteps
      exact hstance (Option.some.inj hsteps).symm
    | token :: tokens, hstops =>
      obtain ⟨rfl, hstep⟩ := (Progress.step_eq_none_of_read_eq_error hstops).resolve_left hlimit
      obtain ⟨s, hs, hat, hnot⟩ := exists_isAt_of_step_eq_none hscan hsteps hstep
        (.unexpectedCharacter .term token.first)
      rw [← hs] at hread
      exact ⟨rfl, s, hat, hread.viable, hnot⟩
  · have hstep : last.stance.step token.kind = none :=
      Progress.step_eq_none_of_read_eq_complete hstops
    obtain ⟨s, hs, hat, hnot⟩ := exists_isAt_of_step_eq_none hscan hsteps hstep
      (.trailingInput token.first)
    obtain ⟨p, -, hp⟩ := hstops.readFrom hwell.2 hread
    exact ⟨s, hat, Phrase.derives_expression_iff.2 ⟨p, hp.symm.trans hs.symm⟩, hnot⟩

/-- In `(1+)` the parenthesis, and in `2é` the letter, which takes two bytes, leaves no hope; `(a`
could still become an expression. -/
theorem not_viable_sum_without_end :
    ¬ Viable ['(', '1', '+', ')'] ∧ ¬ Viable ['2', 'é'] ∧
      ¬ Derives .expression ['(', 'a'] ∧ Viable ['(', 'a'] := by
  have hcharacter : parseRaw {} ['(', '1', '+', ')'] =
      .error ⟨[⟨3, 4⟩], .unexpectedCharacter .term ')'⟩ := parseRaw_of_run rfl
  have htrailing : parseRaw {} ['2', 'é'] = .error ⟨[⟨1, 3⟩], .trailingInput 'é'⟩ :=
    parseRaw_of_run rfl
  have hend : parseRaw {} ['(', 'a'] = .error ⟨[⟨2, 2⟩], .unexpectedEnd .term⟩ :=
    parseRaw_of_run rfl
  obtain ⟨-, before, ⟨⟨after, htext⟩, -⟩, -, hnot⟩ := syntax_error_of_parseRaw_eq_error hcharacter
  obtain ⟨before', ⟨⟨after', htext'⟩, -⟩, -, hnot'⟩ := syntax_error_of_parseRaw_eq_error htrailing
  obtain ⟨-, -, hderives, hviable⟩ := syntax_error_of_parseRaw_eq_error hend
  obtain ⟨rfl, -⟩ : before = ['(', '1', '+'] ∧ after = [] := by
    simpa [List.cons_eq_append_iff] using htext
  obtain ⟨rfl, -⟩ : before' = ['2'] ∧ after' = [] := by
    simpa [List.cons_eq_append_iff] using htext'
  exact ⟨hnot, hnot', hderives, hviable⟩

end Reckon
