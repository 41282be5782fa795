import Reckon.Parser
import Reckon.Proofs.Frame

/-!
# Reading elsewhere in a text

Nothing in the reading of an expression depends on where in the text it stands: if all tokens stand
`n` bytes further on, so does everything that is made of them, and apart from that it is the same.
Each part of the reading is shown to commute with this shift, from the joining of two operands
(`Chain.join_shift`) to a run (`Progress.run_shift`) and to what a parser does
(`Parser.sentence_shift`).

A computation that can fail commutes with the shift if the result and the error do (`moved`), and
that carries over from its steps to the whole (`bind_eq_moved`, `foldlM_eq_moved`).
-/

namespace Reckon

/-! ### Computations that fail elsewhere -/

/-- What comes of a computation if everything stands `n` bytes further on. A result becomes what `f`
says, and an error moves along. -/
def moved {α β : Type} (n : Nat) (f : α → β) : Except Error α → Except Error β
  | .ok a => .ok (f a)
  | .error error => .error (error.shift n)

section Moved

variable {α β γ δ : Type} {n : Nat} {f : α → β}

theorem moved_id_eq_mapError (x : Except Error α) : moved n id x = x.mapError (·.shift n) := by
  cases x <;> rfl

theorem moved_map (x : Except Error α) (g : α → γ) :
    (moved n id x).map g = moved n id (x.map g) := by
  cases x <;> rfl

/-- A computation is `moved` if both of its steps are. -/
theorem bind_eq_moved {x : Except Error α} {y : Except Error β} {k : α → Except Error γ}
    {k' : β → Except Error δ} {g : γ → δ} (hx : y = moved n f x)
    (hk : ∀ a, k' (f a) = moved n g (k a)) : y >>= k' = moved n g (x >>= k) := by
  subst hx
  cases x with
  | ok a => exact hk a
  | error error => rfl

/-- A loop is `moved` if its steps are. -/
theorem foldlM_eq_moved {step : α → γ → Except Error α} {step' : β → δ → Except Error β} {g : γ → δ}
    (h : ∀ a c, step' (f a) (g c) = moved n f (step a c)) (cs : List γ) (a : α) :
    (cs.map g).foldlM step' (f a) = moved n f (cs.foldlM step a) := by
  induction cs generalizing a with
  | nil => rfl
  | cons c cs ih =>
    rw [List.map_cons, List.foldlM_cons, List.foldlM_cons]
    exact bind_eq_moved (h a c) ih

end Moved

/-! ### Chains -/

namespace Chain

/-- The same link with its operator `n` bytes further on. -/
def Link.shift (n : Nat) (link : Link) : Link :=
  { link with span := link.span.shift n }

variable (limit n : Nat)

theorem join_shift (link : Link) (right : Measured) :
    join limit (link.shift n) right = moved n id (join limit link right) := by
  unfold join
  dsimp only [Link.shift]
  split <;> rfl

theorem nest_shift (links : List Link) (last : Measured) :
    nest limit (links.map (Link.shift n)) last = moved n id (nest limit links last) :=
  foldlM_eq_moved (f := id) (fun right link => join_shift limit n link right) links last

theorem extend_shift (run : List Link) (link : Link) :
    extend limit (run.map (Link.shift n)) (link.shift n) =
      moved n (List.map (Link.shift n)) (extend limit run link) := by
  cases run with
  | nil => rfl
  | cons last run =>
    rw [List.map_cons, extend_cons, extend_cons]
    show (if sameRun last.op link.op = true then _ else _) = _
    split
    · rfl
    · exact bind_eq_moved (nest_shift limit n (last :: run) link.operand) fun left => rfl

theorem close_shift (links : List Link) (last : Measured) :
    close limit (links.map (Link.shift n)) last = moved n id (close limit links last) := by
  unfold close
  rw [← List.map_reverse]
  refine bind_eq_moved (foldlM_eq_moved (extend_shift limit n) links.reverse []) ?_
  intro run
  exact nest_shift limit n run last

end Chain

/-! ### Frames -/

namespace Frame

/-- The same chains with all operators `n` bytes further on. -/
def shift (n : Nat) (frame : Frame) : Frame where
  products := frame.products.map (Chain.Link.shift n)
  groups := frame.groups.map (Chain.Link.shift n)
  terms := frame.terms.map (Chain.Link.shift n)

variable (limits : Limits) (n : Nat) (frame : Frame) (term : Measured)

theorem closeGroup_shift :
    (frame.shift n).closeGroup limits term = moved n id (frame.closeGroup limits term) :=
  Chain.nest_shift limits.height n frame.terms term

theorem closeProduct_shift :
    (frame.shift n).closeProduct limits term = moved n id (frame.closeProduct limits term) :=
  bind_eq_moved (closeGroup_shift limits n frame term) (Chain.close_shift _ n frame.groups)

theorem close_shift :
    (frame.shift n).close limits term = moved n id (frame.close limits term) :=
  bind_eq_moved (closeProduct_shift limits n frame term) (Chain.close_shift _ n frame.products)

theorem operate_shift (op : Op) (span : Span) :
    (frame.shift n).operate limits term op (span.shift n) =
      moved n (shift n) (frame.operate limits term op span) := by
  cases op with
  | mul | div => exact bind_eq_moved (closeGroup_shift limits n frame term) fun group => rfl
  | add | sub => exact bind_eq_moved (closeProduct_shift limits n frame term) fun product => rfl

end Frame

namespace Outer

/-- The same frames with all operators `n` bytes further on. -/
def shift (n : Nat) (outer : Outer) : Outer where
  frames := outer.frames.map (Frame.shift n)
  depth := outer.depth
  depth_eq := by rw [List.length_map, outer.depth_eq]

theorem push_shift (n : Nat) (frame : Frame) (outer : Outer) :
    (outer.shift n).push (frame.shift n) = (outer.push frame).shift n := rfl

end Outer

/-! ### Tokens -/

namespace Token

variable (n : Nat) (token : Token)

theorem kind_shift : (token.shift n).kind = token.kind := rfl

theorem span_shift : (token.shift n).span = token.span.shift n := by
  show Span.mk (n + token.start) (n + token.start + byteLength token.chars) =
    ⟨n + token.start, n + (token.start + byteLength token.chars)⟩
  rw [Nat.add_assoc]

theorem unexpected_shift (expected : Production) :
    (token.shift n).unexpected expected = (token.unexpected expected).shift n := by
  rw [unexpected, span_shift]
  rfl

end Token

namespace Progress

/-- The same progress with all that was read `n` bytes further on. -/
def shift (n : Nat) : Progress → Progress
  | awaiting frame outer => awaiting (frame.shift n) (outer.shift n)
  | holding term frame outer => holding term (frame.shift n) (outer.shift n)

/-- The same move `n` bytes further on. -/
def Move.shift (n : Nat) : Move → Move
  | onward progress => onward (progress.shift n)
  | complete expr => complete expr

variable (limits : Limits) (n : Nat)

theorem enter_shift (frame : Frame) (outer : Outer) (token : Token) :
    enter limits (frame.shift n) (outer.shift n) (token.shift n) =
      moved n (shift n) (enter limits frame outer token) := by
  unfold enter
  rw [token.kind_shift, token.span_shift, token.unexpected_shift]
  cases token.kind with
  | openParen =>
    show (if outer.depth < limits.depth then _ else _) = _
    dsimp only
    split <;> rfl
  | number | letter | operator op | closeParen | symbol => rfl

theorem leave_shift (term : Measured) (frame : Frame) (outer : Outer) (token : Token) :
    leave limits term (frame.shift n) (outer.shift n) (token.shift n) =
      moved n (Move.shift n) (leave limits term frame outer token) := by
  refine bind_eq_moved (Frame.close_shift limits n frame term) ?_
  intro expr
  rcases outer.eq_empty_or_eq_push with rfl | ⟨frame', outer', rfl⟩
  · rfl
  · rw [← Outer.push_shift, Outer.pop?_push, Outer.pop?_push, token.kind_shift,
      token.unexpected_shift]
    dsimp only
    split <;> rfl

/-- `read` of a token that stands `n` bytes further on is `moved`. -/
theorem read_shift (progress : Progress) (token : Token) :
    (progress.shift n).read limits (token.shift n) =
      moved n (Move.shift n) (progress.read limits token) := by
  cases progress with
  | awaiting frame outer =>
    exact bind_eq_moved (enter_shift limits n frame outer token) fun progress => rfl
  | holding term frame outer =>
    unfold read
    dsimp only [shift]
    rw [token.kind_shift, token.span_shift]
    cases token.kind with
    | number | letter | openParen =>
      exact bind_eq_moved (enter_shift limits n (frame.juxtapose term token.span) outer token)
        fun progress => rfl
    | operator op =>
      exact bind_eq_moved (Frame.operate_shift limits n frame term op token.span) fun frame => rfl
    | closeParen | symbol => exact leave_shift limits n term frame outer token

theorem finish_shift (stop : Nat) (progress : Progress) :
    (progress.shift n).finish limits (n + stop) = moved n id (progress.finish limits stop) := by
  cases progress with
  | awaiting frame outer => rfl
  | holding term frame outer =>
    refine bind_eq_moved (Frame.close_shift limits n frame term) ?_
    intro expr
    rcases outer.eq_empty_or_eq_push with rfl | ⟨frame', outer', rfl⟩ <;> rfl

theorem outer_shift (progress : Progress) : (progress.shift n).outer = progress.outer.shift n := by
  cases progress <;> rfl

/-- `run` comes to the result further on that it comes to here, `moved`, with the same tokens
left. -/
theorem run_shift (stop : Nat) (progress : Progress) (tokens : List Token) :
    (progress.shift n).run limits (n + stop) (tokens.map (Token.shift n)) =
      (moved n id (progress.run limits stop tokens).1,
        (progress.run limits stop tokens).2.1.map (Token.shift n),
        (progress.run limits stop tokens).2.2.shift n) := by
  induction tokens generalizing progress with
  | nil => rw [List.map_nil, run, run, finish_shift, outer_shift, List.map_nil]
  | cons token tokens ih =>
    rw [List.map_cons, run, run, read_shift, outer_shift]
    cases progress.read limits token with
    | error error => rfl
    | ok move =>
      cases move with
      | onward next => exact ih next
      | complete expr => rfl

end Progress

/-! ### Parsers -/

/-- The same cursor in a text with `n` more bytes in front. -/
def Cursor.shift (n : Nat) (cursor : Cursor) : Cursor where
  rest := cursor.rest.map (Token.shift n)
  stop := n + cursor.stop

theorem Cursor.peek_shift (n : Nat) (cursor : Cursor) :
    (cursor.shift n).peek = cursor.peek.map (Token.shift n) := by
  rw [peek, peek, shift, List.head?_map]

theorem Cursor.span_shift (n : Nat) (cursor : Cursor) :
    (cursor.shift n).span = cursor.span.shift n := by
  rw [span, span, peek_shift]
  cases cursor.peek with
  | none => rfl
  | some token => exact token.span_shift n

theorem Cursor.position_shift (n : Nat) (cursor : Cursor) :
    (cursor.shift n).position = n + cursor.position := by
  rw [position, span_shift]
  rfl

theorem Cursor.error_shift (n : Nat) (cursor : Cursor) (fault : Fault) :
    (cursor.shift n).error fault = (cursor.error fault).shift n := by
  rw [error, span_shift]
  rfl

namespace Parser

/-- The same parser in a text with `n` more bytes in front. -/
def shift (n : Nat) (parser : Parser) : Parser :=
  { parser with cursor := parser.cursor.shift n }

variable (n : Nat) (parser : Parser)

theorem shift_shift (m : Nat) : (parser.shift n).shift m = parser.shift (m + n) := by
  have htokens : (Token.shift m ∘ Token.shift n) = Token.shift (m + n) := by
    funext token
    exact congrArg (Token.mk token.toLexeme) (Nat.add_assoc m n token.start).symm
  rw [shift, shift, shift, Cursor.shift, Cursor.shift, Cursor.shift, List.map_map, htokens,
    Nat.add_assoc]

theorem startsTerm_shift : (parser.shift n).startsTerm = parser.startsTerm := by
  unfold startsTerm Cursor.startsTerm Cursor.kind?
  rw [shift, Cursor.peek_shift]
  cases parser.cursor.peek <;> rfl

theorem measured_shift :
    (parser.shift n).measured = (moved n id parser.measured.1, parser.measured.2.shift n) := by
  have hrun : (parser.shift n).start.run parser.limits (n + parser.cursor.stop)
      (parser.cursor.rest.map (Token.shift n)) = _ :=
    Progress.run_shift parser.limits n parser.cursor.stop parser.start parser.cursor.rest
  refine Prod.ext ?_ (Parser.ext ?_ rfl)
  · rw [measured_fst, measured_fst]
    exact congrArg (·.1) hrun
  · rw [measured_snd_cursor]
    show _ = parser.measured.2.cursor.shift n
    rw [measured_snd_cursor]
    exact congrArg (fun r => Cursor.mk r.2.1 (n + parser.cursor.stop)) hrun

theorem expression_shift :
    (parser.shift n).expression =
      (moved n id parser.expression.1, parser.expression.2.shift n) := by
  unfold expression
  dsimp only
  rw [measured_shift, moved_map]

theorem sentence_shift :
    (parser.shift n).sentence = (moved n id parser.sentence.1, parser.sentence.2.shift n) := by
  unfold sentence
  rw [expression_shift]
  refine Prod.ext (bind_eq_moved rfl ?_) rfl
  intro expr
  dsimp only [shift]
  rw [Cursor.peek_shift]
  cases parser.expression.2.cursor.peek with
  | none => rfl
  | some token =>
    have herror := parser.expression.2.cursor.error_shift n (.trailingInput token.first)
    exact congrArg Except.error herror

end Parser

end Reckon
