import Reckon.Cursor
import Reckon.Parser.Chain
import Reckon.Text.Decimal

/-!
# Reading an expression token by token

The grammar of expressions is

```text
expression = product { ("+" | "-") product }
product    = group { ("*" | "/") group }
group      = term { term }
term       = number | letter | "(" expression ")"
```

so an expression is a chain of products, a product a chain of groups, and a group a chain of terms
side by side. It is read from the left, one token at a time and without ever going back. What was
read of the innermost expression that is still open is a `Frame`, the links of its three chains. The
frames of the expressions around it wait on a stack, one for each open parenthesis. A `Progress` is
such a stack of frames with or without an operand at hand: without one a term has to come, and with
one the next token decides which of the chains go on and which are closed.

`Progress.step` looks at the next token and moves the cursor over it, or finds that the expression
is complete. `Progress.proceed` takes steps until it is, or until there is an error, and leaves the
token that decided this unread.

Each part of the grammar looks for its own token, even where the part around it has looked at the
same one: `Cursor.atom` is only asked for a number or a letter, looks which of them it is, and then
`Cursor.number` or `Cursor.letter` looks again. Moving over a token can fail as well, with an error
that names the part of the grammar (`Cursor.advance`). So the steps have more ways to fail than any
text brings about.
-/

namespace Reckon

/-- Bounds on the expressions that are accepted. -/
structure Limits where
  /-- The number of parentheses that may be open at once. -/
  depth : Nat := 256
  /-- The height of the tree that is built. -/
  height : Nat := 512
  deriving DecidableEq, Repr

/-! ### Numbers and letters -/

namespace Cursor

/-- Reads a token of the only kind that there is of `expected`, and makes a leaf of it. -/
def leaf (cursor : Cursor) (kind : Token.Kind) (expected : Production) (make : Token → Measured) :
    Except Error (Measured × Cursor) :=
  if cursor.kind? = some kind then do
    let (token, next) ← cursor.advance expected
    return (make token, next)
  else .error (cursor.unexpected expected)

/-- Reads a number. -/
def number (cursor : Cursor) : Except Error (Measured × Cursor) :=
  cursor.leaf .number .number fun token => .value (Text.ofDigits token.chars)

/-- Reads a letter. -/
def letter (cursor : Cursor) : Except Error (Measured × Cursor) :=
  cursor.leaf .letter .letter fun token => .var token.first

/-- Reads a number or a letter. -/
def atom (cursor : Cursor) : Except Error (Measured × Cursor) :=
  match cursor.kind? with
  | some .number => cursor.number
  | some .letter => cursor.letter
  | _ => .error (cursor.unexpected .atom)

theorem moves_leaf (cursor : Cursor) (kind : Token.Kind) (expected : Production)
    (make : Token → Measured) : cursor.Moves (cursor.leaf kind expected make) := by
  unfold leaf
  split
  · exact (cursor.moves_advance expected).bind fun _ _ => ⟨_, rfl⟩
  · exact cursor.moves_error _

theorem moves_atom (cursor : Cursor) : cursor.Moves cursor.atom := by
  unfold atom
  split
  · exact moves_leaf _ _ _ _
  · exact moves_leaf _ _ _ _
  · exact cursor.moves_error _

end Cursor

/-! ### Frames -/

/-- The chains of an expression that was read up to a certain operand. In each of them the last link
comes first. -/
structure Frame where
  /-- The products before the current one. -/
  products : List Chain.Link := []
  /-- The groups before the current one in the current product. -/
  groups : List Chain.Link := []
  /-- The terms before the operand in the current group. -/
  terms : List Chain.Link := []

namespace Frame

/-- Ends the group with the given term. -/
def closeGroup (limits : Limits) (frame : Frame) (term : Measured) : Except Error Measured :=
  Chain.nest limits.height frame.terms term

/-- Ends the product with the given term. -/
def closeProduct (limits : Limits) (frame : Frame) (term : Measured) : Except Error Measured := do
  let group ← frame.closeGroup limits term
  Chain.close limits.height frame.groups group

/-- Ends the expression with the given term. -/
def close (limits : Limits) (frame : Frame) (term : Measured) : Except Error Measured := do
  let product ← frame.closeProduct limits term
  Chain.close limits.height frame.products product

/-- Goes on with another term, which begins at the span, in the group of the given one. -/
def juxtapose (frame : Frame) (term : Measured) (span : Span) : Frame :=
  { frame with terms := ⟨term, .mul, span⟩ :: frame.terms }

/-- Goes on after the given term with an operator, the next token. -/
def takeOperator (limits : Limits) (frame : Frame) (term : Measured) (op : Op) (cursor : Cursor) :
    Except Error (Frame × Cursor) :=
  match op with
  | .mul | .div => do
    let group ← frame.closeGroup limits term
    let (token, next) ← cursor.advance .product
    let groups := ⟨group, op, token.span⟩ :: frame.groups
    return ({ products := frame.products, groups }, next)
  | .add | .sub => do
    let product ← frame.closeProduct limits term
    let (token, next) ← cursor.advance .expression
    let products := ⟨product, op, token.span⟩ :: frame.products
    return ({ products }, next)

theorem moves_takeOperator (limits : Limits) (frame : Frame) (term : Measured) (op : Op)
    (cursor : Cursor) : cursor.Moves (frame.takeOperator limits term op cursor) := by
  cases op with
  | mul | div =>
    exact Cursor.moves_bind fun _ => (cursor.moves_advance .product).bind fun _ _ => ⟨_, rfl⟩
  | add | sub =>
    exact Cursor.moves_bind fun _ => (cursor.moves_advance .expression).bind fun _ _ => ⟨_, rfl⟩

end Frame

/-- The frames of the expressions around the innermost one, the closest first, with their number. -/
structure Outer where
  frames : List Frame
  /-- How many parentheses are open. -/
  depth : Nat
  depth_eq : frames.length = depth

namespace Outer

/-- No parenthesis is open. -/
def empty : Outer := ⟨[], 0, rfl⟩

/-- Opens a parenthesis in an expression that was read as far as `frame`. -/
def push (frame : Frame) (outer : Outer) : Outer :=
  ⟨frame :: outer.frames, outer.depth + 1, by simp [outer.depth_eq]⟩

/-- Closes a parenthesis, if one is open, and returns to the expression around it. -/
def pop? (outer : Outer) : Option (Frame × Outer) :=
  match outer with
  | ⟨[], _, _⟩ => none
  | ⟨frame :: frames, depth, depth_eq⟩ =>
    some (frame, ⟨frames, depth - 1, by simp at depth_eq; omega⟩)

/-- Gives up all expressions around, the closest first, and the parenthesis inside of each. Returns
how many are still open. -/
def unwind (outer : Outer) : Nat :=
  outer.frames.foldl (fun depth _ => depth - 1) outer.depth

@[simp]
theorem pop?_empty : empty.pop? = none := rfl

@[simp]
theorem pop?_push (frame : Frame) (outer : Outer) :
    (outer.push frame).pop? = some (frame, outer) := rfl

/-- No parenthesis stays open. -/
theorem unwind_eq_zero (outer : Outer) : outer.unwind = 0 := by
  obtain ⟨frames, depth, rfl⟩ := outer
  show frames.foldl (fun depth _ => depth - 1) frames.length = 0
  induction frames with
  | nil => rfl
  | cons frame frames ih => exact ih

end Outer

/-! ### Steps -/

/-- How far the reading of an expression has come. -/
inductive Progress where
  | awaiting (frame : Frame) (outer : Outer)
  | holding (term : Measured) (frame : Frame) (outer : Outer)

namespace Progress

/-- Nothing was read yet. -/
def start : Progress :=
  .awaiting {} .empty

/-- The expressions around the innermost one. -/
def outer : Progress → Outer
  | awaiting _ outer => outer
  | holding _ _ outer => outer

/-- What comes of a step. -/
inductive Move where
  /-- The next token was read. -/
  | onward (progress : Progress)
  /-- The expression was complete before the next token, which was not read. -/
  | complete (expr : Measured)

/-- Begins a term: reads an atom, or opens a parenthesis. -/
def takeTerm (limits : Limits) (frame : Frame) (outer : Outer) (cursor : Cursor) :
    Except Error (Progress × Cursor) :=
  match cursor.kind? with
  | some .openParen =>
    if outer.depth < limits.depth then do
      let (_, next) ← cursor.advance .term
      return (.awaiting {} (outer.push frame), next)
    else .error (cursor.error (.nestingTooDeep limits.depth))
  | some .number | some .letter => do
    let (atom, next) ← cursor.atom
    return (.holding atom frame outer, next)
  | _ => .error (cursor.unexpected .term)

/-- Ends an expression, since what comes next cannot go on with it. If it stands in parentheses,
only the closing one will do. -/
def takeEnd (limits : Limits) (term : Measured) (frame : Frame) (outer : Outer) (cursor : Cursor) :
    Except Error (Move × Cursor) := do
  let expr ← frame.close limits term
  match outer.pop? with
  | none => return (.complete expr, cursor)
  | some (frame, outer) =>
    if cursor.kind? = some .closeParen then
      let (_, next) ← cursor.advance .term
      return (.onward (.holding expr frame outer), next)
    else throw (cursor.unexpected .term)

/-- Reads the next token. -/
def step (limits : Limits) (progress : Progress) (cursor : Cursor) : Except Error (Move × Cursor) :=
  match progress with
  | .awaiting frame outer => do
    let (progress, next) ← takeTerm limits frame outer cursor
    return (.onward progress, next)
  | .holding term frame outer =>
    if cursor.startsTerm then do
      let (progress, next) ← takeTerm limits (frame.juxtapose term cursor.span) outer cursor
      return (.onward progress, next)
    else
      match cursor.kind? with
      | some (.operator op) => do
        let (frame, next) ← frame.takeOperator limits term op cursor
        return (.onward (.awaiting frame outer), next)
      | _ => takeEnd limits term frame outer cursor

/-! ### Runs -/

theorem moves_takeTerm (limits : Limits) (frame : Frame) (outer : Outer) (cursor : Cursor) :
    cursor.Moves (takeTerm limits frame outer cursor) := by
  unfold takeTerm
  split
  · split
    · exact (cursor.moves_advance .term).bind fun _ _ => ⟨_, rfl⟩
    · exact cursor.moves_error _
  · exact cursor.moves_atom.bind fun _ _ => ⟨_, rfl⟩
  · exact cursor.moves_atom.bind fun _ _ => ⟨_, rfl⟩
  · exact cursor.moves_error _

/-- Nothing but the parenthesis that closes it leads out of an expression and on. -/
theorem length_rest_lt_of_takeEnd_eq_onward {limits : Limits} {term : Measured} {frame : Frame}
    {outer : Outer} {next : Progress} {cursor cursor' : Cursor}
    (h : takeEnd limits term frame outer cursor = .ok (.onward next, cursor')) :
    cursor'.rest.length < cursor.rest.length := by
  obtain ⟨expr, -, hend⟩ := bind_eq_ok_iff.1 h
  cases hpop : outer.pop? with
  | none =>
    rw [hpop] at hend
    have hmove : Move.complete expr = .onward next := (Prod.mk.inj (Except.ok.inj hend)).1
    contradiction
  | some around =>
    rw [hpop] at hend
    dsimp only at hend
    split at hend
    · exact (cursor.moves_advance .term).length_lt hend fun _ _ => ⟨_, rfl⟩
    · contradiction

/-- Going on means that a token was read. -/
theorem length_rest_lt_of_step_eq_onward {limits : Limits} {progress next : Progress}
    {cursor cursor' : Cursor} (h : progress.step limits cursor = .ok (.onward next, cursor')) :
    cursor'.rest.length < cursor.rest.length := by
  have hterm : ∀ frame outer, cursor.Moves (takeTerm limits frame outer cursor) :=
    fun frame outer => moves_takeTerm limits frame outer cursor
  unfold step at h
  cases progress with
  | awaiting frame outer => exact (hterm frame outer).length_lt h fun _ _ => ⟨_, rfl⟩
  | holding term frame outer =>
    dsimp only at h
    split at h
    · exact (hterm (frame.juxtapose term cursor.span) outer).length_lt h fun _ _ => ⟨_, rfl⟩
    · split at h
      · rename_i op _
        have hoperator := frame.moves_takeOperator limits term op cursor
        exact hoperator.length_lt h fun _ _ => ⟨_, rfl⟩
      · exact length_rest_lt_of_takeEnd_eq_onward h

/-- Reads tokens until the expression is complete or an error is found, and says where this leaves
the cursor and which expressions around it are still open. -/
def proceed (limits : Limits) (progress : Progress) (cursor : Cursor) :
    Except Error Measured × Cursor × Outer :=
  match _ : progress.step limits cursor with
  | .ok (.onward next, cursor') => next.proceed limits cursor'
  | .ok (.complete expr, cursor') => (.ok expr, cursor', progress.outer)
  | .error error => (.error error, cursor, progress.outer)
termination_by cursor.rest.length
decreasing_by exact length_rest_lt_of_step_eq_onward ‹_›

section Proceed

variable {limits : Limits} {progress : Progress} {cursor cursor' : Cursor}

theorem proceed_of_step_eq_onward {next : Progress}
    (h : progress.step limits cursor = .ok (.onward next, cursor')) :
    progress.proceed limits cursor = next.proceed limits cursor' := by
  rw [proceed]
  split <;> simp_all

theorem proceed_of_step_eq_complete {expr : Measured}
    (h : progress.step limits cursor = .ok (.complete expr, cursor')) :
    progress.proceed limits cursor = (.ok expr, cursor', progress.outer) := by
  rw [proceed]
  split <;> simp_all

theorem proceed_of_step_eq_error {error : Error} (h : progress.step limits cursor = .error error) :
    progress.proceed limits cursor = (.error error, cursor, progress.outer) := by
  rw [proceed]
  split <;> simp_all

end Proceed

end Progress

end Reckon
