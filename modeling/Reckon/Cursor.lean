import Reckon.Fault
import Reckon.Token

/-!
# Cursors

A cursor stands between two tokens of a text. It holds the tokens after it, and where the text ends,
since that is the place to point at once no token is left. It only ever moves forward
(`Cursor.moves_advance`).
-/

namespace Reckon

/-- A place between the tokens of a text. -/
structure Cursor where
  /-- The tokens from here on. -/
  rest : List Token
  /-- The number of bytes of the whole text. -/
  stop : Nat

namespace Cursor

/-- The cursor at the start of a text. -/
def ofChars (text : List Char) : Cursor :=
  ⟨Token.scan text, byteLength text⟩

/-- The next token, if there is one. -/
def peek (cursor : Cursor) : Option Token :=
  cursor.rest.head?

/-- The kind of the next token, if there is one. -/
def kind? (cursor : Cursor) : Option Token.Kind :=
  cursor.peek.map Token.kind

/-- Tests whether a term can begin here. -/
def startsTerm (cursor : Cursor) : Bool :=
  cursor.kind?.any Token.Kind.startsTerm

/-- Tests whether the cursor is at the end of the text. -/
def isAtEnd (cursor : Cursor) : Bool :=
  cursor.rest.isEmpty

/-- The empty span at the end of the text. -/
def endSpan (cursor : Cursor) : Span :=
  .point cursor.stop

/-- The span of the next token, or the end of the text. -/
def span (cursor : Cursor) : Span :=
  (cursor.peek.map Token.span).getD cursor.endSpan

/-- The number of bytes before the cursor. -/
def position (cursor : Cursor) : Nat :=
  cursor.span.start

/-- Something is wrong with the next token, or with the end of the text. -/
def error (cursor : Cursor) (fault : Fault) : Error :=
  ⟨[cursor.span], fault⟩

/-- What comes next cannot begin what has to come. -/
def unexpected (cursor : Cursor) (expected : Production) : Error :=
  match cursor.peek with
  | some token => cursor.error (.unexpectedCharacter expected token.first)
  | none => cursor.error (.unexpectedEnd expected)

/-- Moves over the next token. At the end of the text, where `expected` has to come, it fails and
stays where it is. -/
def attempt (cursor : Cursor) (expected : Production) : Except Error Token × Cursor :=
  match cursor.rest with
  | [] => (.error ⟨[cursor.endSpan], .unexpectedEnd expected⟩, cursor)
  | token :: rest => (.ok token, { cursor with rest })

/-- Moves over the next token like `attempt`, for use where a failure ends the reading. -/
def advance (cursor : Cursor) (expected : Production) : Except Error (Token × Cursor) :=
  let (result, next) := cursor.attempt expected
  result.map fun token => (token, next)

/-! ### Moving on -/

/-- If the reading succeeds, it has moved over tokens. -/
def Moves {α : Type} (cursor : Cursor) (reading : Except Error (α × Cursor)) : Prop :=
  ∀ a next, reading = .ok (a, next) → next.rest.length < cursor.rest.length

variable {α β : Type} {cursor : Cursor}

theorem moves_advance (cursor : Cursor) (expected : Production) :
    cursor.Moves (cursor.advance expected) := by
  intro token next h
  obtain ⟨rest, stop⟩ := cursor
  cases rest with
  | nil => contradiction
  | cons first rest =>
    obtain ⟨rfl, rfl⟩ := Prod.mk.inj (Except.ok.inj h)
    exact Nat.lt_succ_self rest.length

theorem moves_error (cursor : Cursor) (error : Error) :
    cursor.Moves (.error error : Except Error (α × Cursor)) :=
  nofun

/-- It does not matter what is made of what was read. -/
theorem Moves.length_lt {reading : Except Error (α × Cursor)}
    {k : α × Cursor → Except Error (β × Cursor)} {b : β} {next : Cursor}
    (h : cursor.Moves reading) (hb : reading >>= k = .ok (b, next))
    (hk : ∀ a next, ∃ b, k (a, next) = .ok (b, next)) : next.rest.length < cursor.rest.length := by
  obtain ⟨⟨a, next'⟩, hreading, hmade⟩ := bind_eq_ok_iff.1 hb
  obtain ⟨b', hb'⟩ := hk a next'
  have hnext : next' = next := (Prod.mk.inj (Except.ok.inj (hb'.symm.trans hmade))).2
  rw [← hnext]
  exact h a next' hreading

theorem Moves.bind {reading : Except Error (α × Cursor)}
    {k : α × Cursor → Except Error (β × Cursor)} (h : cursor.Moves reading)
    (hk : ∀ a next, ∃ b, k (a, next) = .ok (b, next)) : cursor.Moves (reading >>= k) :=
  fun _ _ hb => h.length_lt hb hk

/-- It does not matter what has to succeed before. -/
theorem moves_bind {x : Except Error α} {k : α → Except Error (β × Cursor)}
    (h : ∀ a, cursor.Moves (k a)) : cursor.Moves (x >>= k) := by
  intro b next hb
  obtain ⟨a, -, hk⟩ := bind_eq_ok_iff.1 hb
  exact h a b next hk

end Cursor

end Reckon
