import Reckon.Operator
import Reckon.Span

/-!
# Tokens

A text is cut into lexemes without looking at what they mean: a run of digits that cannot be made
longer is one lexeme, and so is every other character. Nothing is skipped, so the lexemes of a text
put together are the text (`flatMap_chars_lexemes`).

A lexeme is therefore never empty, and its first character decides its kind. A token is a lexeme
with the place where it starts, so its span follows from it.

Only ASCII digits and ASCII letters count as digits and letters.
-/

namespace Reckon

/-- A digit run, or a single other character. -/
structure Lexeme where
  first : Char
  /-- The characters after it. -/
  more : List Char
  deriving DecidableEq, Repr

namespace Lexeme

/-- The characters of a lexeme. -/
def chars (lexeme : Lexeme) : List Char :=
  lexeme.first :: lexeme.more

/-- Puts a character in front of lexemes: it joins the first one if both are made of digits. -/
def attach (c : Char) : List Lexeme → List Lexeme
  | [] => [⟨c, []⟩]
  | lexeme :: lexemes =>
    if c.isDigit && lexeme.first.isDigit then ⟨c, lexeme.chars⟩ :: lexemes
    else ⟨c, []⟩ :: lexeme :: lexemes

end Lexeme

/-- The lexemes of a text. -/
def lexemes (text : List Char) : List Lexeme :=
  text.foldr Lexeme.attach []

namespace Token

/-- What a lexeme can be in an expression. -/
inductive Kind where
  | number
  | letter
  | operator (op : Op)
  | openParen
  | closeParen
  /-- A character that has no place in an expression. -/
  | symbol
  deriving DecidableEq, Repr

/-- The kind of the lexemes that begin with a character. A line feed has no kind of its own. -/
def Kind.ofChar? (c : Char) : Option Kind :=
  if c.isDigit then some .number
  else if c.isAlpha then some .letter
  else if c = '(' then some .openParen
  else if c = ')' then some .closeParen
  else if c = '\n' then none
  else
    match Op.ofChar? c with
    | some op => some (.operator op)
    | none => some .symbol

/-- The kind of the tokens that begin with a character. A line feed is a symbol. -/
def Kind.ofChar (c : Char) : Kind :=
  (ofChar? c).getD .symbol

/-- Tests whether a term can begin with a token of this kind. -/
def Kind.startsTerm : Kind → Bool
  | number | letter | openParen => true
  | operator _ | closeParen | symbol => false

end Token

/-- A lexeme in its place. -/
structure Token extends Lexeme where
  /-- The byte of the text that it starts at. -/
  start : Nat
  deriving DecidableEq, Repr

namespace Token

/-- The kind of a token. -/
def kind (token : Token) : Kind :=
  .ofChar token.first

/-- The stretch of the text that a token covers. -/
def span (token : Token) : Span :=
  .covering token.start token.chars

/-- The same token in a text with `n` more bytes in front. -/
def shift (n : Nat) (token : Token) : Token :=
  { token with start := n + token.start }

/-- Places lexemes one after the other behind tokens, of which the last one comes first. -/
def placeBehind (tokens : List Token) (start : Nat) : List Lexeme → List Token
  | [] => tokens.reverse
  | lexeme :: lexemes =>
    placeBehind (⟨lexeme, start⟩ :: tokens) (start + byteLength lexeme.chars) lexemes

/-- Places lexemes one after the other from a byte on. -/
def place (start : Nat) (lexemes : List Lexeme) : List Token :=
  placeBehind [] start lexemes

/-- The tokens of a text. -/
def scan (text : List Char) : List Token :=
  place 0 (lexemes text)

end Token

/-! ### Laws of lexemes -/

@[simp]
theorem lexemes_nil : lexemes [] = [] := rfl

theorem lexemes_cons (c : Char) (text : List Char) :
    lexemes (c :: text) = Lexeme.attach c (lexemes text) := rfl

theorem Lexeme.flatMap_chars_attach (c : Char) (ls : List Lexeme) :
    (attach c ls).flatMap chars = c :: ls.flatMap chars := by
  match ls with
  | [] => rfl
  | lexeme :: ls =>
    rw [attach]
    split <;> simp [chars]

/-- The lexemes of a text make up the text. -/
theorem flatMap_chars_lexemes (text : List Char) : (lexemes text).flatMap Lexeme.chars = text := by
  induction text with
  | nil => rfl
  | cons c text ih => rw [lexemes_cons, Lexeme.flatMap_chars_attach, ih]

/-! ### Laws of placing -/

theorem Token.placeBehind_eq_append (tokens : List Token) (start : Nat) (ls : List Lexeme) :
    placeBehind tokens start ls = tokens.reverse ++ place start ls := by
  induction ls generalizing tokens start with
  | nil => simp [placeBehind, place]
  | cons l ls ih =>
    have h : place start (l :: ls) = placeBehind [⟨l, start⟩] (start + byteLength l.chars) ls := rfl
    rw [placeBehind, ih, h, ih]
    simp

@[simp]
theorem Token.place_nil (start : Nat) : place start [] = [] := rfl

/-- Every lexeme starts where the one before it stops. -/
theorem Token.place_cons (start : Nat) (l : Lexeme) (ls : List Lexeme) :
    place start (l :: ls) = ⟨l, start⟩ :: place (start + byteLength l.chars) ls := by
  rw [place, placeBehind, placeBehind_eq_append]
  rfl

end Reckon
