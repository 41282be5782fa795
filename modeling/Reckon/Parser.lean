import Reckon.Expr.Flatten
import Reckon.Parser.Progress

/-!
# Parsing expressions

A `Parser` stands somewhere in a text and reads expressions from there, within its limits. After
each attempt it stands before the first token that it has not read, also when the attempt failed.
The parentheses that a failed attempt has opened are given up, so the next one may open as many as
the first.

What it builds is the raw tree, in which every operation has two operands. `parse` reads a whole
text and flattens the tree.
-/

namespace Reckon

/-- A place in a text to read expressions from, with the limits that they have to keep. -/
structure Parser where
  cursor : Cursor
  limits : Limits
  /-- How many parentheses are open. There are none between two attempts. -/
  depth : Nat
  depth_eq : depth = 0

namespace Parser

/-- The place and the limits make up a parser. -/
@[ext]
theorem ext {a b : Parser} (hcursor : a.cursor = b.cursor) (hlimits : a.limits = b.limits) :
    a = b := by
  obtain ⟨cursor, limits, depth, rfl⟩ := a
  obtain ⟨cursor', limits', depth', rfl⟩ := b
  obtain rfl : cursor = cursor' := hcursor
  obtain rfl : limits = limits' := hlimits
  rfl

/-- The parser at the start of a text. -/
def ofChars (text : List Char) (limits : Limits) : Parser :=
  ⟨.ofChars text, limits, 0, rfl⟩

/-- Tests whether a term can begin here. -/
def startsTerm (parser : Parser) : Bool :=
  parser.cursor.startsTerm

/-- Nothing was read yet of the next expression. -/
def start (parser : Parser) : Progress :=
  .awaiting {} ⟨[], parser.depth, parser.depth_eq.symm⟩

/-- No parenthesis is open yet. -/
theorem start_eq (parser : Parser) : parser.start = .start := by
  obtain ⟨cursor, limits, depth, rfl⟩ := parser
  rfl

/-- Reads an expression as far as it goes. -/
def measured (parser : Parser) : Except Error Measured × Parser :=
  let (result, cursor, outer) := parser.start.proceed parser.limits parser.cursor
  (result, ⟨cursor, parser.limits, outer.unwind, outer.unwind_eq_zero⟩)

/-- Reads an expression and leaves what comes after it. -/
def expression (parser : Parser) : Except Error Expr × Parser :=
  let (result, parser) := parser.measured
  (result.map Measured.expr, parser)

/-- Reads an expression that takes up the rest of the text. -/
def sentence (parser : Parser) : Except Error Expr × Parser :=
  let (result, parser) := parser.expression
  (do
    let expr ← result
    match parser.cursor.peek with
    | none => return expr
    | some token => throw (parser.cursor.error (.trailingInput token.first)),
   parser)

end Parser

/-- The raw tree of a text that is an expression within the limits. -/
def parseRaw (limits : Limits) (text : List Char) : Except Error Expr :=
  (Parser.ofChars text limits).sentence.1

/-- The flattened tree of a text that is an expression within the default limits. -/
def parse (text : List Char) : Except Error Expr :=
  (parseRaw {} text).map Expr.flatten

end Reckon
