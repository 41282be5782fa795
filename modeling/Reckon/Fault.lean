import Reckon.Report

/-!
# Faults

`Fault` lists what can be wrong with a text that should be an expression, and `Error` says in
addition where. The wording of all of them is in `Fault.notice`.
-/

namespace Reckon

/-- A part of the grammar of expressions. -/
inductive Production where
  /-- One or more digits. -/
  | number
  /-- One letter. -/
  | letter
  /-- A number or a letter. -/
  | atom
  /-- An atom, or an expression in parentheses. -/
  | term
  /-- One or more terms in a row. -/
  | group
  /-- Groups with `*` or `/` between them. -/
  | product
  /-- Products with `+` or `-` between them. -/
  | expression
  deriving DecidableEq, Repr

/-- How a message names a part of the grammar. -/
def Production.name : Production → String
  | number => "a number"
  | letter => "a variable"
  | atom => "a number or variable"
  | term => "a term"
  | group => "a group of terms"
  | product => "a product"
  | expression => "an expression"

instance : ToString Production := ⟨Production.name⟩

/-- What can be wrong with the text of an expression. -/
inductive Fault where
  /-- A character that cannot begin what has to come. -/
  | unexpectedCharacter (expected : Production) (found : Char)
  /-- The text ends where something has to come. -/
  | unexpectedEnd (expected : Production)
  /-- The text goes on after the expression. -/
  | trailingInput (found : Char)
  /-- More parentheses are open at once than the limit allows. -/
  | nestingTooDeep (limit : Nat)
  /-- The expression is taller than the limit allows. -/
  | expressionTooDeep (limit : Nat)
  | divisionByZero
  deriving DecidableEq, Repr

/-- The label that names what should stand in a place. -/
def expectationLabel (expected : Production) : String :=
  s!"I expected to see {highlight expected.name} here"

/-- What there is to say about a fault. -/
def Fault.notice : Fault → Notice
  | unexpectedCharacter expected found => {
      message := s!"unexpected character `{found}`"
      labels := .fixed [expectationLabel expected]
      help :=
        if expected = .term then
          "a term is a number, a single-letter variable, or an expression in parentheses"
        else
          "whitespace and other symbols are not part of an expression" }
  | unexpectedEnd expected => {
      message := "unexpected end of input"
      labels := .fixed [expectationLabel expected]
      help :=
        if expected = .term then
          "check that every opening parenthesis `(` has a matching `)`"
        else
          "the input must contain an expression" }
  | trailingInput found => {
      message := "expected end of input"
      labels := .fixed ["I could not understand the remaining " ++ highlight "input" ++ " here"]
      help :=
        if found = ')' then
          "this closing parenthesis has no matching `(`"
        else
          s!"`{found}` cannot continue the expression" }
  | nestingTooDeep limit => {
      message := "parentheses are nested too deeply"
      labels := .fixed ["this parenthesis exceeds the limit"]
      help := s!"at most {limit} nested parentheses are allowed" }
  | expressionTooDeep limit => {
      message := "expression is nested too deeply"
      labels := .fixed ["this operator exceeds the limit"]
      help :=
        "each operator in a chain adds a level to the expression, " ++
          s!"and at most {limit} levels are allowed" }
  | divisionByZero => {
      message := "division by zero"
      labels := .each ("this " ++ highlight "expression" ++ " divides by zero")
      help := "the divisors of a division must not evaluate to `0`" }

/-- A fault, with the places in the text that it concerns. -/
structure Error where
  /-- The places, the most important one first. -/
  spans : List Span
  /-- What is wrong there. -/
  fault : Fault
  deriving DecidableEq, Repr

namespace Error

/-- Where the error begins. -/
def position (error : Error) : Nat :=
  positionOf error.spans

/-- What to tell the reader of the text. -/
def report (error : Error) : Report :=
  error.fault.notice.report error.spans

/-- The same error in a text with `n` more bytes in front. -/
def shift (n : Nat) (error : Error) : Error :=
  { error with spans := error.spans.map (·.shift n) }

end Error

/-! ### Computations that can fail -/

/-- A computation in two steps succeeds if both steps do. -/
theorem bind_eq_ok_iff {ε α β : Type} {x : Except ε α} {f : α → Except ε β} {b : β} :
    x >>= f = .ok b ↔ ∃ a, x = .ok a ∧ f a = .ok b := by
  cases x with
  | error e =>
    constructor
    · intro h
      contradiction
    · rintro ⟨a, ha, -⟩
      contradiction
  | ok a =>
    constructor
    · intro h
      exact ⟨a, rfl, h⟩
    · rintro ⟨a', ha, h⟩
      obtain rfl := Except.ok.inj ha
      exact h

/-- A computation in two steps fails if one of the steps does. -/
theorem bind_eq_error_iff {ε α β : Type} {x : Except ε α} {f : α → Except ε β} {e : ε} :
    x >>= f = .error e ↔ x = .error e ∨ ∃ a, x = .ok a ∧ f a = .error e := by
  cases x with
  | error e' =>
    refine ⟨fun h => Or.inl (congrArg _ (Except.error.inj h)), ?_⟩
    rintro (h | ⟨a, ha, -⟩)
    · exact congrArg _ (Except.error.inj h)
    · contradiction
  | ok a =>
    refine ⟨fun h => Or.inr ⟨a, rfl, h⟩, ?_⟩
    rintro (h | ⟨a', ha, h⟩)
    · contradiction
    · obtain rfl := Except.ok.inj ha
      exact h

end Reckon
