import Reckon.Canonical
import Reckon.Evaluation
import Reckon.Parser

/-!
# Reduction

To reduce a text is to read it as an expression, to bring that into canonical form, and to evaluate
it. `reduce` gives the result. `reduceWithSteps` gives in addition what the stages before the
evaluation made of the expression; these are there also if the evaluation fails.

An error of the evaluation concerns the whole text, since the operation that it arose in may not be
part of the text as it was written.
-/

namespace Reckon

/-- Evaluates the canonical form of an expression that was read from a text of `length` bytes. -/
def evaluateCanonical (length : Nat) (canonical : Expr) : Except Error Expr :=
  canonical.evaluate.mapError fun error => ⟨[⟨0, length⟩], error.fault⟩

/-- Reads a text and reduces the expression in it. -/
def reduce (text : List Char) : Except Error Expr := do
  let expr ← parse text
  evaluateCanonical (byteLength text) expr.canonicalize

/-- Reads a text and reduces the expression in it, with the steps that were made. -/
def reduceWithSteps (text : List Char) : List Step × Except Error Expr :=
  match parse text with
  | .error error => ([], .error error)
  | .ok expr =>
    let (steps, canonical) := expr.canonicalizeWithSteps
    (⟨.parse, expr⟩ :: steps, evaluateCanonical (byteLength text) canonical)

end Reckon
