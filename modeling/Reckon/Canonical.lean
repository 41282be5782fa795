import Reckon.Expr.Flatten
import Reckon.Expr.Line

/-!
# Canonical expressions

Subtraction stands in the way of collecting terms, so it is eliminated: `a - b - c` becomes
`a + -1 * (b + c)` (`Expr.eliminateSubtraction`). An expression is brought into canonical form by
flattening it, eliminating subtraction, and flattening again, because the additions and
multiplications that stand for subtractions may belong to the operation around them
(`Expr.canonicalize`).

`Expr.canonicalizeWithSteps` lists in addition what each of the three stages makes of an expression.
-/

namespace Reckon

namespace Expr

/-- The opposite of an expression. -/
def negate (e : Expr) : Expr :=
  .operation .mul [.value (-1), e]

/-- A subtraction of the given operands, written as an addition. -/
def difference : List Expr → Expr
  | [] => ofOperands .add []
  | [e] => e
  | e :: es => .operation .add [e, negate (ofOperands .add es)]

/-- An operation on the given operands, where a subtraction is written as an addition. -/
def withoutSubtraction (op : Op) (operands : List Expr) : Expr :=
  match op with
  | .sub => difference operands
  | .add | .mul | .div => ofOperands op operands

/-- Writes every subtraction as an addition. -/
def eliminateSubtraction : Expr → Expr :=
  fold .value .var withoutSubtraction

@[simp]
theorem eliminateSubtraction_value (n : Int) : eliminateSubtraction (.value n) = .value n := rfl

@[simp]
theorem eliminateSubtraction_var (name : Char) : eliminateSubtraction (.var name) = .var name := rfl

@[simp]
theorem eliminateSubtraction_operation (op : Op) (operands : List Expr) :
    eliminateSubtraction (.operation op operands) =
      withoutSubtraction op (operands.map eliminateSubtraction) := by
  simp [eliminateSubtraction]

/-- The canonical form of an expression. -/
def canonicalize (e : Expr) : Expr :=
  e.flatten.eliminateSubtraction.flatten

end Expr

/-- A stage on the way from a text to a canonical expression. -/
inductive Stage where
  | parse
  /-- Nested operations were merged. -/
  | flatten
  /-- Subtractions were replaced by additions. -/
  | eliminateSubtraction
  /-- The operations that came in for subtractions were merged. -/
  | merge
  deriving DecidableEq, Repr

/-- What a stage is called. -/
def Stage.name : Stage → String
  | parse => "parse"
  | flatten => "flatten"
  | eliminateSubtraction => "rewrite subtraction"
  | merge => "merge"

/-- The expression that a stage made. -/
structure Step where
  stage : Stage
  expr : Expr
  deriving DecidableEq

instance : ToString Step := ⟨fun step => s!"{step.stage.name}: {step.expr}"⟩

/-- The canonical form of an expression, with what each stage made on the way to it. -/
def Expr.canonicalizeWithSteps (e : Expr) : List Step × Expr :=
  let flat := e.flatten
  let additive := flat.eliminateSubtraction
  let merged := additive.flatten
  ([⟨.flatten, flat⟩, ⟨.eliminateSubtraction, additive⟩, ⟨.merge, merged⟩], merged)

end Reckon
