import Reckon.Expr.Basic
import Reckon.Fault

/-!
# Evaluation

`Expr.evaluate` combines the integers among the operands of every operation, from the leaves upward,
as far as that is possible without leaving the integers or changing the order of anything else.

* In an addition or a multiplication all integers are combined into one, which is put last, or
  dropped if it is the identity of the operator (`Expr.evaluateAssociative`).
* In a subtraction or a division the operands after the first one keep their places, and only
  neighbours are combined: `x / 2 / 3` becomes `x / 6`. Where the combined integer changes nothing
  it is dropped. If the first operand is an integer too and the second now is one, they are combined
  if the result is exact: `8 / 4` becomes `2` and `7 / 2` stays (`Expr.evaluatePositional`).

Evaluating the operands can leave some with the operator of their parent. These are merged before
the integers are combined, all of them in the first case and the leading one in the second.

The only thing that can go wrong is a division by an integer that is zero.
-/

namespace Reckon

/-- What can go wrong when integers are combined. -/
inductive EvalError where
  | divisionByZero
  deriving DecidableEq, Repr

/-- The fault to report for an error of evaluation. -/
def EvalError.fault : EvalError → Fault
  | divisionByZero => .divisionByZero

/-- What happened. -/
def EvalError.message (error : EvalError) : String :=
  error.fault.notice.message

/-- Applies an operator to two integers. A quotient is cut off toward zero. -/
def Op.combine (op : Op) (a b : Int) : Except EvalError Int :=
  match op with
  | .add => .ok (a + b)
  | .sub => .ok (a - b)
  | .mul => .ok (a * b)
  | .div => if b = 0 then .error .divisionByZero else .ok (a.tdiv b)

/-- The result of a subtraction or division of two integers, if it is an integer. -/
def Op.integralResult? (op : Op) (a b : Int) : Option Int :=
  match op with
  | .add => some (a + b)
  | .sub => some (a - b)
  | .mul => some (a * b)
  | .div => if b ∣ a then some (a.tdiv b) else none

/-- Later operands are combined as `Op.combine` does, which cannot fail for an accumulator. -/
theorem Op.combine_accumulator (op : Op) (a b : Int) :
    op.accumulator.combine a b = .ok (op.accumulate a b) := by
  cases op <;> rfl

/-- Where nothing is divided by zero, `Op.integralResult?` is what `Op.combine` returns, if nothing
of the quotient is cut off. -/
theorem Op.integralResult?_eq_some_iff {op : Op} {a b c : Int} (hb : op = .div → b ≠ 0) :
    op.integralResult? a b = some c ↔ op.combine a b = .ok c ∧ (op = .div → b ∣ a) := by
  cases op with
  | add | sub | mul => simp [integralResult?, combine]
  | div =>
    have hb : b ≠ 0 := hb rfl
    by_cases hdvd : b ∣ a <;> simp [integralResult?, combine, hb, hdvd]

namespace Expr

/-! ### Additions and multiplications -/

/-- The integer that remains among the operands of an associative operation, none if it changes
nothing. -/
def constantOperand (op : Op) (n : Int) : List Expr :=
  if n = op.unit then [] else [.value n]

/-- Combines the integers among operands of an associative operator. -/
def collectConstants (op : Op) (operands : List Expr) : List Expr :=
  operands.filter (fun e => !e.isValue) ++
    constantOperand op (op.total (operands.filterMap value?))

/-- An addition or multiplication of evaluated operands. -/
def evaluateAssociative (op : Op) (operands : List Expr) : Expr :=
  ofOperands op (collectConstants op (operands.flatMap (operandsUnder op)))

/-! ### Subtractions and divisions -/

/-- Merges the first operand if it has the operator of its parent. -/
def mergeLeading (op : Op) : List Expr → List Expr
  | [] => []
  | e :: es => operandsUnder op e ++ es

/-- Puts a later operand in front of others. Two integers next to each other become one. -/
def attachOperand (op : Op) (e : Expr) (es : List Expr) : List Expr :=
  match e, es with
  | .value m, .value n :: es => .value (op.accumulate m n) :: es
  | e, es => e :: es

/-- Combines neighbouring integers among later operands. -/
def combineNeighbours (op : Op) (operands : List Expr) : List Expr :=
  operands.foldr (attachOperand op) []

/-- Applies the second operand to the first one if both are integers and the result is exact. -/
def applyLeading (op : Op) (first : Expr) (later : List Expr) : List Expr :=
  match first, later with
  | .value a, .value b :: rest =>
    match op.integralResult? a b with
    | some c => .value c :: rest
    | none => first :: later
  | _, _ => first :: later

/-- A subtraction or division of evaluated operands. -/
def evaluatePositional (op : Op) (operands : List Expr) : Except EvalError Expr :=
  match mergeLeading op operands with
  | [] => .ok (ofOperands op [])
  | first :: later =>
    let runs := combineNeighbours op later
    if op = .div ∧ .value 0 ∈ runs then .error .divisionByZero
    else .ok (ofOperands op (applyLeading op first (runs.filter (· ≠ .value op.unit))))

/-! ### Expressions -/

/-- An operation on evaluated operands. -/
def evaluateOperation (op : Op) (operands : List Expr) : Except EvalError Expr :=
  if op.isAssociative then .ok (evaluateAssociative op operands)
  else evaluatePositional op operands

/-- Combines the integers in an expression. -/
def evaluate : Expr → Except EvalError Expr :=
  fold (fun n => .ok (.value n)) (fun name => .ok (.var name)) fun op operands => do
    evaluateOperation op (← operands.mapM id)

@[simp]
theorem evaluate_value (n : Int) : evaluate (.value n) = .ok (.value n) := rfl

@[simp]
theorem evaluate_var (name : Char) : evaluate (.var name) = .ok (.var name) := rfl

/-- An operation is evaluated on its evaluated operands, and fails if one of them does. -/
theorem evaluate_operation (op : Op) (operands : List Expr) :
    evaluate (.operation op operands) = operands.mapM evaluate >>= evaluateOperation op := by
  simp only [evaluate, fold_operation, List.mapM_map]
  rfl

end Expr

end Reckon
