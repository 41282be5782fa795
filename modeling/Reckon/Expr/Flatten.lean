import Reckon.Expr.Basic

/-!
# Flattening

`Expr.flatten` merges nested operations with the same operator into one operation with more
operands, wherever that is only a matter of regrouping:

* under `+` and `*`, every operand with the operator of its parent is replaced by its own operands,
  so `(1 + 2) + 3` and `1 + (2 + 3)` both become `1 + 2 + 3`;
* under `-` and `/`, only the first operand is, so `(a - b) - c` becomes `a - b - c`, while
  `a - (b - c)`, which has another value, stays.

An operand is compared with its parent as it stands, before it is flattened itself, and a merged
operand is merged in turn, as deep as the operator goes on.

The recursion puts the operands of an expression in front of others (`Expr.flatOperandsOnto`), so
that a long run of nested operations is gone through once. What a caller needs are the two equations
`Expr.flatten_operation` and `Expr.flatOperands_operation`, in which the recursion shows only
through `Expr.flatten` and `Expr.spliced`.
-/

namespace Reckon.Expr

/-- The expression with its operands, if it has any, replaced by others. -/
def rebuild : Expr → List Expr → Expr
  | .operation op _, operands => ofOperands op operands
  | e, _ => e

mutual

/-- Puts the operands that an operation has after flattening in front of `rest`. A leaf has none. -/
def flatOperandsOnto : Expr → List Expr → List Expr
  | .operation op operands, rest =>
    if op.isAssociative then mergeEveryOnto op operands rest else mergeFirstOnto op operands rest
  | .value _, rest | .var _, rest => rest
termination_by structural e => e

/-- Flattens operands, merging every one that has the operator `op`. -/
def mergeEveryOnto (op : Op) : List Expr → List Expr → List Expr
  | [], rest => rest
  | e :: es, rest =>
    if e.isOperation op then flatOperandsOnto e (mergeEveryOnto op es rest)
    else e.rebuild (flatOperandsOnto e []) :: mergeEveryOnto op es rest
termination_by structural es => es

/-- Flattens operands, merging the first one if it has the operator `op`. -/
def mergeFirstOnto (op : Op) : List Expr → List Expr → List Expr
  | [], rest => rest
  | e :: es, rest =>
    if e.isOperation op then flatOperandsOnto e (flattenEachOnto es rest)
    else e.rebuild (flatOperandsOnto e []) :: flattenEachOnto es rest
termination_by structural es => es

/-- Flattens operands one by one. -/
def flattenEachOnto : List Expr → List Expr → List Expr
  | [], rest => rest
  | e :: es, rest => e.rebuild (flatOperandsOnto e []) :: flattenEachOnto es rest
termination_by structural es => es

end

/-- The operands of an operation after flattening. A leaf has none. -/
def flatOperands (e : Expr) : List Expr :=
  e.flatOperandsOnto []

/-- Merges nested operations with the same operator. -/
def flatten (e : Expr) : Expr :=
  e.rebuild e.flatOperands

/-- What an operand becomes inside a flattened operation `op`: its own flattened operands if it has
the same operator, else itself, flattened. -/
def spliced (op : Op) (e : Expr) : List Expr :=
  if e.isOperation op then e.flatOperands else [e.flatten]

/-! ### Equations -/

@[simp]
theorem flatten_value (n : Int) : flatten (.value n) = .value n := rfl

@[simp]
theorem flatten_var (name : Char) : flatten (.var name) = .var name := rfl

/-- A flattened operation is built from its flattened operands. -/
theorem flatten_operation (op : Op) (operands : List Expr) :
    flatten (.operation op operands) =
      ofOperands op (flatOperands (.operation op operands)) := rfl

@[simp]
theorem spliced_operation_self (op : Op) (operands : List Expr) :
    (operation op operands).spliced op = flatOperands (.operation op operands) := by
  simp [spliced, isOperation]

/-- An operand without the operator is not taken apart. -/
theorem spliced_of_isOperation_eq_false {op : Op} {e : Expr} (h : e.isOperation op = false) :
    e.spliced op = [e.flatten] := by
  simp [spliced, h]

theorem flattenEachOnto_eq_map (es rest : List Expr) :
    flattenEachOnto es rest = es.map flatten ++ rest := by
  induction es with
  | nil => rfl
  | cons e es ih => rw [flattenEachOnto, ih]; rfl

theorem mergeEveryOnto_eq_flatMap (op : Op) (es : List Expr)
    (h : ∀ e ∈ es, ∀ rest, e.flatOperandsOnto rest = e.flatOperands ++ rest) (rest : List Expr) :
    mergeEveryOnto op es rest = es.flatMap (spliced op) ++ rest := by
  induction es with
  | nil => rfl
  | cons e es ih =>
    have ih := ih fun e he => h e (by simp [he])
    rw [mergeEveryOnto, ih, h e (by simp), List.flatMap_cons, spliced]
    split
    · rw [List.append_assoc]
    · rfl

theorem mergeFirstOnto_cons (op : Op) (e : Expr) (es : List Expr)
    (h : ∀ rest, e.flatOperandsOnto rest = e.flatOperands ++ rest) (rest : List Expr) :
    mergeFirstOnto op (e :: es) rest = spliced op e ++ es.map flatten ++ rest := by
  rw [mergeFirstOnto, flattenEachOnto_eq_map, h, spliced]
  split
  · rw [List.append_assoc]
  · rfl

/-- Putting operands in front of `rest` is listing them and then putting `rest` behind. -/
theorem flatOperandsOnto_eq_append (e : Expr) (rest : List Expr) :
    e.flatOperandsOnto rest = e.flatOperands ++ rest := by
  induction e generalizing rest with
  | value n => rfl
  | var name => rfl
  | operation op operands ih =>
    rw [flatOperands, flatOperandsOnto, flatOperandsOnto]
    split
    · rw [mergeEveryOnto_eq_flatMap op operands ih, mergeEveryOnto_eq_flatMap op operands ih,
        List.append_nil]
    · cases operands with
      | nil => rfl
      | cons e es =>
        have h := mergeFirstOnto_cons op e es (ih e (by simp))
        rw [h, h, List.append_nil]

/-- Under an associative operator every operand is spliced, under another one only the first. -/
theorem flatOperands_operation (op : Op) (operands : List Expr) :
    flatOperands (.operation op operands) =
      if op.isAssociative then operands.flatMap (spliced op)
      else (operands.take 1).flatMap (spliced op) ++ (operands.drop 1).map flatten := by
  have h := fun e (_ : e ∈ operands) => flatOperandsOnto_eq_append e
  rw [flatOperands, flatOperandsOnto, mergeEveryOnto_eq_flatMap op operands h, List.append_nil]
  split
  · rfl
  · cases operands with
    | nil => rfl
    | cons e es => simp [mergeFirstOnto_cons op e es (h e (by simp))]

end Reckon.Expr
