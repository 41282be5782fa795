import Reckon.Expr.Line

/-!
# Expressions as an outline

`Expr.outline` spreads an expression over lines, one for each leaf and one for each place between
two operands, which holds the operator. A line is indented by as many spaces as there are operations
around what it holds:

```text
 x
+
  2
 *
  y
```

There are no parentheses: the indentation alone carries the structure.

An outline is written in front of what comes after it (`Expr.outlineOnto`), so every character is
written once. The equations from `Expr.outlineAt_value` to `Expr.outlineAt_operation_cons` say what
the outline is.
-/

namespace Reckon.Expr

/-- Writes a row of an outline, indented by `depth` spaces, in front of `rest`. -/
def rowOnto (depth : Nat) (text rest : List Char) : List Char :=
  List.replicate depth ' ' ++ (text ++ '\n' :: rest)

mutual

/-- Writes the outline of an expression with `depth` operations around it, in front of `rest`. -/
def outlineOnto (depth : Nat) : Expr → List Char → List Char
  | .value n, rest => rowOnto depth (Text.decimal n) rest
  | .var name, rest => rowOnto depth [name] rest
  | .operation op operands, rest => outlineFirstOnto depth op operands rest

/-- Writes the operands of an operation `op` at `depth`, from the first one on. -/
def outlineFirstOnto (depth : Nat) (op : Op) : List Expr → List Char → List Char
  | [], rest => rest
  | e :: es, rest => outlineOnto (depth + 1) e (outlineLaterOnto depth op es rest)

/-- Writes operands of an operation `op` at `depth` after the first one, each below the operator. -/
def outlineLaterOnto (depth : Nat) (op : Op) : List Expr → List Char → List Char
  | [], rest => rest
  | e :: es, rest =>
    rowOnto depth [op.symbol] (outlineOnto (depth + 1) e (outlineLaterOnto depth op es rest))

end

/-- The outline of an expression with `depth` operations around it. -/
def outlineAt (depth : Nat) (e : Expr) : List Char :=
  outlineOnto depth e []

/-- The outline of an expression. -/
def outline (e : Expr) : List Char :=
  e.outlineAt 0

/-! ### Equations -/

/-- A row of an outline. -/
def row (depth : Nat) (text : List Char) : List Char :=
  List.replicate depth ' ' ++ text ++ ['\n']

/-- A later operand of an operation `op` at `depth`, below the operator. -/
def outlineLater (depth : Nat) (op : Op) (e : Expr) : List Char :=
  row depth [op.symbol] ++ outlineAt (depth + 1) e

theorem rowOnto_eq_append (depth : Nat) (text rest : List Char) :
    rowOnto depth text rest = row depth text ++ rest := by
  simp [rowOnto, row]

theorem outlineLaterOnto_eq_flatMap (depth : Nat) (op : Op) (es : List Expr)
    (h : ∀ e ∈ es, ∀ rest, outlineOnto (depth + 1) e rest = outlineAt (depth + 1) e ++ rest)
    (rest : List Char) :
    outlineLaterOnto depth op es rest = es.flatMap (outlineLater depth op) ++ rest := by
  induction es with
  | nil => rfl
  | cons e es ih =>
    have ih := ih fun e he => h e (by simp [he])
    rw [outlineLaterOnto, ih, h e (by simp), rowOnto_eq_append, List.flatMap_cons, outlineLater]
    simp

/-- Writing in front of `rest` is writing and then putting `rest` behind. -/
theorem outlineOnto_eq_append (depth : Nat) (e : Expr) (rest : List Char) :
    outlineOnto depth e rest = outlineAt depth e ++ rest := by
  induction e generalizing depth rest with
  | value n => simp [outlineAt, outlineOnto, rowOnto]
  | var name => simp [outlineAt, outlineOnto, rowOnto]
  | operation op operands ih =>
    cases operands with
    | nil => rfl
    | cons e es =>
      have h := outlineLaterOnto_eq_flatMap depth op es fun e he rest => ih e (by simp [he]) _ rest
      have he := ih e (by simp) (depth + 1)
      rw [outlineAt, outlineOnto, outlineOnto, outlineFirstOnto, outlineFirstOnto, h, h, he, he]
      simp

@[simp]
theorem outlineAt_value (depth : Nat) (n : Int) :
    outlineAt depth (.value n) = row depth (Text.decimal n) := by
  simp [outlineAt, outlineOnto, rowOnto, row]

@[simp]
theorem outlineAt_var (depth : Nat) (name : Char) :
    outlineAt depth (.var name) = row depth [name] := by
  simp [outlineAt, outlineOnto, rowOnto, row]

@[simp]
theorem outlineAt_operation_nil (depth : Nat) (op : Op) :
    outlineAt depth (.operation op []) = [] := rfl

/-- The first operand comes before any operator, and each later one follows one. -/
theorem outlineAt_operation_cons (depth : Nat) (op : Op) (e : Expr) (es : List Expr) :
    outlineAt depth (.operation op (e :: es)) =
      outlineAt (depth + 1) e ++ es.flatMap (outlineLater depth op) := by
  rw [outlineAt, outlineOnto, outlineFirstOnto, outlineOnto_eq_append,
    outlineLaterOnto_eq_flatMap depth op es fun e _ => outlineOnto_eq_append _ e, List.append_nil]

end Reckon.Expr
