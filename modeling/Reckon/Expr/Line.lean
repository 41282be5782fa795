import Reckon.Expr.Basic
import Reckon.Text.Decimal

/-!
# Expressions on one line

`Expr.line` writes an expression the usual way, as in `2 * x + 3`: the operands of an operation in
order, with the operator and a space on each side of it between them.

An operand is put in parentheses where the usual reading of the operators would group it otherwise.
Operations that bind less tightly than their parent always need them. Since chains of operators that
bind alike are read from the left, the first operand needs none in that case, and a later one only
does without if it shares an associative operator with its parent. A negative integer needs them in
every place but the first, where its sign cannot be taken for an operator.

An expression is written in front of what comes after it (`Expr.lineOnto`), so every character is
written once. The equations from `Expr.line_value` to `Expr.line_operation_cons` say what the line
is.
-/

namespace Reckon.Expr

/-- Tests whether an expression needs parentheses as the first operand of the operator `parent`. -/
def bracketedFirst (parent : Op) : Expr → Bool
  | .operation op _ => op.precedence < parent.precedence
  | .value _ | .var _ => false

/-- Tests whether an expression needs parentheses as a later operand of the operator `parent`. -/
def bracketedLater (parent : Op) : Expr → Bool
  | .value n => n < 0
  | .var _ => false
  | .operation op _ =>
    op.precedence < parent.precedence ||
      op.precedence == parent.precedence && !(parent.isAssociative && op == parent)

mutual

/-- Writes an expression on one line, in front of `rest`. -/
def lineOnto : Expr → List Char → List Char
  | .value n, rest => Text.decimal n ++ rest
  | .var name, rest => name :: rest
  | .operation op operands, rest => lineFirstOnto op operands rest

/-- Writes the operands of `op` in front of `rest`, from the first one on. -/
def lineFirstOnto (op : Op) : List Expr → List Char → List Char
  | [], rest => rest
  | e :: es, rest =>
    if e.bracketedFirst op then '(' :: lineOnto e (')' :: lineLaterOnto op es rest)
    else lineOnto e (lineLaterOnto op es rest)

/-- Writes operands of `op` after the first one in front of `rest`, each behind the operator. -/
def lineLaterOnto (op : Op) : List Expr → List Char → List Char
  | [], rest => rest
  | e :: es, rest =>
    ' ' :: op.symbol :: ' ' ::
      if e.bracketedLater op then '(' :: lineOnto e (')' :: lineLaterOnto op es rest)
      else lineOnto e (lineLaterOnto op es rest)

end

/-- The characters of an expression on one line. -/
def line (e : Expr) : List Char :=
  e.lineOnto []

instance : ToString Expr := ⟨fun e => String.ofList e.line⟩

/-! ### Equations -/

/-- Puts text in parentheses if asked to. -/
def bracket (needed : Bool) (text : List Char) : List Char :=
  if needed then '(' :: (text ++ [')']) else text

/-- A later operand of `op`, behind the operator. -/
def lineLater (op : Op) (e : Expr) : List Char :=
  ' ' :: op.symbol :: ' ' :: bracket (e.bracketedLater op) e.line

theorem lineLaterOnto_eq_flatMap (op : Op) (es : List Expr)
    (h : ∀ e ∈ es, ∀ rest, e.lineOnto rest = e.line ++ rest) (rest : List Char) :
    lineLaterOnto op es rest = es.flatMap (lineLater op) ++ rest := by
  induction es with
  | nil => rfl
  | cons e es ih =>
    have ih := ih fun e he => h e (by simp [he])
    rw [lineLaterOnto, ih, h e (by simp), h e (by simp), List.flatMap_cons, lineLater, bracket]
    split <;> simp

theorem lineFirstOnto_cons (op : Op) (e : Expr) (es : List Expr)
    (h : ∀ e' ∈ e :: es, ∀ rest, e'.lineOnto rest = e'.line ++ rest) (rest : List Char) :
    lineFirstOnto op (e :: es) rest =
      bracket (e.bracketedFirst op) e.line ++ es.flatMap (lineLater op) ++ rest := by
  have hes := lineLaterOnto_eq_flatMap op es fun e he => h e (by simp [he])
  rw [lineFirstOnto, hes, h e (by simp), h e (by simp), bracket]
  split <;> simp

/-- Writing in front of `rest` is writing and then putting `rest` behind. -/
theorem lineOnto_eq_append (e : Expr) (rest : List Char) : e.lineOnto rest = e.line ++ rest := by
  induction e generalizing rest with
  | value n => simp [line, lineOnto]
  | var name => rfl
  | operation op operands ih =>
    cases operands with
    | nil => rfl
    | cons e es =>
      have h := lineFirstOnto_cons op e es fun e he rest => ih e he rest
      rw [line, lineOnto, lineOnto, h, h []]
      simp

@[simp]
theorem line_value (n : Int) : line (.value n) = Text.decimal n := by
  simp [line, lineOnto]

@[simp]
theorem line_var (name : Char) : line (.var name) = [name] := rfl

@[simp]
theorem line_operation_nil (op : Op) : line (.operation op []) = [] := rfl

/-- The first operand opens the line of an operation, and each later one follows an operator. -/
theorem line_operation_cons (op : Op) (e : Expr) (es : List Expr) :
    line (.operation op (e :: es)) =
      bracket (e.bracketedFirst op) e.line ++ es.flatMap (lineLater op) := by
  rw [line, lineOnto, lineFirstOnto_cons op e es fun e _ => e.lineOnto_eq_append, List.append_nil]

end Reckon.Expr
