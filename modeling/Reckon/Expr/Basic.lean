import Reckon.Operator

/-!
# Expressions

An expression is an integer, a variable, or an operator applied to a list of operands. The list may
have any length: `1 + 2 + 3` can be one addition of three operands or two nested additions of two,
and a subtraction or division of several operands takes or divides by the later ones in turn.

Expressions contain lists of expressions, so this file supplies what such a type does not come with:

* `Expr.induction`, whose hypothesis covers every operand of an operation;
* decidable equality;
* `Expr.fold`, the one recursion from which the functions that treat all operands alike are made.
  Its three equations (`fold_value`, `fold_var`, `fold_operation`) are all that is needed to reason
  about them.

It also holds `Expr.ofOperands`, which builds an operation without ever wrapping a single operand.
-/

namespace Reckon

/-- An expression. -/
inductive Expr where
  | value (n : Int)
  | var (name : Char)
  | operation (op : Op) (operands : List Expr)
  deriving Repr, Inhabited

namespace Expr

/-! ### Induction and recursion -/

/-- To prove a statement about every expression, prove it of the leaves, and of an operation given
that it holds of each operand. -/
@[elab_as_elim, induction_eliminator]
theorem induction {motive : Expr → Prop} (value : ∀ n, motive (.value n))
    (var : ∀ name, motive (.var name))
    (operation : ∀ op operands, (∀ e ∈ operands, motive e) → motive (.operation op operands))
    (e : Expr) : motive e :=
  @Expr.rec motive (fun es => ∀ e ∈ es, motive e) value var operation
    (by simp) (fun _ _ he hes => by simpa using ⟨he, hes⟩) e

mutual

/-- Replaces every constructor of an expression by a function, from the leaves upward. -/
def fold {α : Type u} (value : Int → α) (var : Char → α) (operation : Op → List α → α) : Expr → α
  | .value n => value n
  | .var name => var name
  | .operation op operands => operation op (foldEach value var operation operands)

/-- Folds each expression of a list. -/
def foldEach {α : Type u} (value : Int → α) (var : Char → α) (operation : Op → List α → α) :
    List Expr → List α
  | [] => []
  | e :: es => fold value var operation e :: foldEach value var operation es

end

section Fold

variable {α : Type u} (value : Int → α) (var : Char → α) (operation : Op → List α → α)

theorem foldEach_eq_map (es : List Expr) :
    foldEach value var operation es = es.map (fold value var operation) := by
  induction es with
  | nil => rfl
  | cons e es ih => simp [foldEach, ih]

@[simp]
theorem fold_value (n : Int) : fold value var operation (.value n) = value n := rfl

@[simp]
theorem fold_var (name : Char) : fold value var operation (.var name) = var name := rfl

@[simp]
theorem fold_operation (op : Op) (operands : List Expr) :
    fold value var operation (.operation op operands) =
      operation op (operands.map (fold value var operation)) := by
  simp [fold, foldEach_eq_map]

end Fold

/-! ### Equality -/

mutual

/-- Decides whether two expressions are equal. -/
def decEq : (a b : Expr) → Decidable (a = b)
  | .value m, .value n => decidable_of_iff (m = n) (by simp)
  | .var c, .var d => decidable_of_iff (c = d) (by simp)
  | .operation op as, .operation op' bs =>
    have := decEqEach as bs
    decidable_of_iff (op = op' ∧ as = bs) (by simp)
  | .value _, .var _ | .value _, .operation .. | .var _, .value _ | .var _, .operation ..
  | .operation .., .value _ | .operation .., .var _ => isFalse (by simp)

/-- Decides whether two lists of expressions are equal. -/
def decEqEach : (as bs : List Expr) → Decidable (as = bs)
  | [], [] => isTrue rfl
  | a :: as, b :: bs =>
    have := decEq a b
    have := decEqEach as bs
    decidable_of_iff (a = b ∧ as = bs) (by simp)
  | [], _ :: _ | _ :: _, [] => isFalse (by simp)

end

instance : DecidableEq Expr := decEq

/-! ### Looking at an expression -/

/-- The integer, if the expression is one. -/
def value? : Expr → Option Int
  | .value n => some n
  | _ => none

/-- The name of the variable, if the expression is one. -/
def var? : Expr → Option Char
  | .var name => some name
  | _ => none

/-- The operator and the operands, if the expression is an operation. -/
def operation? : Expr → Option (Op × List Expr)
  | .operation op operands => some (op, operands)
  | _ => none

/-- Tests whether the expression is an integer. -/
def isValue : Expr → Bool
  | .value _ => true
  | _ => false

/-- Tests whether the expression is an operation with the given operator. -/
def isOperation (e : Expr) (op : Op) : Bool :=
  match e with
  | .operation op' _ => op' = op
  | _ => false

/-- The operands that an expression brings into an operation around it: its own operands if it has
the same operator, else itself. -/
def operandsUnder (op : Op) (e : Expr) : List Expr :=
  match e with
  | .operation op' operands => if op' = op then operands else [e]
  | _ => [e]

theorem isOperation_iff {op : Op} {e : Expr} :
    e.isOperation op = true ↔ ∃ operands, e = .operation op operands := by
  cases e <;> simp [isOperation]

@[simp]
theorem operandsUnder_operation_self (op : Op) (operands : List Expr) :
    (operation op operands).operandsUnder op = operands := by
  simp [operandsUnder]

/-- An expression without the operator is brought in as it is. -/
theorem operandsUnder_of_isOperation_eq_false {op : Op} {e : Expr} (h : e.isOperation op = false) :
    e.operandsUnder op = [e] := by
  cases e with
  | value n => rfl
  | var name => rfl
  | operation op' operands =>
    have hne : op' ≠ op := by simpa [isOperation] using h
    simp [operandsUnder, hne]

/-! ### Building an operation -/

/-- An operation on the given operands. A single operand stands for itself, and no operands at all
stand for the identity of the operator if it has one. -/
def ofOperands (op : Op) : List Expr → Expr
  | [e] => e
  | [] =>
    match op.identity with
    | some n => .value n
    | none => .operation op []
  | operands => .operation op operands

@[simp]
theorem ofOperands_singleton (op : Op) (e : Expr) : ofOperands op [e] = e := rfl

@[simp]
theorem ofOperands_cons_cons (op : Op) (a b : Expr) (es : List Expr) :
    ofOperands op (a :: b :: es) = .operation op (a :: b :: es) := rfl

theorem ofOperands_of_two_le_length {op : Op} {es : List Expr} (h : 2 ≤ es.length) :
    ofOperands op es = .operation op es := by
  match es with
  | [] | [_] => simp at h
  | _ :: _ :: _ => rfl

/-! ### Size and height -/

/-- The number of values, variables and operations in an expression. -/
def size : Expr → Nat :=
  fold (fun _ => 1) (fun _ => 1) fun _ sizes => sizes.foldr (· + ·) 1

/-- The number of operations on the longest way down to a leaf. -/
def height : Expr → Nat :=
  fold (fun _ => 0) (fun _ => 0) fun _ heights => heights.foldr max 0 + 1

@[simp]
theorem size_operation (op : Op) (operands : List Expr) :
    size (.operation op operands) = (operands.map size).foldr (· + ·) 1 := by
  simp [size]

@[simp]
theorem height_value (n : Int) : height (.value n) = 0 := rfl

@[simp]
theorem height_var (name : Char) : height (.var name) = 0 := rfl

@[simp]
theorem height_operation (op : Op) (operands : List Expr) :
    height (.operation op operands) = (operands.map height).foldr max 0 + 1 := by
  simp [height]

end Expr

end Reckon
