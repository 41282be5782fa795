import Reckon.Expr.Basic

/-!
# Post-order

The post-order of an expression lists it and all expressions inside it, each after its operands and
operands from left to right. It comes in two forms:

* `Expr.postOrder`, by recursion on the expression;
* `Expr.walk`, a traversal that yields one expression at a time (`Walk.next`). It keeps a stack of
  the expressions that are still to be visited, and remembers the one that was visited last. This
  tells what to do with an operation on top of the stack: if the last of its operands was visited
  last, it is its turn, and otherwise its operands are put on the stack first.

What is on the stack comes with its place in the whole expression, and what is remembered is a
place. So equal expressions in different places do not get in each other's way.
-/

namespace Reckon

namespace Expr

mutual

/-- The expressions inside an expression and itself, in post-order. -/
def postOrder : Expr → List Expr
  | .value n => [.value n]
  | .var name => [.var name]
  | .operation op operands => postOrderEach operands ++ [.operation op operands]

/-- The post-orders of the expressions of a list, one after the other. -/
def postOrderEach : List Expr → List Expr
  | [] => []
  | e :: es => postOrder e ++ postOrderEach es

end

theorem postOrderEach_eq_flatMap (es : List Expr) : postOrderEach es = es.flatMap postOrder := by
  induction es with
  | nil => rfl
  | cons e es ih => simp [postOrderEach, ih]

/-- An operation comes after all of its operands. -/
theorem postOrder_operation (op : Op) (operands : List Expr) :
    postOrder (.operation op operands) =
      operands.flatMap postOrder ++ [.operation op operands] := by
  rw [postOrder, postOrderEach_eq_flatMap]

/-- What is inside an operand is inside the operation. -/
theorem mem_postOrder_operation_of_mem {op : Op} {operands : List Expr} {e a : Expr}
    (he : e ∈ operands) (ha : a ∈ e.postOrder) : a ∈ (operation op operands).postOrder := by
  rw [postOrder_operation, List.mem_append, List.mem_flatMap]
  exact Or.inl ⟨e, he, ha⟩

end Expr

/-! ### Step by step -/

/-- An expression in its place inside another one. -/
structure Place where
  /-- The operands that lead there, each by its position among the operands of the one around it,
  the innermost first. -/
  path : List Nat
  expr : Expr
  deriving DecidableEq, Repr

/-- The places of operands of the operation at `path`, the first of which has position `i`. -/
def Place.operandsFrom (path : List Nat) (i : Nat) (operands : List Expr) : List Place :=
  operands.mapIdx fun k e => ⟨(i + k) :: path, e⟩

/-- A traversal in post-order that has come some way. -/
structure Walk where
  /-- What is still to be visited, except for operands that were not put on the stack yet. -/
  stack : List Place
  /-- The path of what was visited last. -/
  last : Option (List Nat)

namespace Walk

/-- Goes down from the expression at `path`, which was on top of the stack, to the first one that
can be visited. The operands on the way are put on the stack in front of their operation. An
operation can be visited if it has no operands, or if the last one was visited last. -/
def descend (last : Option (List Nat)) (path : List Nat) (e : Expr) (below : List Place) :
    Place × List Place :=
  match e with
  | .operation op (e :: es) =>
    if last = some (es.length :: path) then (⟨path, .operation op (e :: es)⟩, below)
    else
      descend last (0 :: path) e
        (Place.operandsFrom path 1 es ++ ⟨path, .operation op (e :: es)⟩ :: below)
  | e => (⟨path, e⟩, below)

/-- Yields what is visited next. A traversal that is finished yields nothing, and stays so. -/
def next (w : Walk) : Option Place × Walk :=
  match w.stack with
  | [] => (none, w)
  | top :: below =>
    let (place, below) := descend w.last top.path top.expr below
    (some place, ⟨below, some place.path⟩)

/-- What is on top of the stack is visited after going down as far as needed. -/
theorem next_cons (top : Place) (below : List Place) (last : Option (List Nat)) :
    next ⟨top :: below, last⟩ =
      (some (descend last top.path top.expr below).1,
        ⟨(descend last top.path top.expr below).2,
          some (descend last top.path top.expr below).1.path⟩) := rfl

/-- What a traversal yields the first `n` times, or until it is finished. -/
def take : Nat → Walk → List Place
  | 0, _ => []
  | n + 1, w =>
    match w.next with
    | (none, _) => []
    | (some place, w) => place :: w.take n

/-- All the expressions that a traversal will yet yield. It does not visit more of them than there
are inside those on the stack. -/
def toList (w : Walk) : List Expr :=
  let size := (w.stack.map fun place => place.expr.size).foldr (· + ·) 0
  (w.take size).map Place.expr

end Walk

/-- The traversal of an expression in post-order, from its start. -/
def Expr.walk (e : Expr) : Walk :=
  ⟨[⟨[], e⟩], none⟩

end Reckon
