import Reckon.Expr.Basic
import Reckon.Fault

/-!
# Chains of operands

A chain is a row of operands with an operator between each two, such as `a + b - c + d`. It becomes
a tree of operations of two operands each. Chains are read from the left, except that a run of the
same associative operator is nested to the right: `a + b + c` becomes `a + (b + c)`, while
`a - b - c` becomes `(a - b) - c` and `a - b + c` becomes `(a - b) + c`. What was read before a run
counts as its first operand.

Terms that stand side by side form a chain of multiplications.

The trees may not be taller than a limit. Each operation is checked when it is built, and the one
that would be too tall is reported at its operator; runs are built from left to right and each of
them from its right end, so it is the first such operation in that order (`Chain.close`).
-/

namespace Reckon

/-- An expression along with its height. -/
structure Measured where
  expr : Expr
  height : Nat
  height_eq : expr.height = height

namespace Measured

/-- A leaf has no height. -/
def value (n : Int) : Measured := ⟨.value n, 0, rfl⟩

/-- A leaf has no height. -/
def var (name : Char) : Measured := ⟨.var name, 0, rfl⟩

/-- An operation of two operands. -/
def binary (op : Op) (left right : Measured) : Measured where
  expr := .operation op [left.expr, right.expr]
  height := max left.height right.height + 1
  height_eq := by simp [left.height_eq, right.height_eq]

@[ext]
theorem ext {a b : Measured} (h : a.expr = b.expr) : a = b := by
  obtain ⟨e, m, hm⟩ := a
  obtain ⟨e', n, hn⟩ := b
  obtain rfl : e = e' := h
  obtain rfl : m = n := hm.symm.trans hn
  rfl

end Measured

namespace Chain

/-- An operand of a chain with the operator after it. -/
structure Link where
  operand : Measured
  op : Op
  /-- Where the operator stands. Side by side terms have none; then it is where the next one
  begins. -/
  span : Span

/-- Joins the operand of a link with what follows the link. -/
def join (limit : Nat) (link : Link) (right : Measured) : Except Error Measured :=
  let joined := Measured.binary link.op link.operand right
  if joined.height > limit then .error ⟨[link.span], .expressionTooDeep limit⟩
  else .ok joined

/-- Nests links to the right: `last` is the operand after all of them, and the last link comes
first. -/
def nest (limit : Nat) (links : List Link) (last : Measured) : Except Error Measured :=
  links.foldlM (fun right link => join limit link right) last

/-- Tests whether two operators after each other belong to one run. -/
def sameRun (op next : Op) : Bool :=
  op.isAssociative && op == next

/-- Adds a link to a run, of which the last link comes first. If it does not belong to the run, it
begins a new one, with the finished run as its first operand. -/
def extend (limit : Nat) (run : List Link) (link : Link) : Except Error (List Link) :=
  match run with
  | [] => .ok [link]
  | last :: _ =>
    if sameRun last.op link.op then .ok (link :: run)
    else do
      let left ← nest limit run link.operand
      return [{ link with operand := left }]

/-- Closes a chain: `last` is the operand after all the links, and the last link comes first. -/
def close (limit : Nat) (links : List Link) (last : Measured) : Except Error Measured := do
  let run ← links.reverse.foldlM (extend limit) []
  nest limit run last

end Chain

end Reckon
