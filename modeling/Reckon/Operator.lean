/-!
# Operators

The four operators of arithmetic, with what the rest of the library needs to know about each: how
it is written, how tightly it binds, whether its operands may be regrouped, and how its *later*
operands (all but the first) combine with each other.

The last point is what lets a subtraction or a division be treated as an operation on a whole list
of operands. `a - b - c` takes the sum `b + c` away from `a`, and `a / b / c` divides `a` by the
product `b * c`, so the later operands of `-` combine by `+` and those of `/` by `*`
(`Op.accumulator`). The later operands of `+` and `*` combine by the operator itself
(`Op.accumulator_eq_self_iff`).
-/

namespace Reckon

/-- An operator of arithmetic. -/
inductive Op where
  | add
  | sub
  | mul
  | div
  deriving DecidableEq, Repr

namespace Op

/-- The character that the operator is written with. -/
def symbol : Op → Char
  | add => '+'
  | sub => '-'
  | mul => '*'
  | div => '/'

/-- The operator that a character stands for. -/
def ofChar? : Char → Option Op
  | '+' => some add
  | '-' => some sub
  | '*' => some mul
  | '/' => some div
  | _ => none

instance : ToString Op := ⟨fun op => op.symbol.toString⟩

/-- An operator is associative if its operands may be regrouped at will. -/
def isAssociative : Op → Bool
  | add | mul => true
  | sub | div => false

/-- How tightly the operator binds: multiplication and division before addition and subtraction. -/
def precedence : Op → Nat
  | add | sub => 1
  | mul | div => 2

/-- The operator by which the later operands of an operation combine with each other. -/
def accumulator : Op → Op
  | add | sub => add
  | mul | div => mul

/-- The operand that an associative operation may drop. The other operators have one only for their
later operands, which is `Op.unit`. -/
def identity : Op → Option Int
  | add => some 0
  | mul => some 1
  | sub | div => none

/-- The value of a later operand that changes nothing: nothing is added or taken away by `0`, and
nothing is multiplied or divided by `1`. -/
def unit : Op → Int
  | add | sub => 0
  | mul | div => 1

/-- Combines two later operands. -/
def accumulate : Op → Int → Int → Int
  | add | sub => (· + ·)
  | mul | div => (· * ·)

/-- Combines any number of later operands. -/
def total (op : Op) (ns : List Int) : Int :=
  ns.foldl op.accumulate op.unit

/-! ### Laws of the tables -/

@[simp]
theorem ofChar?_symbol (op : Op) : ofChar? op.symbol = some op := by
  cases op <;> rfl

theorem symbol_of_ofChar?_eq_some {c : Char} {op : Op} (h : ofChar? c = some op) :
    op.symbol = c := by
  unfold ofChar? at h
  split at h <;> simp_all [symbol] <;> subst h <;> rfl

theorem accumulator_eq_self_iff (op : Op) : op.accumulator = op ↔ op.isAssociative = true := by
  cases op <;> simp [accumulator, isAssociative]

theorem identity_eq_some_iff (op : Op) (n : Int) :
    op.identity = some n ↔ op.isAssociative = true ∧ n = op.unit := by
  cases op <;> simp [identity, isAssociative, unit, eq_comm]

theorem accumulate_assoc (op : Op) (a b c : Int) :
    op.accumulate (op.accumulate a b) c = op.accumulate a (op.accumulate b c) := by
  cases op <;> simp [accumulate, Int.add_assoc, Int.mul_assoc]

@[simp]
theorem accumulate_unit_left (op : Op) (a : Int) : op.accumulate op.unit a = a := by
  cases op <;> simp [accumulate, unit]

@[simp]
theorem accumulate_unit_right (op : Op) (a : Int) : op.accumulate a op.unit = a := by
  cases op <;> simp [accumulate, unit]

end Op

end Reckon
