import Mathlib.Algebra.Order.Field.Rat
import Mathlib.Tactic.FieldSimp
import Mathlib.Tactic.Ring
import Reckon.Proofs.Shape

/-!
# The meaning of an expression

`Expr.meaning env e` is the rational number that `e` denotes when each variable has the value that
`env` gives it. There may be none: a division by zero has no meaning, and neither has an operation
with an operand that has none.

An operation is applied to its operands from the left, as in `a - b - c` or `a / b / c`
(`Op.applyAll`). Everything that the passes over expressions rely on follows from two facts: the
operands after the first one can be combined with each other beforehand, by the accumulator of the
operator (`applyAll_cons`), and the operands of an addition or multiplication can be regrouped and
reordered (`applyAll_append`, `applyAll_perm`).
-/

namespace Reckon

namespace Op

/-- Applies an operator to two values, either of which may be missing. There is no quotient by
zero. -/
def apply (op : Op) (x y : Option ℚ) : Option ℚ :=
  match x, y with
  | some a, some b =>
    match op with
    | add => some (a + b)
    | sub => some (a - b)
    | mul => some (a * b)
    | div => if b = 0 then none else some (a / b)
  | _, _ => none

/-- Applies an operator to any number of values, from the left. Without any there is only the
identity of the operator. -/
def applyAll (op : Op) : List (Option ℚ) → Option ℚ
  | [] => op.identity.map fun n => (n : ℚ)
  | x :: xs => xs.foldl op.apply x

end Op

/-- The value of an expression whose variables have the values in `env`, if it has one. -/
def Expr.meaning (env : Char → ℚ) : Expr → Option ℚ :=
  fold (fun n => some (n : ℚ)) (fun name => some (env name)) Op.applyAll

namespace Op

/-! ### Two values -/

@[simp]
theorem apply_none_left (op : Op) (y : Option ℚ) : op.apply none y = none := rfl

@[simp]
theorem apply_none_right (op : Op) (x : Option ℚ) : op.apply x none = none := by
  cases x <;> rfl

@[simp]
theorem accumulator_accumulator (op : Op) : op.accumulator.accumulator = op.accumulator := by
  cases op <;> rfl

@[simp]
theorem isAssociative_accumulator (op : Op) : op.accumulator.isAssociative = true := by
  cases op <;> rfl

@[simp]
theorem unit_accumulator (op : Op) : op.accumulator.unit = op.unit := by
  cases op <;> rfl

/-- `op.apply` with two values, one after the other, is `op.apply` with what `op.accumulator` makes
of them. -/
theorem apply_apply (op : Op) (x y z : Option ℚ) :
    op.apply (op.apply x y) z = op.apply x (op.accumulator.apply y z) := by
  rcases x with _ | a
  · simp
  rcases y with _ | b
  · simp
  rcases z with _ | c
  · simp
  cases op with
  | add => simp [apply, accumulator, add_assoc]
  | sub => simp [apply, accumulator, sub_sub]
  | mul => simp [apply, accumulator, mul_assoc]
  | div =>
    simp only [apply, accumulator]
    by_cases hb : b = 0
    · simp [hb]
    by_cases hc : c = 0
    · simp [hb, hc]
    simp only [hb, hc, mul_eq_zero, or_self, ↓reduceIte, Option.some.injEq]
    exact div_div a b c

/-- `op.apply` with `op.unit` changes nothing. -/
@[simp]
theorem apply_unit (op : Op) (x : Option ℚ) : op.apply x (some (op.unit : ℚ)) = x := by
  rcases x with _ | a
  · rfl
  cases op <;> simp [apply, unit]

theorem apply_comm {op : Op} (h : op.isAssociative = true) (x y : Option ℚ) :
    op.apply x y = op.apply y x := by
  rcases x with _ | a
  · simp
  rcases y with _ | b
  · simp
  cases op with
  | add => simp [apply, add_comm]
  | mul => simp [apply, mul_comm]
  | sub => simp [isAssociative] at h
  | div => simp [isAssociative] at h

/-- `op.accumulator` makes of two integers what `op.accumulate` does. -/
theorem apply_accumulator_intCast (op : Op) (m n : Int) :
    op.accumulator.apply (some (m : ℚ)) (some (n : ℚ)) = some (op.accumulate m n : ℚ) := by
  cases op <;> simp [apply, accumulator, accumulate]

/-! ### Any number of values -/

@[simp]
theorem applyAll_singleton (op : Op) (x : Option ℚ) : op.applyAll [x] = x := rfl

theorem applyAll_nil {op : Op} (h : op.isAssociative = true) :
    op.applyAll [] = some (op.unit : ℚ) := by
  cases op with
  | add => rfl
  | mul => rfl
  | sub => simp [isAssociative] at h
  | div => simp [isAssociative] at h

/-- `applyAll` may combine the later values by `op.accumulator` first. -/
theorem applyAll_cons (op : Op) (x : Option ℚ) (xs : List (Option ℚ)) :
    op.applyAll (x :: xs) = op.apply x (op.accumulator.applyAll xs) := by
  induction xs generalizing op x with
  | nil =>
    rw [applyAll_nil op.isAssociative_accumulator, unit_accumulator, apply_unit, applyAll_singleton]
  | cons y ys ih =>
    -- `apply_apply` moves one later value after the other to the right
    have hstep : op.applyAll (x :: y :: ys) = op.applyAll (op.apply x y :: ys) := rfl
    rw [hstep, ih op, apply_apply, ih op.accumulator, accumulator_accumulator]

/-- What `applyAll` makes of the first values counts as one value. -/
theorem applyAll_leading (op : Op) {xs : List (Option ℚ)} (hne : xs ≠ [])
    (ys : List (Option ℚ)) : op.applyAll (op.applyAll xs :: ys) = op.applyAll (xs ++ ys) := by
  obtain ⟨x, xs, rfl⟩ := List.exists_cons_of_ne_nil hne
  simp [applyAll, List.foldl_append]

theorem applyAll_none_mem {op : Op} {xs : List (Option ℚ)} (h : none ∈ xs) :
    op.applyAll xs = none := by
  induction xs generalizing op with
  | nil => simp at h
  | cons x xs ih =>
    rw [applyAll_cons]
    rcases List.mem_cons.1 h with rfl | h
    · simp
    · simp [ih h]

section Associative

variable {op : Op} (h : op.isAssociative = true)
include h

theorem accumulator_eq_self : op.accumulator = op :=
  (accumulator_eq_self_iff op).2 h

theorem applyAll_cons_of_isAssociative (x : Option ℚ) (xs : List (Option ℚ)) :
    op.applyAll (x :: xs) = op.apply x (op.applyAll xs) := by
  rw [applyAll_cons, accumulator_eq_self h]

theorem apply_assoc (x y z : Option ℚ) :
    op.apply (op.apply x y) z = op.apply x (op.apply y z) := by
  rw [apply_apply, accumulator_eq_self h]

theorem unit_apply (x : Option ℚ) : op.apply (some (op.unit : ℚ)) x = x := by
  rw [apply_comm h, apply_unit]

theorem applyAll_append (xs ys : List (Option ℚ)) :
    op.applyAll (xs ++ ys) = op.apply (op.applyAll xs) (op.applyAll ys) := by
  induction xs with
  | nil => rw [List.nil_append, applyAll_nil h, unit_apply h]
  | cons x xs ih =>
    rw [List.cons_append, applyAll_cons_of_isAssociative h, ih,
      applyAll_cons_of_isAssociative h, apply_assoc h]

/-- What `applyAll` makes of some of the values counts as one value in any place. -/
theorem applyAll_flatMap {α : Type*} (f : α → List (Option ℚ)) (as : List α) :
    op.applyAll (as.flatMap f) = op.applyAll (as.map fun a => op.applyAll (f a)) := by
  induction as with
  | nil => rfl
  | cons a as ih =>
    rw [List.flatMap_cons, applyAll_append h, ih, List.map_cons, applyAll_cons_of_isAssociative h]

theorem applyAll_perm {xs ys : List (Option ℚ)} (hperm : xs.Perm ys) :
    op.applyAll xs = op.applyAll ys := by
  induction hperm with
  | nil => rfl
  | cons x _ ih => rw [applyAll_cons_of_isAssociative h, applyAll_cons_of_isAssociative h, ih]
  | swap x y zs =>
    simp only [applyAll_cons_of_isAssociative h]
    rw [← apply_assoc h, apply_comm h y x, apply_assoc h]
  | trans _ _ ih₁ ih₂ => exact ih₁.trans ih₂

/-- `applyAll` of integers, with one more in front, is computed by `op.accumulate`. -/
theorem apply_applyAll_intCast (m : Int) (ns : List Int) :
    op.apply (some (m : ℚ)) (op.applyAll (ns.map fun n : Int => some (n : ℚ))) =
      some ((ns.foldl op.accumulate m : Int) : ℚ) := by
  induction ns generalizing m with
  | nil => rw [List.map_nil, applyAll_nil h, apply_unit, List.foldl_nil]
  | cons n ns ih =>
    have hstep := apply_accumulator_intCast op m n
    rw [accumulator_eq_self h] at hstep
    rw [List.map_cons, applyAll_cons_of_isAssociative h, ← apply_assoc h, hstep, ih,
      List.foldl_cons]

/-- `applyAll` of integers is `op.total`. -/
theorem applyAll_intCast (ns : List Int) :
    op.applyAll (ns.map fun n : Int => some (n : ℚ)) = some (op.total ns : ℚ) := by
  rw [total, ← apply_applyAll_intCast h, unit_apply h]

end Associative

end Op

namespace Expr

variable (env : Char → ℚ)

/-! ### Meanings -/

@[simp]
theorem meaning_value (n : Int) : meaning env (.value n) = some (n : ℚ) := rfl

@[simp]
theorem meaning_var (name : Char) : meaning env (.var name) = some (env name) := rfl

@[simp]
theorem meaning_operation (op : Op) (operands : List Expr) :
    meaning env (.operation op operands) = op.applyAll (operands.map (meaning env)) := by
  simp [meaning]

theorem meaning_ofOperands (op : Op) (operands : List Expr) :
    meaning env (ofOperands op operands) = op.applyAll (operands.map (meaning env)) := by
  match operands with
  | [e] => rfl
  | a :: b :: es => rw [ofOperands_cons_cons, meaning_operation]
  | [] => cases op <;> simp [ofOperands, Op.identity, Op.applyAll]

/-- `applyAll` makes of what an expression brings into an operation the `meaning` of the
expression. -/
theorem applyAll_operandsUnder (op : Op) (e : Expr) :
    op.applyAll ((e.operandsUnder op).map (meaning env)) = meaning env e := by
  cases e with
  | value n => rfl
  | var name => rfl
  | operation op' operands =>
    rw [operandsUnder]
    split
    · rename_i heq
      rw [meaning_operation, heq]
    · rfl

/-! ### Flattening -/

/-- `applyAll` makes of what is `spliced` from an operand the `meaning` of the operand after
`flatten`. -/
theorem applyAll_spliced (op : Op) (e : Expr) :
    op.applyAll ((e.spliced op).map (meaning env)) = meaning env e.flatten := by
  rw [spliced]
  split
  · rename_i hop
    cases e with
    | value n => simp [isOperation] at hop
    | var name => simp [isOperation] at hop
    | operation op' operands =>
      obtain rfl : op' = op := by simpa [isOperation] using hop
      rw [flatten_operation, meaning_ofOperands]
  · rfl

/-- `flatten` keeps the `meaning` of a `Proper` expression. -/
theorem meaning_flatten {e : Expr} (h : e.Proper) : meaning env e.flatten = meaning env e := by
  induction e with
  | value n => rfl
  | var name => rfl
  | operation op operands ih =>
    obtain ⟨hne, hes⟩ := proper_operation.1 h
    have hspliced : ∀ e ∈ operands,
        op.applyAll ((e.spliced op).map (meaning env)) = meaning env e := by
      intro e he
      rw [applyAll_spliced, ih e he (hes e he)]
    rw [flatten_operation, meaning_ofOperands, meaning_operation, flatOperands_operation]
    split
    · rename_i hassoc
      rw [List.map_flatMap, Op.applyAll_flatMap hassoc, List.map_congr_left hspliced]
    · -- only the first operand is spliced, and its value comes first all the same
      obtain ⟨e, es, rfl⟩ := List.exists_cons_of_ne_nil hne
      have he : (e.spliced op).map (meaning env) ≠ [] := by
        simpa using (hes e (by simp)).spliced_ne_nil op
      have hflat : (es.map flatten).map (meaning env) = es.map (meaning env) := by
        rw [List.map_map]
        refine List.map_congr_left ?_
        intro e' he'
        have hmem := List.mem_cons_of_mem e he'
        exact ih e' hmem (hes e' hmem)
      simp only [List.take_succ_cons, List.take_zero, List.flatMap_cons, List.flatMap_nil,
        List.append_nil, List.drop_succ_cons, List.drop_zero, List.map_append, List.map_cons]
      rw [hflat, ← Op.applyAll_leading op he, hspliced e (by simp)]

/-! ### Elimination of subtraction -/

theorem meaning_negate (e : Expr) :
    meaning env (negate e) = Op.mul.apply (some (-1)) (meaning env e) := by
  simp [negate, Op.applyAll]

/-- Taking away is adding the opposite. -/
theorem add_apply_neg (x y : Option ℚ) :
    Op.add.apply x (Op.mul.apply (some (-1)) y) = Op.sub.apply x y := by
  rcases x with _ | a
  · rfl
  rcases y with _ | b
  · rfl
  simp [Op.apply, sub_eq_add_neg]

theorem meaning_difference {operands : List Expr} (hne : operands ≠ []) :
    meaning env (difference operands) = Op.sub.applyAll (operands.map (meaning env)) := by
  match operands with
  | [e] => rfl
  | e :: e' :: es =>
    have hsum := meaning_ofOperands env .add (e' :: es)
    show meaning env (.operation .add [e, negate (ofOperands .add (e' :: es))]) = _
    rw [meaning_operation, List.map_cons, List.map_cons, List.map_cons, List.map_nil,
      Op.applyAll_cons, Op.accumulator, Op.applyAll_singleton, meaning_negate, add_apply_neg, hsum,
      Op.applyAll_cons .sub, Op.accumulator, List.map_cons]

/-- `eliminateSubtraction` keeps the `meaning` of a `Proper` expression. -/
theorem meaning_eliminateSubtraction {e : Expr} (h : e.Proper) :
    meaning env e.eliminateSubtraction = meaning env e := by
  induction e with
  | value n => rfl
  | var name => rfl
  | operation op operands ih =>
    obtain ⟨hne, hes⟩ := proper_operation.1 h
    have hmap : (operands.map eliminateSubtraction).map (meaning env) =
        operands.map (meaning env) := by
      rw [List.map_map]
      exact List.map_congr_left fun e he => ih e he (hes e he)
    rw [eliminateSubtraction_operation, meaning_operation, ← hmap]
    by_cases hop : op = .sub
    · subst hop
      exact meaning_difference env (by simpa using hne)
    · rw [withoutSubtraction_of_ne_sub hop, meaning_ofOperands]

/-- `canonicalize` keeps the `meaning` of a `Proper` expression. -/
theorem meaning_canonicalize {e : Expr} (h : e.Proper) :
    meaning env e.canonicalize = meaning env e := by
  have hflat := h.flatten
  rw [canonicalize, meaning_flatten env hflat.eliminateSubtraction,
    meaning_eliminateSubtraction env hflat, meaning_flatten env h]

end Expr

end Reckon
