import Reckon.Proofs.NormalForm

/-!
# When a division by zero is found

Evaluation fails exactly if some division in the expression has a divisor that evaluates to zero
(`evaluate_eq_error_iff`). It looks for zeros only after the leading operand was merged and
neighbouring integers were combined, but that makes no difference:

* a product of integers is zero only if one of them is, so combining neighbours neither hides a zero
  nor makes one (`zero_mem_combineNeighbours_iff`);
* the divisors that a leading quotient brings in were evaluated, and so none of them is zero
  (`Normal.zero_mem_tail_mergeLeading_iff`).

The dividend does not matter, whether it is zero itself or no integer at all.
-/

namespace Reckon.Expr

/-- A division in the expression has a divisor that evaluates to zero. -/
def DividesByZero (e : Expr) : Prop :=
  ∃ first later, .operation .div (first :: later) ∈ e.postOrder ∧
    ∃ d ∈ later, d.evaluate = .ok (.value 0)

theorem not_dividesByZero_value (n : Int) : ¬ DividesByZero (.value n) := by
  rintro ⟨first, later, hmem, -⟩
  simp [postOrder] at hmem

theorem not_dividesByZero_var (name : Char) : ¬ DividesByZero (.var name) := by
  rintro ⟨first, later, hmem, -⟩
  simp [postOrder] at hmem

/-- `DividesByZero` is said of an operation if it is said of an operand, or if a later operand of a
division evaluates to zero. -/
theorem dividesByZero_operation {op : Op} {operands : List Expr} :
    DividesByZero (.operation op operands) ↔
      (∃ e ∈ operands, e.DividesByZero) ∨
        (op = .div ∧ ∃ d ∈ operands.tail, d.evaluate = .ok (.value 0)) := by
  unfold DividesByZero
  constructor
  · rintro ⟨first, later, hmem, hzero⟩
    rw [postOrder_operation, List.mem_append, List.mem_flatMap] at hmem
    rcases hmem with ⟨e, he, hmem⟩ | hmem
    · exact Or.inl ⟨e, he, first, later, hmem, hzero⟩
    · obtain ⟨rfl, rfl⟩ : .div = op ∧ first :: later = operands := by simpa using hmem
      exact Or.inr ⟨rfl, hzero⟩
  · rintro (⟨e, he, first, later, hmem, hzero⟩ | ⟨rfl, d, hd, hzero⟩)
    · refine ⟨first, later, ?_, hzero⟩
      rw [postOrder_operation, List.mem_append, List.mem_flatMap]
      exact Or.inl ⟨e, he, hmem⟩
    · have hne : operands ≠ [] := List.ne_nil_of_mem (List.mem_of_mem_tail hd)
      obtain ⟨first, later, rfl⟩ := List.exists_cons_of_ne_nil hne
      exact ⟨first, later, by simp [postOrder_operation], d, hd, hzero⟩

/-! ### Divisions of evaluated operands -/

/-- `attachOperand` neither hides a zero among divisors nor makes one. -/
theorem zero_mem_attachOperand_iff {e : Expr} {es : List Expr} :
    .value 0 ∈ attachOperand .div e es ↔ .value 0 ∈ e :: es := by
  unfold attachOperand
  split
  · rename_i m n es
    have hproduct : Op.div.accumulate m n = 0 ↔ m = 0 ∨ n = 0 := Int.mul_eq_zero
    simp only [List.mem_cons, Expr.value.injEq, eq_comm (a := (0 : Int)), hproduct, or_assoc]
  · exact Iff.rfl

/-- `combineNeighbours` neither hides a zero among divisors nor makes one. -/
theorem zero_mem_combineNeighbours_iff {es : List Expr} :
    .value 0 ∈ combineNeighbours .div es ↔ .value 0 ∈ es := by
  induction es with
  | nil => exact Iff.rfl
  | cons e es ih =>
    rw [combineNeighbours, List.foldr_cons, zero_mem_attachOperand_iff, List.mem_cons,
      List.mem_cons]
    exact or_congr_right ih

/-- `mergeLeading` brings in no divisor that is zero, if the first operand is `Normal`. -/
theorem Normal.zero_mem_tail_mergeLeading_iff {first : Expr} (h : first.Normal)
    (later : List Expr) :
    .value 0 ∈ (mergeLeading .div (first :: later)).tail ↔ .value 0 ∈ later := by
  rw [mergeLeading]
  by_cases hop : first.isOperation .div = true
  · obtain ⟨operands, rfl⟩ := isOperation_iff.1 hop
    have hzero := ((normal_operation.1 h).1.combined rfl).zero_notMem rfl
    obtain ⟨x, xs, rfl⟩ := List.exists_cons_of_ne_nil (proper_operation.1 h.proper).1
    rw [operandsUnder_operation_self, List.cons_append, List.tail_cons, List.mem_append]
    exact or_iff_right hzero
  · rw [operandsUnder_of_isOperation_eq_false (by simpa using hop)]
    exact Iff.rfl

/-- `evaluatePositional` fails on `Normal` operands exactly if it divides by an integer that is
zero. -/
theorem evaluatePositional_eq_error_iff {op : Op} {es : List Expr} {x : EvalError} (hne : es ≠ [])
    (hes : ∀ e ∈ es, e.Normal) :
    evaluatePositional op es = .error x ↔ op = .div ∧ .value 0 ∈ es.tail := by
  have hunder : ∀ e ∈ es, e.operandsUnder op ≠ [] := fun e he =>
    ((hes e he).proper.operandsUnder op).1
  obtain ⟨first, later, hmerge⟩ := List.exists_cons_of_ne_nil (mergeLeading_ne_nil hne hunder)
  have hfail : (op = .div ∧ .value 0 ∈ combineNeighbours op later) ↔
      (op = .div ∧ .value 0 ∈ es.tail) := by
    refine and_congr_right ?_
    rintro rfl
    obtain ⟨e, es, rfl⟩ := List.exists_cons_of_ne_nil hne
    have htail := (hes e (by simp)).zero_mem_tail_mergeLeading_iff es
    rw [hmerge, List.tail_cons] at htail
    rw [zero_mem_combineNeighbours_iff, htail, List.tail_cons]
  rw [evaluatePositional_of_mergeLeading hmerge, ← hfail]
  split
  · rename_i hzero
    cases x
    exact iff_of_true rfl hzero
  · rename_i hzero
    exact iff_of_false (by simp) hzero

/-- `evaluateOperation` fails on `Normal` operands exactly if it divides by an integer that is
zero. -/
theorem evaluateOperation_eq_error_iff {op : Op} {es : List Expr} {x : EvalError} (hne : es ≠ [])
    (hes : ∀ e ∈ es, e.Normal) :
    evaluateOperation op es = .error x ↔ op = .div ∧ .value 0 ∈ es.tail := by
  rw [evaluateOperation]
  split
  · rename_i hop
    refine iff_of_false (by simp) ?_
    rintro ⟨rfl, -⟩
    contradiction
  · exact evaluatePositional_eq_error_iff hne hes

/-! ### Expressions -/

/-- Evaluated one by one, the later operands have a zero among them if one of them evaluates to
zero. -/
theorem zero_mem_tail_iff_of_forall₂ {operands es : List Expr}
    (h : List.Forall₂ (fun e e' => evaluate e = .ok e') operands es) :
    .value 0 ∈ es.tail ↔ ∃ d ∈ operands.tail, d.evaluate = .ok (.value 0) := by
  have htail : List.Forall₂ (fun e e' => evaluate e = .ok e') operands.tail es.tail := by
    cases h with
    | nil => exact .nil
    | cons _ h => exact h
  constructor
  · exact exists_of_forall₂_right htail
  · rintro ⟨d, hd, hzero⟩
    obtain ⟨e', he', heval⟩ := exists_of_forall₂_right htail.flip hd
    rw [hzero] at heval
    rwa [Except.ok.inj heval]

/-- `evaluate` of an operation fails if it does on one of the operands, and otherwise exactly if the
operation divides by what evaluates to zero. -/
theorem evaluate_operation_eq_error_iff {op : Op} {operands : List Expr} {x : EvalError}
    (h : (operation op operands).Proper) :
    evaluate (.operation op operands) = .error x ↔
      (∃ e ∈ operands, e.evaluate = .error x) ∨
        (op = .div ∧ ∃ d ∈ operands.tail, d.evaluate = .ok (.value 0)) := by
  obtain ⟨hne, hproper⟩ := proper_operation.1 h
  -- what holds once all operands were evaluated
  have hstep : ∀ es, List.Forall₂ (fun e e' => evaluate e = .ok e') operands es →
      (evaluateOperation op es = .error x ↔
        op = .div ∧ ∃ d ∈ operands.tail, d.evaluate = .ok (.value 0)) := by
    intro es hall
    have hes : es ≠ [] := by
      rintro rfl
      exact hne (List.forall₂_nil_right_iff.1 hall)
    have hnormal : ∀ e ∈ es, e.Normal := by
      intro e' he'
      obtain ⟨e, he, heval⟩ := exists_of_forall₂_right hall he'
      exact (hproper e he).normal_evaluate heval
    rw [evaluateOperation_eq_error_iff hes hnormal, zero_mem_tail_iff_of_forall₂ hall]
  constructor
  · intro hx
    rcases exists_of_evaluate_operation_eq_error hx with hoperand | ⟨es, hall, hx⟩
    · exact Or.inl hoperand
    · exact Or.inr ((hstep es hall).1 hx)
  · intro hcause
    cases x
    cases hr : evaluate (.operation op operands) with
    | error x =>
      cases x
      rfl
    | ok r =>
      -- then all operands were evaluated, and the operation on them did not fail
      obtain ⟨es, hall, hr⟩ := evaluate_operation_eq_ok_iff.1 hr
      rcases hcause with ⟨e, he, hx⟩ | hzero
      · obtain ⟨e', -, heval⟩ := exists_of_forall₂_right hall.flip he
        rw [hx] at heval
        contradiction
      · rw [(hstep es hall).2 hzero] at hr
        contradiction

/-- `evaluate` fails on a `Proper` expression exactly if some division in it, however deep, has a
divisor that evaluates to zero (`DividesByZero`). All other expressions evaluate to something. In a
division, it is only the operands after the first one that can be at fault, and a single zero among
them is enough. -/
theorem evaluate_eq_error_iff {e : Expr} (h : e.Proper) :
    (e.evaluate = .error .divisionByZero ↔ e.DividesByZero) ∧
      (¬ e.DividesByZero → ∃ r, e.evaluate = .ok r) := by
  have hiff : e.evaluate = .error .divisionByZero ↔ e.DividesByZero := by
    induction e with
    | value n => exact iff_of_false (by simp) (not_dividesByZero_value n)
    | var name => exact iff_of_false (by simp) (not_dividesByZero_var name)
    | operation op operands ih =>
      have hproper := (proper_operation.1 h).2
      rw [evaluate_operation_eq_error_iff h, dividesByZero_operation]
      refine or_congr_left (exists_congr fun e => and_congr_right ?_)
      exact fun he => ih e he (hproper e he)
  refine ⟨hiff, ?_⟩
  intro hnot
  cases hr : e.evaluate with
  | ok r => exact ⟨r, rfl⟩
  | error x =>
    cases x
    exact absurd (hiff.1 hr) hnot

/-- The zero in `(x / 2 / (3 - 3) / 5) * 1` is found, and `0 / x` evaluates to something. -/
theorem evaluate_quotients_of_zero :
    (operation .mul [.operation .div [.var 'x', .value 2,
      .operation .sub [.value 3, .value 3], .value 5], .value 1]).evaluate =
        .error .divisionByZero ∧
    ∃ r, (operation .div [.value 0, .var 'x']).evaluate = .ok r := by
  have hzero : (operation .mul [.operation .div [.var 'x', .value 2,
      .operation .sub [.value 3, .value 3], .value 5], .value 1]).DividesByZero := by
    refine dividesByZero_operation.2 (Or.inl ⟨_, List.mem_cons_self, ?_⟩)
    exact dividesByZero_operation.2 (Or.inr ⟨rfl, .operation .sub [.value 3, .value 3],
      by simp, rfl⟩)
  have hdividend : ¬ (operation .div [.value 0, .var 'x']).DividesByZero := by
    simp [dividesByZero_operation, not_dividesByZero_value, not_dividesByZero_var]
  exact ⟨(evaluate_eq_error_iff (by simp [Proper])).1.2 hzero,
    (evaluate_eq_error_iff (by simp [Proper])).2 hdividend⟩

end Reckon.Expr
