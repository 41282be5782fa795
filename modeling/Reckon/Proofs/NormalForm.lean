import Mathlib.Data.List.Chain
import Reckon.Proofs.Canonical
import Reckon.Proofs.Evaluation

/-!
# The normal form of evaluation

`Expr.Normal` says of every operation in an expression that there is nothing left to combine in it:
it has at least two operands and none to merge, an addition or multiplication has at most one
integer, at its end, and in a subtraction or division no two later neighbours are integers and the
second operand cannot be applied to the first.

Evaluation leads to normal expressions (`Proper.normal_evaluate`), since what becomes of a single
operation is normal as soon as its operands are (`normal_evaluateOperation`).
-/

namespace Reckon.Expr

/-- At least one of two neighbours is no integer. -/
def Apart (a b : Expr) : Prop :=
  ¬ (a.isValue = true ∧ b.isValue = true)

/-- The operands of an addition or multiplication whose integers are combined. -/
structure Collected (op : Op) (operands : List Expr) : Prop where
  /-- Only the last operand may be an integer. -/
  isValue_eq_false : ∀ e ∈ operands.dropLast, e.isValue = false
  unit_notMem : .value op.unit ∉ operands

/-- The operands of a subtraction or division whose integers are combined. -/
structure Combined (op : Op) (operands : List Expr) : Prop where
  isChain_apart : operands.tail.IsChain Apart
  unit_notMem : .value op.unit ∉ operands.tail
  zero_notMem : op = .div → .value 0 ∉ operands.tail
  /-- The second operand is applied to the first if both are integers, unless the quotient is
  inexact. -/
  inexact : ∀ a b rest, operands = .value a :: .value b :: rest → op = .div ∧ ¬ b ∣ a

/-- The operands of an operation in which there is nothing left to do. -/
structure Settled (op : Op) (operands : List Expr) : Prop where
  two_le_length : 2 ≤ operands.length
  isOperation_eq_false : ∀ e ∈ mergeable op operands, e.isOperation op = false
  collected : op.isAssociative = true → Collected op operands
  combined : op.isAssociative = false → Combined op operands

/-- There is nothing left to do in any operation. -/
def Normal : Expr → Prop :=
  Everywhere Settled

/-! ### Normal expressions -/

theorem normal_operation {op : Op} {operands : List Expr} :
    (operation op operands).Normal ↔ Settled op operands ∧ ∀ e ∈ operands, e.Normal :=
  everywhere_operation ..

theorem Normal.flat {e : Expr} (h : e.Normal) : e.Flat :=
  Everywhere.mono (fun _ _ h => ⟨h.two_le_length, h.isOperation_eq_false⟩) h

theorem Normal.proper {e : Expr} (h : e.Normal) : e.Proper :=
  h.flat.branching.proper

/-! ### Additions and multiplications -/

theorem collected_collectConstants (op : Op) (es : List Expr) :
    Collected op (collectConstants op es) := by
  have hfilter : ∀ e ∈ es.filter (fun e => !e.isValue), e.isValue = false := by
    intro e he
    simpa using (List.mem_filter.1 he).2
  have hunit : .value op.unit ∉ es.filter (fun e => !e.isValue) := fun h =>
    Bool.noConfusion (hfilter _ h)
  rw [collectConstants, constantOperand]
  split
  · rw [List.append_nil]
    exact ⟨fun e he => hfilter e (List.dropLast_subset _ he), hunit⟩
  · rename_i hne
    constructor
    · rw [List.dropLast_concat]
      exact hfilter
    · rw [List.mem_append, List.mem_singleton]
      rintro (h | h)
      · exact hunit h
      · exact hne (Expr.value.inj h).symm

/-- `evaluateAssociative` makes a `Normal` expression of `Normal` operands. -/
theorem normal_evaluateAssociative {op : Op} {es : List Expr} (hop : op.isAssociative = true)
    (hes : ∀ e ∈ es, e.Normal) : (evaluateAssociative op es).Normal := by
  have hmem : ∀ a ∈ collectConstants op (es.flatMap (Expr.operandsUnder op)),
      a.Normal ∧ a.isOperation op = false := by
    intro a ha
    rcases mem_collectConstants ha with ha | ha
    · obtain ⟨e, he, ha⟩ := List.mem_flatMap.1 ha
      have hmergeable := (hes e he).flat.isOperation_eq_false op
      rw [mergeable, if_pos hop] at hmergeable
      exact ⟨Everywhere.operandsUnder (hes e he) op a ha, hmergeable a ha⟩
    · obtain ⟨n, rfl⟩ := isValue_iff.1 ha
      exact ⟨everywhere_value n, rfl⟩
  refine everywhere_ofOperands ?_ fun a ha => (hmem a ha).1
  intro hlen hne
  refine ⟨?_, ?_, fun _ => collected_collectConstants op _, fun h => ?_⟩
  · have hpos := List.length_pos_of_ne_nil (hne hop)
    omega
  · rw [mergeable, if_pos hop]
    exact fun a ha => (hmem a ha).2
  · rw [hop] at h
    contradiction

/-! ### Subtractions and divisions -/

theorem isChain_attachOperand {op : Op} {e : Expr} {es : List Expr} (h : es.IsChain Apart) :
    (attachOperand op e es).IsChain Apart := by
  unfold attachOperand
  split
  · -- the new integer stands where the old one stood
    rw [List.isChain_cons] at h ⊢
    exact h
  · rename_i hne
    rw [List.isChain_cons]
    refine ⟨?_, h⟩
    rintro y hy ⟨he, hy'⟩
    obtain ⟨m, rfl⟩ := isValue_iff.1 he
    obtain ⟨n, rfl⟩ := isValue_iff.1 hy'
    exact hne m n es.tail rfl (List.cons_head?_tail hy).symm

theorem isChain_combineNeighbours (op : Op) (es : List Expr) :
    (combineNeighbours op es).IsChain Apart := by
  induction es with
  | nil => exact .nil
  | cons e es ih => exact isChain_attachOperand ih

/-- Dropping an integer from operands that are `Apart` does not bring any two integers together. -/
theorem isChain_filter_ne_value (n : Int) {es : List Expr} (h : es.IsChain Apart) :
    (es.filter (· ≠ .value n)).IsChain Apart := by
  induction es with
  | nil => exact .nil
  | cons e es ih =>
    obtain ⟨hhead, htail⟩ := List.isChain_cons.1 h
    by_cases he : e = .value n
    · rw [List.filter_cons_of_neg (by simpa using he)]
      exact ih htail
    · rw [List.filter_cons_of_pos (by simpa using he), List.isChain_cons]
      refine ⟨?_, ih htail⟩
      cases es with
      | nil => simp
      | cons x es =>
        by_cases hx : x = .value n
        · -- `e` stands next to an integer, so it is none
          subst hx
          rintro y - ⟨he', -⟩
          exact hhead (.value n) rfl ⟨he', rfl⟩
        · rw [List.filter_cons_of_pos (by simpa using hx)]
          exact hhead

theorem integralResult?_eq_none_iff {op : Op} {a b : Int} :
    op.integralResult? a b = none ↔ op = .div ∧ ¬ b ∣ a := by
  cases op <;> simp [Op.integralResult?]

/-- Either `applyLeading` applies the second operand to the first, or both stay. -/
theorem applyLeading_cases (op : Op) (first : Expr) (later : List Expr) :
    (∃ a b c rest, first = .value a ∧ later = .value b :: rest ∧
      op.integralResult? a b = some c ∧ applyLeading op first later = .value c :: rest) ∨
    (applyLeading op first later = first :: later ∧
      ∀ a b rest, first = .value a → later = .value b :: rest → op = .div ∧ ¬ b ∣ a) := by
  unfold applyLeading
  split
  · rename_i a b rest
    split
    · rename_i c hc
      exact Or.inl ⟨a, b, c, rest, rfl, rfl, hc, rfl⟩
    · rename_i hnone
      refine Or.inr ⟨rfl, ?_⟩
      rintro a' b' rest' ⟨⟩ ⟨⟩
      exact integralResult?_eq_none_iff.1 hnone
  · rename_i hne
    exact Or.inr ⟨rfl, fun a b rest ha hb => (hne a b rest ha hb).elim⟩

theorem combined_applyLeading {op : Op} (first : Expr) {later : List Expr}
    (hapart : later.IsChain Apart) (hunit : .value op.unit ∉ later)
    (hzero : op = .div → .value 0 ∉ later) : Combined op (applyLeading op first later) := by
  rcases applyLeading_cases op first later with
    ⟨a, b, c, rest, rfl, rfl, -, happly⟩ | ⟨happly, hinexact⟩
  · rw [happly]
    obtain ⟨hhead, htail⟩ := List.isChain_cons.1 hapart
    refine ⟨htail, fun h => hunit (List.mem_cons_of_mem _ h), fun hop h =>
      hzero hop (List.mem_cons_of_mem _ h), ?_⟩
    -- what followed the integer `b` is no integer
    intro a' b' rest' hrest
    obtain ⟨-, rfl⟩ := List.cons.inj hrest
    exact absurd ⟨rfl, rfl⟩ (hhead (.value b') rfl)
  · rw [happly]
    refine ⟨hapart, hunit, hzero, ?_⟩
    rintro a b rest hcons
    obtain ⟨rfl, rfl⟩ := List.cons.inj hcons
    exact hinexact a b rest rfl rfl

/-- `mergeLeading` leaves no first operand that has the operator. -/
theorem isOperation_eq_false_of_mergeLeading {op : Op} {es later : List Expr} {first : Expr}
    (hop : op.isAssociative = false) (hes : ∀ e ∈ es, e.Normal)
    (h : mergeLeading op es = first :: later) : first.isOperation op = false := by
  cases es with
  | nil => simp [mergeLeading] at h
  | cons e es =>
    have he : e.Normal := hes e (by simp)
    obtain ⟨x, xs, hunder⟩ := List.exists_cons_of_ne_nil (he.proper.operandsUnder op).1
    have hmergeable := he.flat.isOperation_eq_false op
    rw [mergeLeading, hunder] at h
    obtain ⟨rfl, -⟩ := List.cons.inj h
    refine hmergeable x ?_
    rw [mergeable, hop, hunder]
    simp

/-- Neither does `applyLeading`. -/
theorem isOperation_eq_false_of_mem_applyLeading {op : Op} {first : Expr} (later : List Expr)
    (hop : op.isAssociative = false) (h : first.isOperation op = false) :
    ∀ e ∈ mergeable op (applyLeading op first later), e.isOperation op = false := by
  intro e he
  rw [mergeable, hop] at he
  rcases applyLeading_cases op first later with ⟨_, _, c, _, -, -, -, happly⟩ | ⟨happly, -⟩
  · obtain rfl : e = .value c := by simpa [happly] using he
    rfl
  · obtain rfl : e = first := by simpa [happly] using he
    exact h

/-- `evaluatePositional` makes a `Normal` expression of `Normal` operands. -/
theorem normal_evaluatePositional {op : Op} {es : List Expr} {r : Expr}
    (hop : op.isAssociative = false) (hne : es ≠ []) (hes : ∀ e ∈ es, e.Normal)
    (hr : evaluatePositional op es = .ok r) : r.Normal := by
  obtain ⟨first, later, hmerge⟩ := List.exists_cons_of_ne_nil
    (mergeLeading_ne_nil hne fun e he => ((hes e he).proper.operandsUnder op).1)
  rw [evaluatePositional_of_mergeLeading hmerge] at hr
  split at hr
  · contradiction
  · rename_i hzero
    obtain rfl := Except.ok.inj hr
    have hfirst := isOperation_eq_false_of_mergeLeading hop hes hmerge
    have hapart := isChain_filter_ne_value op.unit (isChain_combineNeighbours op later)
    refine everywhere_ofOperands ?_ ?_
    · intro hlen _
      have hpos := List.length_pos_of_ne_nil (applyLeading_ne_nil op first
        ((combineNeighbours op later).filter (· ≠ .value op.unit)))
      refine ⟨by omega, isOperation_eq_false_of_mem_applyLeading _ hop hfirst, ?_, ?_⟩
      · intro hassoc
        rw [hop] at hassoc
        contradiction
      · intro _
        refine combined_applyLeading first hapart (by simp) ?_
        intro hdiv hmem
        exact hzero ⟨hdiv, (List.mem_filter.1 hmem).1⟩
    · intro a ha
      rcases broughtIn_of_mem_applyLeading hmerge ha with ⟨e, he, ha | rfl⟩ | ha
      · exact Everywhere.operandsUnder (hes e he) op a ha
      · exact hes a he
      · obtain ⟨n, rfl⟩ := isValue_iff.1 ha
        exact everywhere_value n

/-! ### Expressions -/

/-- `evaluateOperation` makes a `Normal` expression of `Normal` operands. -/
theorem normal_evaluateOperation {op : Op} {es : List Expr} {r : Expr} (hne : es ≠ [])
    (hes : ∀ e ∈ es, e.Normal) (hr : evaluateOperation op es = .ok r) : r.Normal := by
  rw [evaluateOperation] at hr
  split at hr
  · rename_i hop
    obtain rfl := Except.ok.inj hr
    exact normal_evaluateAssociative hop hes
  · rename_i hop
    exact normal_evaluatePositional (by simpa using hop) hne hes hr

/-- What `evaluate` makes of a `Proper` expression is `Normal`, and has no operator that was not
there. -/
theorem Proper.normal_evaluate_and_everywhere {Q : Op → Prop} {e r : Expr} (h : e.Proper)
    (hop : Everywhere (fun op _ => Q op) e) (hr : e.evaluate = .ok r) :
    r.Normal ∧ Everywhere (fun op _ => Q op) r := by
  refine evaluate_induction (J := fun e => e.Normal ∧ Everywhere (fun op _ => Q op) e)
    (fun n => ⟨everywhere_value n, everywhere_value n⟩)
    (fun name => ⟨everywhere_var name, everywhere_var name⟩) ?_ h hop hr
  intro op es r hop hne hes hr
  refine ⟨normal_evaluateOperation hne (fun e he => (hes e he).1) hr, ?_⟩
  obtain ⟨operands, rfl, -, hmem⟩ := operands_of_evaluateOperation hne
    (fun e he => ((hes e he).1.proper.operandsUnder op).1) hr
  refine everywhere_ofOperands (fun _ _ => hop) ?_
  intro a ha
  rcases hmem a ha with ⟨e, he, ha | rfl⟩ | ha
  · exact (hes e he).2.operandsUnder op a ha
  · exact (hes a he).2
  · obtain ⟨n, rfl⟩ := isValue_iff.1 ha
    exact everywhere_value n

theorem Proper.normal_evaluate {e r : Expr} (h : e.Proper) (hr : e.evaluate = .ok r) : r.Normal :=
  (h.normal_evaluate_and_everywhere (Q := fun _ => True) (fun _ _ _ => trivial) hr).1

/-- What `evaluate` makes of a `Proper` expression is `Normal`, and `SubtractionFree` if the
expression is. -/
theorem normal_of_evaluate_eq_ok {e r : Expr} (h : e.Proper) (hr : e.evaluate = .ok r) :
    r.Normal ∧ (e.SubtractionFree → r.SubtractionFree) :=
  ⟨h.normal_evaluate hr, fun hfree => (h.normal_evaluate_and_everywhere hfree hr).2⟩

/-- Since `x / 2 * 1 / 3` evaluates to `x / 6`, that is `Normal`. -/
theorem normal_nestedQuotient :
    (operation .div [.var 'x', .value 6]).Normal ∧
      (operation .div [.var 'x', .value 6]).SubtractionFree := by
  have hproper : (operation .div [.operation .mul [.operation .div [.var 'x', .value 2],
      .value 1], .value 3]).Proper := by
    simp [Proper]
  have hfree : (operation .div [.operation .mul [.operation .div [.var 'x', .value 2],
      .value 1], .value 3]).SubtractionFree := by
    simp [SubtractionFree]
  obtain ⟨hnormal, himp⟩ := normal_of_evaluate_eq_ok hproper rfl
  exact ⟨hnormal, himp hfree⟩

/-! ### Evaluating again -/

theorem value?_eq_none {e : Expr} (h : e.isValue = false) : e.value? = none := by
  cases e with
  | value n => contradiction
  | var name => rfl
  | operation op operands => rfl

section Others

variable {op : Op} {es : List Expr} (h : ∀ e ∈ es, e.isValue = false)

include h

theorem filter_isValue_eq_self : es.filter (fun e => !e.isValue) = es := by
  simpa using h

theorem filterMap_value?_eq_nil : es.filterMap value? = [] :=
  List.filterMap_eq_nil_iff.2 fun e he => value?_eq_none (h e he)

theorem collectConstants_eq_self : collectConstants op es = es := by
  rw [collectConstants, filter_isValue_eq_self h, filterMap_value?_eq_nil h]
  simp [Op.total, constantOperand]

theorem collectConstants_concat {n : Int} (hn : n ≠ op.unit) :
    collectConstants op (es ++ [.value n]) = es ++ [.value n] := by
  have hothers : [value n].filter (fun e => !e.isValue) = [] := rfl
  have hinteger : [value n].filterMap value? = [n] := rfl
  rw [collectConstants, List.filter_append, filter_isValue_eq_self h, List.filterMap_append,
    filterMap_value?_eq_nil h, hothers, hinteger]
  simp [Op.total, constantOperand, hn]

end Others

theorem Collected.collectConstants_eq {op : Op} {es : List Expr} (h : Collected op es) :
    collectConstants op es = es := by
  rcases List.eq_nil_or_concat' es with rfl | ⟨init, last, rfl⟩
  · exact collectConstants_eq_self (by simp)
  · have hinit := h.isValue_eq_false
    rw [List.dropLast_concat] at hinit
    by_cases hlast : last.isValue = true
    · obtain ⟨n, rfl⟩ := isValue_iff.1 hlast
      refine collectConstants_concat hinit ?_
      rintro rfl
      exact h.unit_notMem (by simp)
    · refine collectConstants_eq_self ?_
      intro e he
      rcases List.mem_append.1 he with he | he
      · exact hinit e he
      · obtain rfl := List.mem_singleton.1 he
        simpa using hlast

theorem combineNeighbours_eq_self {op : Op} {es : List Expr} (h : es.IsChain Apart) :
    combineNeighbours op es = es := by
  induction es with
  | nil => rfl
  | cons e es ih =>
    obtain ⟨hhead, htail⟩ := List.isChain_cons.1 h
    rw [combineNeighbours, List.foldr_cons]
    rw [combineNeighbours] at ih
    rw [ih htail]
    unfold attachOperand
    split
    · exact absurd ⟨rfl, rfl⟩ (hhead _ rfl)
    · rfl

theorem Combined.applyLeading_eq {op : Op} {first : Expr} {later : List Expr}
    (h : Combined op (first :: later)) : applyLeading op first later = first :: later := by
  rcases applyLeading_cases op first later with
    ⟨a, b, c, rest, rfl, rfl, hc, -⟩ | ⟨happly, -⟩
  · rw [integralResult?_eq_none_iff.2 (h.inexact a b rest rfl)] at hc
    contradiction
  · exact happly

theorem Combined.evaluatePositional_eq {op : Op} {first : Expr} {later : List Expr}
    (h : Combined op (first :: later)) (hfirst : first.isOperation op = false) :
    evaluatePositional op (first :: later) = .ok (ofOperands op (first :: later)) := by
  have hmerge : mergeLeading op (first :: later) = first :: later := by
    rw [mergeLeading, operandsUnder_of_isOperation_eq_false hfirst]
    rfl
  have hruns : combineNeighbours op later = later := combineNeighbours_eq_self h.isChain_apart
  have hzero : ¬ (op = .div ∧ .value 0 ∈ later) := by
    rintro ⟨hdiv, hmem⟩
    exact h.zero_notMem hdiv hmem
  have hkept : later.filter (· ≠ .value op.unit) = later := by
    rw [List.filter_eq_self]
    intro e he
    simp only [decide_eq_true_eq]
    rintro rfl
    exact h.unit_notMem he
  rw [evaluatePositional_of_mergeLeading hmerge, hruns, if_neg hzero, hkept, h.applyLeading_eq]

/-- `evaluateOperation` leaves `Settled` operands as they are. -/
theorem Settled.evaluateOperation_eq {op : Op} {operands : List Expr} (h : Settled op operands) :
    evaluateOperation op operands = .ok (.operation op operands) := by
  have hlen := h.two_le_length
  have hmergeable := h.isOperation_eq_false
  obtain ⟨first, later, rfl⟩ : ∃ first later, operands = first :: later :=
    List.exists_cons_of_ne_nil (List.ne_nil_of_length_pos (by omega))
  have hbuild : ofOperands op (first :: later) = .operation op (first :: later) :=
    ofOperands_of_two_le_length hlen
  rw [evaluateOperation]
  split
  · rename_i hop
    rw [mergeable, if_pos hop] at hmergeable
    rw [evaluateAssociative, flatMap_eq_self fun e he =>
      operandsUnder_of_isOperation_eq_false (hmergeable e he),
      (h.collected hop).collectConstants_eq, hbuild]
  · rename_i hop
    have hop : op.isAssociative = false := by simpa using hop
    rw [mergeable, hop] at hmergeable
    rw [(h.combined hop).evaluatePositional_eq (by simpa using hmergeable), hbuild]

/-- `evaluate` leaves a `Normal` expression as it is. -/
theorem Normal.evaluate_eq {e : Expr} (h : e.Normal) : e.evaluate = .ok e := by
  induction e with
  | value n => rfl
  | var name => rfl
  | operation op operands ih =>
    obtain ⟨hsettled, hoperands⟩ := normal_operation.1 h
    refine evaluate_operation_eq_ok_iff.2 ⟨operands, ?_, hsettled.evaluateOperation_eq⟩
    exact List.forall₂_same.2 fun e he => ih e he (hoperands e he)

/-- `canonicalize` leaves a `Normal` expression as it is if that is `SubtractionFree`. -/
theorem Normal.canonicalize_eq {e : Expr} (h : e.Normal) (hfree : e.SubtractionFree) :
    e.canonicalize = e :=
  canonicalize_eq_self h.flat hfree

end Reckon.Expr
