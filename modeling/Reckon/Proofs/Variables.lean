import Reckon.Proofs.Evaluation

/-!
# The variables of an expression

`Expr.names` lists the variables of an expression in the order in which they are written. None
of the passes that lead to the canonical form loses one, repeats one or changes their order
(`names_canonicalize`), and neither does evaluation (`names_of_evaluate_eq_ok`): the only operands
that are combined, dropped or moved are integers, which have no variables.
-/

namespace Reckon.Expr

/-- The variables of an expression, from left to right. -/
def names : Expr → List Char :=
  fold (fun _ => []) (fun name => [name]) fun _ lists => lists.flatten

@[simp]
theorem names_value (n : Int) : names (.value n) = [] := rfl

@[simp]
theorem names_var (name : Char) : names (.var name) = [name] := rfl

@[simp]
theorem names_operation (op : Op) (operands : List Expr) :
    names (.operation op operands) = operands.flatMap names := by
  rw [names, fold_operation, List.flatMap_def]

theorem mem_names_iff {name : Char} {e : Expr} : name ∈ e.names ↔ .var name ∈ e.postOrder := by
  induction e with
  | value n => simp [postOrder]
  | var name' => simp [postOrder]
  | operation op operands ih =>
    rw [names_operation, postOrder_operation, List.mem_flatMap, List.mem_append, List.mem_flatMap]
    constructor
    · rintro ⟨e, he, hname⟩
      exact Or.inl ⟨e, he, (ih e he).1 hname⟩
    · rintro (⟨e, he, hname⟩ | hname)
      · exact ⟨e, he, (ih e he).2 hname⟩
      · simp at hname

theorem names_ofOperands (op : Op) (operands : List Expr) :
    names (ofOperands op operands) = operands.flatMap names := by
  match operands with
  | [e] => simp
  | a :: b :: es => rw [ofOperands_cons_cons, names_operation]
  | [] => cases op <;> rfl

/-! ### Flattening -/

/-- `names` of what is `spliced` from an operand are those of the operand after `flatten`. -/
theorem flatMap_names_spliced (op : Op) (e : Expr) :
    (e.spliced op).flatMap names = e.flatten.names := by
  rw [spliced]
  split
  · rename_i hop
    obtain ⟨operands, rfl⟩ := isOperation_iff.1 hop
    rw [flatten_operation, names_ofOperands]
  · rw [List.flatMap_singleton]

theorem names_flatten (e : Expr) : e.flatten.names = e.names := by
  induction e with
  | value n => rfl
  | var name => rfl
  | operation op operands ih =>
    have hspliced : ∀ es : List Expr, (∀ e ∈ es, e ∈ operands) →
        (es.flatMap (spliced op)).flatMap names = es.flatMap names := by
      intro es hes
      rw [List.flatMap_assoc]
      refine List.flatMap_congr fun e he => ?_
      rw [flatMap_names_spliced, ih e (hes e he)]
    rw [flatten_operation, names_ofOperands, names_operation, flatOperands_operation]
    split
    · exact hspliced operands fun e he => he
    · -- the first operand is spliced and the others are flattened
      have hdrop : ((operands.drop 1).map flatten).flatMap names =
          (operands.drop 1).flatMap names := by
        rw [List.flatMap_map]
        exact List.flatMap_congr fun e he => ih e (List.mem_of_mem_drop he)
      rw [List.flatMap_append, hspliced _ fun e he => List.mem_of_mem_take he, hdrop,
        ← List.flatMap_append, List.take_append_drop]

/-! ### Elimination of subtraction -/

theorem names_difference (operands : List Expr) :
    (difference operands).names = operands.flatMap names := by
  match operands with
  | [] => rfl
  | [e] => simp [difference]
  | e :: e' :: es =>
    have hsum := names_ofOperands .add (e' :: es)
    simpa [difference, negate] using hsum

theorem names_eliminateSubtraction (e : Expr) :
    e.eliminateSubtraction.names = e.names := by
  induction e with
  | value n => rfl
  | var name => rfl
  | operation op operands ih =>
    have hmap : (operands.map eliminateSubtraction).flatMap names =
        operands.flatMap names := by
      rw [List.flatMap_map]
      exact List.flatMap_congr ih
    rw [eliminateSubtraction_operation, names_operation, ← hmap]
    by_cases hop : op = .sub
    · subst hop
      exact names_difference _
    · rw [withoutSubtraction_of_ne_sub hop, names_ofOperands]

/-- `canonicalize` keeps the `names`. -/
theorem names_canonicalize (e : Expr) : e.canonicalize.names = e.names := by
  rw [canonicalize, names_flatten, names_eliminateSubtraction, names_flatten]

/-! ### Evaluation -/

/-- `names` of what an operand brings into an operation are those of the operand. -/
theorem flatMap_names_operandsUnder (op : Op) (e : Expr) :
    (e.operandsUnder op).flatMap names = e.names := by
  by_cases hop : e.isOperation op = true
  · obtain ⟨operands, rfl⟩ := isOperation_iff.1 hop
    rw [operandsUnder_operation_self, names_operation]
  · rw [operandsUnder_of_isOperation_eq_false (by simpa using hop), List.flatMap_singleton]

/-- Operands without `names` may be dropped. -/
theorem flatMap_names_filter {p : Expr → Bool} {es : List Expr}
    (h : ∀ e, p e = false → e.names = []) : (es.filter p).flatMap names = es.flatMap names := by
  induction es with
  | nil => rfl
  | cons e es ih =>
    by_cases he : p e = true
    · rw [List.filter_cons_of_pos he, List.flatMap_cons, List.flatMap_cons, ih]
    · rw [List.filter_cons_of_neg he, List.flatMap_cons, h e (by simpa using he), ih,
        List.nil_append]

theorem flatMap_names_collectConstants (op : Op) (es : List Expr) :
    (collectConstants op es).flatMap names = es.flatMap names := by
  have hconstant : ∀ n, (constantOperand op n).flatMap names = [] := by
    intro n
    rw [constantOperand]
    split <;> simp
  rw [collectConstants, List.flatMap_append, hconstant, List.append_nil]
  refine flatMap_names_filter ?_
  intro e he
  obtain ⟨n, rfl⟩ := isValue_iff.1 (by simpa using he)
  rfl

theorem names_evaluateAssociative (op : Op) (es : List Expr) :
    (evaluateAssociative op es).names = es.flatMap names := by
  rw [evaluateAssociative, names_ofOperands, flatMap_names_collectConstants, List.flatMap_assoc]
  exact List.flatMap_congr fun e _ => flatMap_names_operandsUnder op e

theorem flatMap_names_mergeLeading (op : Op) (es : List Expr) :
    (mergeLeading op es).flatMap names = es.flatMap names := by
  cases es with
  | nil => rfl
  | cons e es =>
    rw [mergeLeading, List.flatMap_append, flatMap_names_operandsUnder, List.flatMap_cons]

theorem flatMap_names_attachOperand (op : Op) (e : Expr) (es : List Expr) :
    (attachOperand op e es).flatMap names = e.names ++ es.flatMap names := by
  unfold attachOperand
  split <;> simp

theorem flatMap_names_combineNeighbours (op : Op) (es : List Expr) :
    (combineNeighbours op es).flatMap names = es.flatMap names := by
  induction es with
  | nil => rfl
  | cons e es ih =>
    rw [combineNeighbours] at ih
    rw [combineNeighbours, List.foldr_cons, flatMap_names_attachOperand, ih, List.flatMap_cons]

theorem flatMap_names_applyLeading (op : Op) (first : Expr) (later : List Expr) :
    (applyLeading op first later).flatMap names = first.names ++ later.flatMap names := by
  unfold applyLeading
  split
  · split <;> simp
  · simp

theorem names_evaluatePositional {op : Op} {es : List Expr} {r : Expr}
    (hr : evaluatePositional op es = .ok r) : r.names = es.flatMap names := by
  rw [← flatMap_names_mergeLeading op es]
  cases hmerge : mergeLeading op es with
  | nil =>
    rw [evaluatePositional, hmerge] at hr
    obtain rfl := Except.ok.inj hr
    exact names_ofOperands op []
  | cons first later =>
    rw [evaluatePositional_of_mergeLeading hmerge] at hr
    split at hr
    · contradiction
    · obtain rfl := Except.ok.inj hr
      have hkept : ((combineNeighbours op later).filter (· ≠ .value op.unit)).flatMap names =
          (combineNeighbours op later).flatMap names := by
        refine flatMap_names_filter ?_
        intro e he
        obtain rfl : e = .value op.unit := by simpa using he
        rfl
      rw [names_ofOperands, flatMap_names_applyLeading, hkept, flatMap_names_combineNeighbours,
        List.flatMap_cons]

theorem names_evaluateOperation {op : Op} {es : List Expr} {r : Expr}
    (hr : evaluateOperation op es = .ok r) : r.names = es.flatMap names := by
  rw [evaluateOperation] at hr
  split at hr
  · obtain rfl := Except.ok.inj hr
    exact names_evaluateAssociative op es
  · exact names_evaluatePositional hr

/-- `evaluate` keeps the `names`. -/
theorem names_of_evaluate_eq_ok {e r : Expr} (hr : e.evaluate = .ok r) : r.names = e.names := by
  induction e generalizing r with
  | value n =>
    obtain rfl := Except.ok.inj hr
    rfl
  | var name =>
    obtain rfl := Except.ok.inj hr
    rfl
  | operation op operands ih =>
    obtain ⟨es, hall, hr⟩ := evaluate_operation_eq_ok_iff.1 hr
    have hmap : es.map names = operands.map names :=
      map_eq_of_forall₂ hall fun e he e' heval => ih e he heval
    rw [names_evaluateOperation hr, names_operation, List.flatMap_def, hmap, List.flatMap_def]

end Reckon.Expr
