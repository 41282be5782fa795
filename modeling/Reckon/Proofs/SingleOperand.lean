import Reckon.Proofs.Congruence

/-!
# Operations on a single operand

An operation on a single operand becomes what the operand does when it is flattened. The operand may
then stand inside an operation with its own operator, which is too late for it to be merged: the
operands of that operation were compared with it before they were flattened. So flattening is not
always idempotent (`flatten_flatten_ne_of_single`).

It is, however, whenever no operand hides an operator in this way (`flatten_flatten_eq_iff`). In any
case it is enough to flatten twice: this does what flattening does once the operations on a single
operand are removed (`Proper.flatten_flatten`).
-/

namespace Reckon.Expr

/-- The expression without operations on a single operand: the operand takes the place of each. -/
def collapse : Expr → Expr :=
  fold .value .var ofOperands

/-- Merging an expression into an operation `op` goes down to `x`: the operator does not go on
there. -/
inductive MergesDownTo (op : Op) : Expr → Expr → Prop where
  | here {x : Expr} (h : x.isOperation op = false) : MergesDownTo op x x
  | through {operands : List Expr} {e x : Expr} (he : e ∈ mergeable op operands)
      (h : MergesDownTo op e x) : MergesDownTo op (.operation op operands) x

/-- No operand hides the operator of an operation that it would be merged into: what merging goes
down to has another operator also without operations on a single operand. -/
def Exposed : Expr → Prop :=
  Everywhere fun op operands => 2 ≤ operands.length →
    ∀ x, MergesDownTo op (.operation op operands) x → x.collapse.isOperation op = false

/-! ### Removing operations on a single operand -/

@[simp]
theorem collapse_value (n : Int) : collapse (.value n) = .value n := rfl

@[simp]
theorem collapse_var (name : Char) : collapse (.var name) = .var name := rfl

@[simp]
theorem collapse_operation (op : Op) (operands : List Expr) :
    collapse (.operation op operands) = ofOperands op (operands.map collapse) := by
  simp [collapse]

theorem Proper.branching_collapse {e : Expr} (h : e.Proper) : e.collapse.Branching := by
  induction e with
  | value n => exact everywhere_value n
  | var name => exact everywhere_var name
  | operation op operands ih =>
    obtain ⟨hne, hes⟩ := proper_operation.1 h
    rw [collapse_operation]
    refine Branching.ofOperands (by simpa using hne) ?_
    intro a ha
    obtain ⟨e, he, rfl⟩ := List.mem_map.1 ha
    exact ih e he (hes e he)

/-- `flatten` leaves no operation on a single operand. -/
theorem Proper.branching_flatten {e : Expr} (h : e.Proper) :
    e.flatten.Branching ∧ ∀ op, ∀ a ∈ e.spliced op, a.Branching := by
  refine Everywhere.flatten_induction everywhere_value everywhere_var ?_ h
  intro op operands h hall
  exact Branching.ofOperands (Proper.flatOperands_ne_nil h) hall

/-- `flatten` brings out the operators that operations on a single operand hide, as `collapse`
does. -/
theorem Proper.isOperation_flatten {e : Expr} (h : e.Proper) (op : Op) :
    e.flatten.isOperation op = e.collapse.isOperation op := by
  induction e with
  | value n => rfl
  | var name => rfl
  | operation op' operands ih =>
    obtain ⟨hne, hes⟩ := proper_operation.1 h
    match operands with
    | [e] =>
      rw [flatten_single, ih e (by simp) (hes e (by simp)), collapse_operation]
      rfl
    | a :: b :: es =>
      rw [flatten_operation_of_proper (by simp) hes, collapse_operation]
      rfl

/-! ### Flattening twice -/

theorem mergedOperands_singleton (op : Op) (e : Expr) :
    mergedOperands op [e] = e.operandsUnder op := by
  rw [mergedOperands]
  split <;> simp

/-- `ofOperands`, flattened, brings in what its operands bring in when they are flattened. -/
theorem operandsUnder_flatten_ofOperands {op : Op} {es : List Expr} (hne : es ≠ [])
    (h : ∀ e ∈ es, e.Branching) :
    (ofOperands op es).flatten.operandsUnder op = mergedOperands op (es.map flatten) := by
  match es with
  | [e] => rw [ofOperands_singleton, List.map_singleton, mergedOperands_singleton]
  | a :: b :: es =>
    have hbranching : (operation op (a :: b :: es)).Branching :=
      branching_operation.2 ⟨by simp, h⟩
    rw [ofOperands_cons_cons, hbranching.flatten_operation_eq, operandsUnder_operation_self]

/-- What is `spliced` from an operand brings in what the operand does when it is flattened twice. -/
theorem Proper.mergedOperands_spliced {e : Expr} (h : e.Proper) (op : Op) :
    mergedOperands op ((e.spliced op).map Expr.flatten) = e.flatten.flatten.operandsUnder op := by
  have hbranching : ∀ a ∈ e.spliced op, a.Branching := h.branching_flatten.2 op
  by_cases hop : e.isOperation op = true
  · obtain ⟨operands, rfl⟩ := isOperation_iff.1 hop
    rw [spliced_operation_self] at hbranching ⊢
    rw [flatten_operation, operandsUnder_flatten_ofOperands h.flatOperands_ne_nil hbranching]
  · rw [spliced_of_isOperation_eq_false (by simpa using hop), List.map_singleton,
      mergedOperands_singleton]

/-- `mergedOperands` of the `flatOperands`, flattened, are those of the operands, flattened
twice. -/
theorem Proper.mergedOperands_flatOperands {op : Op} {operands : List Expr}
    (h : (operation op operands).Proper) :
    mergedOperands op ((flatOperands (.operation op operands)).map Expr.flatten) =
      mergedOperands op (operands.map fun e => e.flatten.flatten) := by
  obtain ⟨hne, hes⟩ := proper_operation.1 h
  rw [flatOperands_operation]
  by_cases hop : op.isAssociative = true
  · have hspliced : ∀ e ∈ operands, ((e.spliced op).map Expr.flatten).flatMap
        (Expr.operandsUnder op) = e.flatten.flatten.operandsUnder op := by
      intro e he
      rw [← (hes e he).mergedOperands_spliced, mergedOperands_of_isAssociative hop]
    rw [if_pos hop, mergedOperands_of_isAssociative hop, mergedOperands_of_isAssociative hop,
      List.map_flatMap, List.flatMap_assoc, List.flatMap_map, List.flatMap_congr hspliced]
  · have hop : op.isAssociative = false := by simpa using hop
    obtain ⟨e, es, rfl⟩ := List.exists_cons_of_ne_nil hne
    have he : e.Proper := hes e (by simp)
    -- the first operand that was spliced is the only one that is merged
    obtain ⟨a, as, ha⟩ := List.exists_cons_of_ne_nil (he.spliced_ne_nil op)
    have hspliced := he.mergedOperands_spliced op
    rw [ha, List.map_cons, mergedOperands_cons hop] at hspliced
    simp [hop, ha, mergedOperands_cons, ← hspliced]

/-- `flatten` twice is `flatten` after `collapse`. -/
theorem Proper.flatten_flatten {e : Expr} (h : e.Proper) :
    e.flatten.flatten = e.collapse.flatten := by
  induction e with
  | value n => rfl
  | var name => rfl
  | operation op operands ih =>
    obtain ⟨hne, hes⟩ := proper_operation.1 h
    match operands with
    | [e] =>
      rw [flatten_single, ih e (by simp) (hes e (by simp)), collapse_operation]
      rfl
    | a :: b :: es =>
      have hflatten := h.branching_flatten.1
      have hcollapse := h.branching_collapse
      rw [flatten_operation_of_proper (by simp) hes] at hflatten ⊢
      rw [collapse_operation, ofOperands_of_two_le_length (by simp)] at hcollapse ⊢
      rw [hflatten.flatten_operation_eq, hcollapse.flatten_operation_eq,
        h.mergedOperands_flatOperands, List.map_map]
      exact congrArg _ (congrArg _ (List.map_congr_left fun e he => ih e he (hes e he)))

/-! ### What merging goes down to -/

theorem mergeable_singleton (op : Op) (e : Expr) : mergeable op [e] = [e] := by
  rw [mergeable]
  split <;> rfl

/-- The `flatOperands` that are `mergeable` were `spliced` from operands that were. -/
theorem Proper.mergeable_flatOperands {op : Op} {operands : List Expr}
    (h : (operation op operands).Proper) :
    mergeable op (flatOperands (.operation op operands)) =
      (mergeable op operands).flatMap fun e => mergeable op (e.spliced op) := by
  obtain ⟨hne, hes⟩ := proper_operation.1 h
  by_cases hop : op.isAssociative = true
  · have hmergeable : ∀ es, mergeable op es = es := fun es => if_pos hop
    simp only [hmergeable, flatOperands_operation, hop, ↓reduceIte]
  · obtain ⟨e, es, rfl⟩ := List.exists_cons_of_ne_nil hne
    obtain ⟨a, as, ha⟩ := List.exists_cons_of_ne_nil ((hes e (by simp)).spliced_ne_nil op)
    simp [mergeable, flatOperands_operation, hop, ha]

theorem mergesDownTo_iff_of_isOperation_eq_false {op : Op} {e x : Expr}
    (h : e.isOperation op = false) : MergesDownTo op e x ↔ x = e := by
  constructor
  · intro hx
    cases hx with
    | here _ => rfl
    | through _ _ => simp [isOperation] at h
  · rintro rfl
    exact .here h

theorem mergesDownTo_operation_iff {op : Op} {operands : List Expr} {x : Expr} :
    MergesDownTo op (.operation op operands) x ↔
      ∃ e ∈ mergeable op operands, MergesDownTo op e x := by
  constructor
  · intro hx
    cases hx with
    | here h => simp [isOperation] at h
    | through he h => exact ⟨_, he, h⟩
  · rintro ⟨e, he, h⟩
    exact .through he h

theorem mem_of_mem_mergeable {op : Op} {operands : List Expr} {e : Expr}
    (h : e ∈ mergeable op operands) : e ∈ operands := by
  rw [mergeable] at h
  split at h
  · exact h
  · exact List.mem_of_mem_take h

theorem mem_mergeable_spliced_of_isOperation_eq_false {op : Op} {e : Expr}
    (h : e.isOperation op = false) {a : Expr} :
    a ∈ mergeable op (e.spliced op) ↔ ∃ x, MergesDownTo op e x ∧ x.flatten = a := by
  simp [spliced_of_isOperation_eq_false h, mergeable_singleton,
    mergesDownTo_iff_of_isOperation_eq_false h, eq_comm]

/-- What is `mergeable` of what is `spliced` from an expression is what that `MergesDownTo`,
flattened. -/
theorem Proper.mem_mergeable_spliced_iff {e : Expr} (h : e.Proper) {op : Op} {a : Expr} :
    a ∈ mergeable op (e.spliced op) ↔ ∃ x, MergesDownTo op e x ∧ x.flatten = a := by
  induction e with
  | value n => exact mem_mergeable_spliced_of_isOperation_eq_false rfl
  | var name => exact mem_mergeable_spliced_of_isOperation_eq_false rfl
  | operation op' operands ih =>
    by_cases hop : op' = op
    · subst hop
      have hes := (proper_operation.1 h).2
      rw [spliced_operation_self, h.mergeable_flatOperands, List.mem_flatMap]
      simp only [mergesDownTo_operation_iff]
      constructor
      · rintro ⟨e, he, ha⟩
        have hmem := mem_of_mem_mergeable he
        obtain ⟨x, hx, rfl⟩ := (ih e hmem (hes e hmem)).1 ha
        exact ⟨x, ⟨e, he, hx⟩, rfl⟩
      · rintro ⟨x, ⟨e, he, hx⟩, rfl⟩
        have hmem := mem_of_mem_mergeable he
        exact ⟨e, he, (ih e hmem (hes e hmem)).2 ⟨x, hx, rfl⟩⟩
    · exact mem_mergeable_spliced_of_isOperation_eq_false (by simp [isOperation, hop])

theorem MergesDownTo.proper {op : Op} {e x : Expr} (h : MergesDownTo op e x) (he : e.Proper) :
    x.Proper := by
  induction h with
  | here _ => exact he
  | through hmem _ ih => exact ih ((proper_operation.1 he).2 _ (mem_of_mem_mergeable hmem))

/-- Nothing can be merged any more in what is `spliced` from an expression exactly if it
`MergesDownTo` expressions with other operators only, once these are collapsed. -/
theorem Proper.isOperation_spliced_iff {e : Expr} (h : e.Proper) (op : Op) :
    (∀ a ∈ mergeable op (e.spliced op), a.isOperation op = false) ↔
      ∀ x, MergesDownTo op e x → x.collapse.isOperation op = false := by
  simp only [h.mem_mergeable_spliced_iff]
  constructor
  · intro hall x hx
    rw [← (hx.proper h).isOperation_flatten]
    exact hall _ ⟨x, hx, rfl⟩
  · rintro hall a ⟨x, hx, rfl⟩
    rw [(hx.proper h).isOperation_flatten]
    exact hall x hx

/-! ### When flattening once is enough -/

theorem exposed_operation {op : Op} {operands : List Expr} :
    (operation op operands).Exposed ↔
      (2 ≤ operands.length →
        ∀ x, MergesDownTo op (.operation op operands) x → x.collapse.isOperation op = false) ∧
      ∀ e ∈ operands, e.Exposed :=
  everywhere_operation ..

/-- If nothing can be merged any more after `flatten`, the operands are `Flat` as soon as those that
they come from are `Exposed`. -/
theorem Proper.flat_flatOperands_iff {op : Op} {operands : List Expr}
    (h : (operation op operands).Proper)
    (hflatten : ∀ e ∈ operands, e.flatten.Flat ↔ e.Exposed)
    (hspliced : ∀ e ∈ operands, (∀ a ∈ mergeable op (e.spliced op), a.isOperation op = false) →
      ((∀ a ∈ e.spliced op, a.Flat) ↔ e.Exposed))
    (hmergeable : ∀ a ∈ mergeable op (flatOperands (.operation op operands)),
      a.isOperation op = false) :
    (∀ a ∈ flatOperands (.operation op operands), a.Flat) ↔ ∀ e ∈ operands, e.Exposed := by
  have hne := (proper_operation.1 h).1
  rw [h.mergeable_flatOperands] at hmergeable
  have hspliced : ∀ e ∈ mergeable op operands, (∀ a ∈ e.spliced op, a.Flat) ↔ e.Exposed :=
    fun e he => hspliced e (mem_of_mem_mergeable he) fun a ha =>
      hmergeable a (List.mem_flatMap.2 ⟨e, he, ha⟩)
  rw [flatOperands_operation]
  by_cases hop : op.isAssociative = true
  · rw [mergeable, if_pos hop] at hspliced
    rw [if_pos hop]
    simp only [List.mem_flatMap, forall_exists_index, and_imp]
    constructor
    · intro hall e he
      exact (hspliced e he).1 fun a ha => hall a e he ha
    · intro hall a e he ha
      exact (hspliced e he).2 (hall e he) a ha
  · obtain ⟨e, es, rfl⟩ := List.exists_cons_of_ne_nil hne
    have hfirst := hspliced e (by simp [mergeable, hop])
    rw [if_neg hop]
    simp only [List.take_succ_cons, List.take_zero, List.flatMap_cons, List.flatMap_nil,
      List.append_nil, List.drop_succ_cons, List.drop_zero, List.mem_append, List.mem_cons,
      List.mem_map]
    constructor
    · rintro hall a (rfl | ha)
      · exact hfirst.1 fun b hb => hall b (Or.inl hb)
      · exact (hflatten a (List.mem_cons_of_mem e ha)).1 (hall _ (Or.inr ⟨a, ha, rfl⟩))
    · rintro hall b (hb | ⟨a, ha, rfl⟩)
      · exact hfirst.2 (hall e (Or.inl rfl)) b hb
      · exact (hflatten a (List.mem_cons_of_mem e ha)).2 (hall a (Or.inr ha))

/-- `flatten` makes a `Proper` expression `Flat` exactly if that is `Exposed`. What is `spliced`
from it is then `Flat` as well, if there is nothing to merge. -/
theorem Proper.flat_flatten_and_spliced_iff {e : Expr} (h : e.Proper) :
    (e.flatten.Flat ↔ e.Exposed) ∧
      ∀ op, (∀ a ∈ mergeable op (e.spliced op), a.isOperation op = false) →
        ((∀ a ∈ e.spliced op, a.Flat) ↔ e.Exposed) := by
  induction e with
  | value n => simp [spliced, isOperation, Flat, Exposed]
  | var name => simp [spliced, isOperation, Flat, Exposed]
  | operation op operands ih =>
    obtain ⟨hne, hes⟩ := proper_operation.1 h
    have hmerged := h.isOperation_spliced_iff op
    rw [spliced_operation_self] at hmerged
    have hoperands := h.flat_flatOperands_iff (fun e he => (ih e he (hes e he)).1)
      fun e he => (ih e he (hes e he)).2 op
    have hflatten : (operation op operands).flatten.Flat ↔ (operation op operands).Exposed := by
      rw [exposed_operation]
      obtain ⟨e, es, rfl⟩ := List.exists_cons_of_ne_nil hne
      cases es with
      | nil =>
        rw [flatten_single, (ih e (by simp) (hes e (by simp))).1]
        simp
      | cons e' es =>
        have hlen : 2 ≤ (flatOperands (.operation op (e :: e' :: es))).length :=
          two_le_length_flatOperands (by simp) hes
        rw [flatten_operation_of_proper (by simp) hes, flat_operation]
        constructor
        · rintro ⟨⟨-, hmergeable⟩, hflat⟩
          exact ⟨fun _ => hmerged.1 hmergeable, (hoperands hmergeable).1 hflat⟩
        · rintro ⟨hdown, hexposed⟩
          have hmergeable := hmerged.2 (hdown (by simp))
          exact ⟨⟨hlen, hmergeable⟩, (hoperands hmergeable).2 hexposed⟩
    refine ⟨hflatten, ?_⟩
    intro op' hmergeable
    by_cases hop : op = op'
    · subst hop
      rw [spliced_operation_self] at hmergeable ⊢
      rw [hoperands hmergeable, exposed_operation]
      exact ⟨fun hall => ⟨fun _ => hmerged.1 hmergeable, hall⟩, fun hall => hall.2⟩
    · have hother : (operation op operands).isOperation op' = false := by simp [isOperation, hop]
      rw [spliced_of_isOperation_eq_false hother]
      simpa using hflatten

/-- A second `flatten` changes nothing exactly if the expression is `Exposed`. In any case it does
what `flatten` does after `collapse`. What it comes to is `Flat`, so that `flatten` once more
changes nothing. -/
theorem flatten_flatten_eq_iff {e : Expr} (h : e.Proper) :
    (e.flatten.flatten = e.flatten ↔ e.Exposed) ∧ e.flatten.flatten = e.collapse.flatten ∧
      e.flatten.flatten.Flat ∧ e.flatten.flatten.flatten = e.flatten.flatten := by
  have hbranching := h.branching_flatten.1
  have hflat := hbranching.flat_flatten
  refine ⟨?_, h.flatten_flatten, hflat, hflat.flatten_eq⟩
  rw [hbranching.flatten_eq_self_iff, h.flat_flatten_and_spliced_iff.1]

/-- The sum `x + y`, in a product by itself, inside of a sum. -/
def hiddenSum : Expr :=
  .operation .add [.operation .mul [.operation .add [.var 'x', .var 'y']], .var 'z']

/-- The inner sum is merged into the outer one only when the expression is flattened twice. -/
theorem flatten_flatten_ne_of_single :
    hiddenSum.Proper ∧ hiddenSum.flatten.flatten ≠ hiddenSum.flatten := by
  refine ⟨by simp [hiddenSum, Proper], by decide⟩

theorem not_exposed_hiddenSum :
    ¬ hiddenSum.Exposed ∧
      hiddenSum.flatten.flatten = .operation .add [.var 'x', .var 'y', .var 'z'] := by
  have hproper : hiddenSum.Proper := by simp [hiddenSum, Proper]
  obtain ⟨hiff, hcollapse, -, -⟩ := flatten_flatten_eq_iff hproper
  exact ⟨fun h => absurd (hiff.2 h) (by decide), hcollapse.trans (by decide)⟩

end Reckon.Expr
