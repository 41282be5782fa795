import Reckon.Proofs.Shape

/-!
# What flattening makes of an expression

Flattening an operation of two operands or more leaves an operation with the same operator
(`flatten_operation_of_proper`). If all operations are of this kind, the flattened operands tell
what is spliced from them (`Branching.spliced_eq`), and flattening makes the expression flat
(`Branching.flat_flatten`).

An operation with a single operand, however, is replaced by that operand, and this may then stand
inside an operation with its own operator (`not_flat_flatten_of_single`).
-/

namespace Reckon.Expr

/-! ### Operations stay operations -/

theorem length_le_length_flatMap {f : Expr → List Expr} {es : List Expr}
    (h : ∀ e ∈ es, f e ≠ []) : es.length ≤ (es.flatMap f).length := by
  induction es with
  | nil => exact Nat.le_refl _
  | cons e es ih =>
    have he : 0 < (f e).length := List.length_pos_iff.2 (h e (by simp))
    have ih := ih fun a ha => h a (List.mem_cons_of_mem e ha)
    rw [List.flatMap_cons, List.length_append, List.length_cons]
    omega

/-- `flatOperands` are no fewer than the operands, if each of these has `spliced` operands. -/
theorem length_le_length_flatOperands {op : Op} {operands : List Expr}
    (h : ∀ e ∈ operands, e.spliced op ≠ []) :
    operands.length ≤ (flatOperands (.operation op operands)).length := by
  rw [flatOperands_operation]
  split
  · exact length_le_length_flatMap h
  · have hfirst : (operands.take 1).length ≤ ((operands.take 1).flatMap (spliced op)).length :=
      length_le_length_flatMap fun e he => h e (List.mem_of_mem_take he)
    have hsplit : (operands.take 1).length + (operands.drop 1).length = operands.length := by
      rw [← List.length_append, List.take_append_drop]
    rw [List.length_append, List.length_map]
    omega

theorem two_le_length_flatOperands {op : Op} {operands : List Expr} (hlen : 2 ≤ operands.length)
    (h : ∀ e ∈ operands, e.Proper) : 2 ≤ (flatOperands (.operation op operands)).length :=
  Nat.le_trans hlen (length_le_length_flatOperands fun e he => (h e he).spliced_ne_nil op)

/-- `flatten` leaves an operation on two `Proper` operands or more. -/
theorem flatten_operation_of_proper {op : Op} {operands : List Expr} (hlen : 2 ≤ operands.length)
    (h : ∀ e ∈ operands, e.Proper) :
    flatten (.operation op operands) = .operation op (flatOperands (.operation op operands)) := by
  rw [flatten_operation, ofOperands_of_two_le_length (two_le_length_flatOperands hlen h)]

theorem Branching.flatten_operation {op : Op} {operands : List Expr}
    (h : (operation op operands).Branching) :
    flatten (.operation op operands) = .operation op (flatOperands (.operation op operands)) := by
  obtain ⟨hlen, hes⟩ := branching_operation.1 h
  exact flatten_operation_of_proper hlen fun e he => (hes e he).proper

/-- `e.spliced op` can be told from `e.flatten`. -/
theorem Branching.spliced_eq {e : Expr} (h : e.Branching) (op : Op) :
    e.spliced op = e.flatten.operandsUnder op := by
  cases e with
  | value n => rfl
  | var name => rfl
  | operation op' operands =>
    rw [h.flatten_operation, operandsUnder, spliced, h.flatten_operation]
    simp only [isOperation, decide_eq_true_eq]

/-! ### Flat expressions -/

theorem Flat.branching {e : Expr} (h : e.Flat) : e.Branching :=
  Everywhere.mono (fun _ _ h => h.1) h

/-- Nothing is left to merge among the `operandsUnder op` of a `Flat` expression. -/
theorem Flat.isOperation_eq_false {e : Expr} (h : e.Flat) (op : Op) :
    ∀ a ∈ mergeable op (e.operandsUnder op), a.isOperation op = false := by
  by_cases hop : e.isOperation op = true
  · obtain ⟨operands, rfl⟩ := isOperation_iff.1 hop
    rw [operandsUnder_operation_self]
    exact (flat_operation.1 h).1.2
  · have hop : e.isOperation op = false := by simpa using hop
    have hmergeable : mergeable op [e] = [e] := by
      rw [mergeable]
      split <;> rfl
    rw [operandsUnder_of_isOperation_eq_false hop, hmergeable]
    simpa using hop

/-- Nothing is left to merge among `flatOperands`, if `flatten` makes the operands `Flat`. -/
theorem Branching.isOperation_eq_false_of_flat {op : Op} {operands : List Expr}
    (h : (operation op operands).Branching) (hflat : ∀ e ∈ operands, e.flatten.Flat) :
    ∀ a ∈ mergeable op (flatOperands (.operation op operands)), a.isOperation op = false := by
  obtain ⟨hlen, hes⟩ := branching_operation.1 h
  have hspliced : ∀ e ∈ operands, ∀ a ∈ mergeable op (e.spliced op), a.isOperation op = false := by
    intro e he
    rw [(hes e he).spliced_eq]
    exact (hflat e he).isOperation_eq_false op
  intro a ha
  rw [flatOperands_operation] at ha
  by_cases hop : op.isAssociative = true
  · rw [mergeable, if_pos hop, if_pos hop] at ha
    obtain ⟨e, he, ha⟩ := List.mem_flatMap.1 ha
    refine hspliced e he a ?_
    rwa [mergeable, if_pos hop]
  · -- the first operand of the flattened operation is the first that was spliced in
    obtain ⟨first, later, rfl⟩ : ∃ first later, operands = first :: later :=
      List.exists_cons_of_ne_nil (List.ne_nil_of_length_pos (by omega))
    have hfirst : first.Proper := (hes first (by simp)).proper
    obtain ⟨b, bs, hb⟩ := List.exists_cons_of_ne_nil (hfirst.spliced_ne_nil op)
    refine hspliced first (by simp) a ?_
    rw [mergeable, if_neg hop] at ha ⊢
    simpa [hop, hb] using ha

/-- `flatten` makes a `Branching` expression `Flat`. -/
theorem Branching.flat_flatten {e : Expr} (h : e.Branching) : e.flatten.Flat := by
  induction e with
  | value n => exact everywhere_value n
  | var name => exact everywhere_var name
  | operation op operands ih =>
    obtain ⟨hlen, hes⟩ := branching_operation.1 h
    have hflat : ∀ e ∈ operands, e.flatten.Flat := fun e he => ih e he (hes e he)
    have hlen' := @two_le_length_flatOperands op operands hlen fun e he => (hes e he).proper
    rw [h.flatten_operation, flat_operation]
    refine ⟨⟨hlen', h.isOperation_eq_false_of_flat hflat⟩, ?_⟩
    intro a ha
    obtain ⟨e, he, ha | rfl⟩ := mem_flatOperands_operation ha
    · rw [(hes e he).spliced_eq] at ha
      exact Everywhere.operandsUnder (hflat e he) op a ha
    · exact hflat e he

/-! ### Operations with a single operand -/

/-- An operation with a single operand becomes what `flatten` makes of the operand. -/
theorem flatten_single (op : Op) (e : Expr) : flatten (.operation op [e]) = e.flatten := by
  have hspliced : flatOperands (.operation op [e]) = e.spliced op := by
    rw [flatOperands_operation]
    split <;> simp
  rw [flatten_operation, hspliced]
  by_cases h : e.isOperation op = true
  · obtain ⟨inner, rfl⟩ := isOperation_iff.1 h
    rw [spliced_operation_self, flatten_operation]
  · rw [spliced_of_isOperation_eq_false (by simpa using h), ofOperands_singleton]

/-- The only operand of an operation takes its place in `flatten`, and may have the operator `op` of
the operation around it. -/
theorem not_flat_flatten_of_single {op op' : Op} (hne : op ≠ op') {a b c : Expr} (ha : a.Proper)
    (hb : b.Proper) (hc : c.Proper) :
    ¬ (flatten (.operation op [.operation op' [.operation op [a, b]], c])).Flat := by
  have hsingle : (operation op' [.operation op [a, b]]).Proper := by
    simpa [Proper] using ⟨ha, hb⟩
  have hbinary : ∀ a b : Expr, a.Proper → b.Proper → flatten (.operation op [a, b]) =
      .operation op (flatOperands (.operation op [a, b])) := fun a b ha hb =>
    flatten_operation_of_proper (by simp) (by simp [ha, hb])
  have hflatten : (flatten (.operation op' [.operation op [a, b]])).isOperation op = true := by
    rw [flatten_single, hbinary a b ha hb]
    simp [isOperation]
  rw [hbinary _ c hsingle hc, flat_operation]
  rintro ⟨⟨-, hmergeable⟩, -⟩
  -- it was compared with the operation around it before it was flattened, so it is not merged
  have hspliced : spliced op (.operation op' [.operation op [a, b]]) =
      [flatten (.operation op' [.operation op [a, b]])] :=
    spliced_of_isOperation_eq_false (by simp [isOperation, hne.symm])
  have hmem : flatten (.operation op' [.operation op [a, b]]) ∈
      mergeable op (flatOperands (.operation op [.operation op' [.operation op [a, b]], c])) := by
    rw [mergeable, flatOperands_operation]
    split <;> simp [hspliced]
  rw [hmergeable _ hmem] at hflatten
  contradiction

end Reckon.Expr
