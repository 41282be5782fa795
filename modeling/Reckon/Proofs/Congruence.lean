import Mathlib.Data.List.Basic
import Reckon.Proofs.Canonical

/-!
# What flattening decides

Two expressions differ in their grouping only if one becomes the other by merging operands into the
operation around them, and by the opposite, at any place and any number of times. This is the
congruence `Expr.Regrouped`. It is stated for expressions in which every operation has two operands
or more, and so are all steps from one expression to the other.

Flattening decides it (`flatten_eq_flatten_iff`). On the one hand an expression is regrouped into
its flattened form (`Branching.regrouped_flatten`): first its operands are, and then those of them
that can be merged are merged. On the other hand the flattened form of an operation depends only on
what its operands become (`Branching.flatten_operation_eq`), so that replacing an operand does not
change it, and merging one does not either.
-/

namespace Reckon.Expr

/-- The smallest congruence within `D` that contains `R`: an equivalence that is kept when an
operand is replaced. -/
inductive Congruent (D : Expr → Prop) (R : Expr → Expr → Prop) : Expr → Expr → Prop where
  | rule {a b : Expr} (ha : D a) (hb : D b) (h : R a b) : Congruent D R a b
  | refl {a : Expr} (ha : D a) : Congruent D R a a
  | symm {a b : Expr} (h : Congruent D R a b) : Congruent D R b a
  | trans {a b c : Expr} (hab : Congruent D R a b) (hbc : Congruent D R b c) : Congruent D R a c
  | operand {op : Op} {before after : List Expr} {a b : Expr}
      (ha : D (.operation op (before ++ a :: after)))
      (hb : D (.operation op (before ++ b :: after))) (h : Congruent D R a b) :
      Congruent D R (.operation op (before ++ a :: after)) (.operation op (before ++ b :: after))

/-- `a` becomes `b` if an operand with the operator of the operation around it is replaced by its
own operands. Under an associative operator this may be any operand, else it is the first. -/
inductive Merges : Expr → Expr → Prop where
  | anywhere {op : Op} (hop : op.isAssociative = true) (before inner after : List Expr) :
      Merges (.operation op (before ++ .operation op inner :: after))
        (.operation op (before ++ inner ++ after))
  | first {op : Op} (hop : op.isAssociative = false) (inner after : List Expr) :
      Merges (.operation op (.operation op inner :: after)) (.operation op (inner ++ after))

/-- `a` and `b` differ in their grouping only: the smallest congruence that contains `Merges`. -/
def Regrouped : Expr → Expr → Prop :=
  Congruent Branching Merges

/-! ### Operands that are merged -/

/-- The operands of an operation `op`, where those that `Merges` allows are replaced by their
own. -/
def mergedOperands (op : Op) (operands : List Expr) : List Expr :=
  if op.isAssociative then operands.flatMap (operandsUnder op)
  else (operands.take 1).flatMap (operandsUnder op) ++ operands.drop 1

theorem mergedOperands_of_isAssociative {op : Op} (hop : op.isAssociative = true)
    (operands : List Expr) : mergedOperands op operands = operands.flatMap (operandsUnder op) := by
  rw [mergedOperands, if_pos hop]

theorem mergedOperands_cons {op : Op} (hop : op.isAssociative = false) (e : Expr)
    (es : List Expr) : mergedOperands op (e :: es) = e.operandsUnder op ++ es := by
  simp [mergedOperands, hop]

/-- `flatOperands` depends only on what `flatten` makes of the operands. -/
theorem flatOperands_eq_mergedOperands {op : Op} {operands : List Expr}
    (h : ∀ e ∈ operands, e.Branching) :
    flatOperands (.operation op operands) = mergedOperands op (operands.map flatten) := by
  have hspliced : ∀ e ∈ operands, e.spliced op = e.flatten.operandsUnder op := fun e he =>
    (h e he).spliced_eq op
  rw [flatOperands_operation, mergedOperands]
  split
  · rw [List.flatMap_map, List.flatMap_congr hspliced]
  · rw [← List.map_take, ← List.map_drop, List.flatMap_map,
      List.flatMap_congr fun e he => hspliced e (List.mem_of_mem_take he)]

/-- `flatten` of an operation depends only on what it makes of the operands. -/
theorem Branching.flatten_operation_eq {op : Op} {operands : List Expr}
    (h : (operation op operands).Branching) :
    flatten (.operation op operands) =
      .operation op (mergedOperands op (operands.map flatten)) := by
  rw [h.flatten_operation, flatOperands_eq_mergedOperands (branching_operation.1 h).2]

/-! ### Regrouping keeps the flattened form -/

/-- `Merges` does not change what `flatten` returns. -/
theorem Merges.flatten_eq {a b : Expr} (h : Merges a b) (ha : a.Branching) (hb : b.Branching) :
    a.flatten = b.flatten := by
  cases h with
  | @anywhere op hop before inner after =>
    have hinner : (operation op inner).Branching :=
      (branching_operation.1 ha).2 _ (List.mem_append_right _ List.mem_cons_self)
    rw [ha.flatten_operation_eq, hb.flatten_operation_eq]
    simp [mergedOperands_of_isAssociative hop, hinner.flatten_operation_eq]
  | @first op hop inner after =>
    have hinner : (operation op inner).Branching :=
      (branching_operation.1 ha).2 _ List.mem_cons_self
    obtain ⟨e, es, rfl⟩ : ∃ e es, inner = e :: es :=
      List.exists_cons_of_ne_nil (proper_operation.1 hinner.proper).1
    rw [ha.flatten_operation_eq, hb.flatten_operation_eq]
    simp [mergedOperands_cons hop, hinner.flatten_operation_eq]

theorem Regrouped.flatten_eq {a b : Expr} (h : Regrouped a b) : a.flatten = b.flatten := by
  induction h with
  | rule ha hb h => exact h.flatten_eq ha hb
  | refl ha => rfl
  | symm _ ih => exact ih.symm
  | trans _ _ ihab ihbc => exact ihab.trans ihbc
  | operand ha hb _ ih =>
    rw [ha.flatten_operation_eq, hb.flatten_operation_eq]
    simp [ih]

/-! ### The flattened form is a regrouping -/

/-- `Branching` allows an operand to be replaced by one or more. -/
theorem Branching.replace {op : Op} {before after es : List Expr} {e : Expr}
    (h : (operation op (before ++ e :: after)).Branching) (hne : es ≠ [])
    (hes : ∀ a ∈ es, a.Branching) : (operation op (before ++ es ++ after)).Branching := by
  obtain ⟨hlen, hall⟩ := branching_operation.1 h
  have hpos : 0 < es.length := List.length_pos_iff.2 hne
  rw [branching_operation]
  constructor
  · simp only [List.length_append, List.length_cons] at hlen ⊢
    omega
  · simp only [List.mem_append, List.mem_cons] at hall ⊢
    rintro a ((ha | ha) | ha)
    · exact hall a (Or.inl ha)
    · exact hes a ha
    · exact hall a (Or.inr (Or.inr ha))

/-- Operands may be `Regrouped` one after the other. -/
theorem regrouped_map {op : Op} {f : Expr → Expr} (before : List Expr) {es : List Expr}
    (h : (operation op (before ++ es)).Branching)
    (hes : ∀ e ∈ es, (f e).Branching ∧ Regrouped e (f e)) :
    Regrouped (.operation op (before ++ es)) (.operation op (before ++ es.map f)) := by
  induction es generalizing before with
  | nil => exact .refl h
  | cons e es ih =>
    obtain ⟨hfe, he⟩ := hes e (by simp)
    have hreplaced : (operation op (before ++ [f e] ++ es)).Branching :=
      h.replace (by simp) (by simpa using hfe)
    have hrest := ih (before ++ [f e]) hreplaced fun a ha => hes a (List.mem_cons_of_mem e ha)
    rw [← List.append_cons] at hreplaced
    rw [← List.append_cons, ← List.append_cons] at hrest
    exact .trans (.operand h hreplaced he) hrest

theorem Branching.operandsUnder {e : Expr} (h : e.Branching) (op : Op) :
    e.operandsUnder op ≠ [] ∧ ∀ a ∈ e.operandsUnder op, a.Branching :=
  ⟨(h.proper.operandsUnder op).1, Everywhere.operandsUnder h op⟩

/-- `e` may be replaced by `e.operandsUnder op`, if `Merges` says so for an `e` with the operator
`op`. -/
theorem Branching.regrouped_operandsUnder {op : Op} {before after : List Expr} {e : Expr}
    (h : (operation op (before ++ e :: after)).Branching)
    (hmerges : ∀ inner, e = .operation op inner →
      Merges (.operation op (before ++ e :: after)) (.operation op (before ++ inner ++ after))) :
    (operation op (before ++ e.operandsUnder op ++ after)).Branching ∧
      Regrouped (.operation op (before ++ e :: after))
        (.operation op (before ++ e.operandsUnder op ++ after)) := by
  have he : e.Branching := (branching_operation.1 h).2 e (by simp)
  obtain ⟨hne, hunder⟩ := he.operandsUnder op
  have hreplaced := h.replace hne hunder
  refine ⟨hreplaced, ?_⟩
  by_cases hsame : e.isOperation op = true
  · obtain ⟨inner, rfl⟩ := isOperation_iff.1 hsame
    rw [operandsUnder_operation_self] at hreplaced ⊢
    exact .rule h hreplaced (hmerges inner rfl)
  · rw [operandsUnder_of_isOperation_eq_false (by simpa using hsame), ← List.append_cons]
    exact .refl h

/-- Under an associative operator, all operands may be replaced by their `operandsUnder op`. -/
theorem regrouped_flatMap_operandsUnder {op : Op} (hop : op.isAssociative = true)
    (before : List Expr) {es : List Expr} (h : (operation op (before ++ es)).Branching) :
    Regrouped (.operation op (before ++ es))
      (.operation op (before ++ es.flatMap (operandsUnder op))) := by
  induction es generalizing before with
  | nil => exact .refl h
  | cons e es ih =>
    obtain ⟨hmerged, hstep⟩ := h.regrouped_operandsUnder fun inner he =>
      he ▸ .anywhere hop before inner es
    have hrest := ih (before ++ e.operandsUnder op) hmerged
    rw [List.flatMap_cons, ← List.append_assoc]
    exact .trans hstep hrest

/-- Operands may be replaced by their `mergedOperands`. -/
theorem Branching.regrouped_mergedOperands {op : Op} {operands : List Expr}
    (h : (operation op operands).Branching) :
    Regrouped (.operation op operands) (.operation op (mergedOperands op operands)) := by
  by_cases hop : op.isAssociative = true
  · rw [mergedOperands_of_isAssociative hop]
    exact regrouped_flatMap_operandsUnder hop [] h
  · have hop : op.isAssociative = false := by simpa using hop
    obtain ⟨e, es, rfl⟩ : ∃ e es, operands = e :: es :=
      List.exists_cons_of_ne_nil (proper_operation.1 h.proper).1
    rw [mergedOperands_cons hop]
    exact (@Branching.regrouped_operandsUnder op [] es e h fun inner he =>
      he ▸ .first hop inner es).2

/-- An expression is `Regrouped` into its flattened form. -/
theorem Branching.regrouped_flatten {e : Expr} (h : e.Branching) : Regrouped e e.flatten := by
  induction e with
  | value n => exact .refl h
  | var name => exact .refl h
  | operation op operands ih =>
    obtain ⟨hlen, hes⟩ := branching_operation.1 h
    have hflat : ∀ e ∈ operands, e.flatten.Branching ∧ Regrouped e e.flatten := fun e he =>
      ⟨(hes e he).flat_flatten.branching, ih e he (hes e he)⟩
    have hoperands : Regrouped (.operation op operands) (.operation op (operands.map flatten)) :=
      regrouped_map [] h hflat
    have hbranching : (operation op (operands.map flatten)).Branching := by
      rw [branching_operation, List.length_map]
      refine ⟨hlen, ?_⟩
      intro a ha
      obtain ⟨e, he, rfl⟩ := List.mem_map.1 ha
      exact (hflat e he).1
    rw [h.flatten_operation_eq]
    exact .trans hoperands hbranching.regrouped_mergedOperands

/-- `flatten` leaves exactly the `Flat` expressions as they are. -/
theorem Branching.flatten_eq_self_iff {e : Expr} (h : e.Branching) : e.flatten = e ↔ e.Flat := by
  constructor
  · intro heq
    rw [← heq]
    exact h.flat_flatten
  · exact Flat.flatten_eq

/-- `flatten` makes the same of two expressions exactly if they are `Regrouped`. What it returns is
`Flat`, and only `Flat` expressions stay what they are. -/
theorem flatten_eq_flatten_iff {a b : Expr} (ha : a.Branching) (hb : b.Branching) :
    (a.flatten = b.flatten ↔ Regrouped a b) ∧ a.flatten.Flat ∧ (a.flatten = a ↔ a.Flat) := by
  refine ⟨⟨?_, Regrouped.flatten_eq⟩, ha.flat_flatten, ha.flatten_eq_self_iff⟩
  intro h
  have hab : Regrouped a b.flatten := h ▸ ha.regrouped_flatten
  exact .trans hab (.symm hb.regrouped_flatten)

/-- `x - (y - z)` cannot be regrouped into `(x - y) - z`, and is flat already. -/
theorem not_regrouped_nestedDifference :
    ¬ Regrouped (.operation .sub [.var 'x', .operation .sub [.var 'y', .var 'z']])
      (.operation .sub [.operation .sub [.var 'x', .var 'y'], .var 'z']) ∧
    (operation .sub [.var 'x', .operation .sub [.var 'y', .var 'z']]).Flat := by
  have hright :
      (operation .sub [.var 'x', .operation .sub [.var 'y', .var 'z']]).Branching := by
    simp [Branching]
  have hleft :
      (operation .sub [.operation .sub [.var 'x', .var 'y'], .var 'z']).Branching := by
    simp [Branching]
  obtain ⟨hiff, -, hflat⟩ := flatten_eq_flatten_iff hright hleft
  exact ⟨fun h => absurd (hiff.2 h) (by decide), hflat.1 rfl⟩

end Reckon.Expr
