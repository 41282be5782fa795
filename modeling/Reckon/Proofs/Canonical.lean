import Reckon.Proofs.Flattening

/-!
# Canonical forms

No subtraction is left in a canonical form (`subtractionFree_canonicalize`): eliminating subtraction
removes them all, and flattening brings in no operator that was not there. Apart from additions and
multiplications, which stand for subtractions, all operators come from the expression
(`Everywhere.canonicalize`).

An expression that is flat and has no subtraction is its own canonical form
(`canonicalize_eq_self`), since each of the passes leaves it as it is. The canonical form of a
proper expression is of this kind (`canonical_form`): without subtraction there is no operation with
a single operand any more, so that the second flattening finds nothing that stands in its way.
-/

namespace Reckon.Expr

/-- No operation is a subtraction. -/
def SubtractionFree : Expr → Prop :=
  Everywhere fun op _ => op ≠ .sub

/-! ### Where operators come from -/

section Operators

variable {Q : Op → Prop}

/-- `flatten` brings in no operators. -/
theorem Everywhere.flatten {e : Expr} (h : Everywhere (fun op _ => Q op) e) :
    Everywhere (fun op _ => Q op) e.flatten := by
  refine (Everywhere.flatten_induction everywhere_value everywhere_var ?_ h).1
  intro op operands h hall
  exact everywhere_ofOperands (fun _ _ => ((everywhere_operation ..).1 h).1) hall

/-- `difference` brings in `.add` and `.mul` only. -/
theorem everywhere_difference (hadd : Q .add) (hmul : Q .mul) {operands : List Expr}
    (h : ∀ e ∈ operands, Everywhere (fun op _ => Q op) e) :
    Everywhere (fun op _ => Q op) (difference operands) := by
  match operands with
  | [] => exact everywhere_value 0
  | [e] => exact h e (by simp)
  | e :: e' :: es =>
    have he : Everywhere (fun op _ => Q op) e := h e (by simp)
    have hsum : Everywhere (fun op _ => Q op) (ofOperands .add (e' :: es)) :=
      everywhere_ofOperands (fun _ _ => hadd) fun a ha => h a (List.mem_cons_of_mem e ha)
    simp [difference, negate, hadd, hmul, he, hsum]

/-- After `eliminateSubtraction` there are `.add`, `.mul` and the operators other than `.sub`. -/
theorem everywhere_eliminateSubtraction (hadd : Q .add) (hmul : Q .mul) {e : Expr}
    (h : Everywhere (fun op _ => op ≠ .sub → Q op) e) :
    Everywhere (fun op _ => Q op) e.eliminateSubtraction := by
  induction e with
  | value n => exact everywhere_value n
  | var name => exact everywhere_var name
  | operation op operands ih =>
    obtain ⟨hop, hes⟩ := (everywhere_operation ..).1 h
    have hmap : ∀ a ∈ operands.map eliminateSubtraction, Everywhere (fun op _ => Q op) a := by
      intro a ha
      obtain ⟨e, he, rfl⟩ := List.mem_map.1 ha
      exact ih e he (hes e he)
    rw [eliminateSubtraction_operation]
    by_cases hsub : op = .sub
    · subst hsub
      exact everywhere_difference hadd hmul hmap
    · rw [withoutSubtraction_of_ne_sub hsub]
      exact everywhere_ofOperands (fun _ _ => hop hsub) hmap

/-- `canonicalize` brings in `.add` and `.mul` only. -/
theorem Everywhere.canonicalize (hadd : Q .add) (hmul : Q .mul) {e : Expr}
    (h : Everywhere (fun op _ => Q op) e) : Everywhere (fun op _ => Q op) e.canonicalize := by
  refine Everywhere.flatten (everywhere_eliminateSubtraction hadd hmul ?_)
  refine Everywhere.mono ?_ h.flatten
  intro op operands hop _
  exact hop

end Operators

theorem subtractionFree_eliminateSubtraction (e : Expr) :
    e.eliminateSubtraction.SubtractionFree :=
  everywhere_eliminateSubtraction (by decide) (by decide) fun _ _ _ h => h

theorem subtractionFree_canonicalize (e : Expr) : e.canonicalize.SubtractionFree :=
  (subtractionFree_eliminateSubtraction e.flatten).flatten

/-! ### What the passes leave as it is -/

theorem flatMap_eq_self {f : Expr → List Expr} {es : List Expr} (h : ∀ e ∈ es, f e = [e]) :
    es.flatMap f = es := by
  induction es with
  | nil => rfl
  | cons e es ih =>
    rw [List.flatMap_cons, h e (by simp), ih fun a ha => h a (List.mem_cons_of_mem e ha)]
    rfl

theorem map_eq_self {f : Expr → Expr} {es : List Expr} (h : ∀ e ∈ es, f e = e) :
    es.map f = es := by
  rw [List.map_congr_left h, List.map_id']

/-- `flatten` leaves a `Flat` expression as it is. -/
theorem Flat.flatten_eq {e : Expr} (h : e.Flat) : e.flatten = e := by
  induction e with
  | value n => rfl
  | var name => rfl
  | operation op operands ih =>
    obtain ⟨⟨hlen, hmergeable⟩, hes⟩ := flat_operation.1 h
    have ih : ∀ e ∈ operands, e.flatten = e := fun e he => ih e he (hes e he)
    have hspliced : ∀ e ∈ mergeable op operands, e ∈ operands → e.spliced op = [e] := by
      intro e he hmem
      simp [spliced, hmergeable e he, ih e hmem]
    have hoperands : flatOperands (.operation op operands) = operands := by
      rw [mergeable] at hspliced
      rw [flatOperands_operation]
      split
      · rename_i hop
        simp only [hop, ↓reduceIte] at hspliced
        exact flatMap_eq_self fun e he => hspliced e he he
      · rename_i hop
        simp only [hop, Bool.false_eq_true, ↓reduceIte] at hspliced
        rw [flatMap_eq_self fun e he => hspliced e he (List.mem_of_mem_take he),
          map_eq_self fun e he => ih e (List.mem_of_mem_drop he), List.take_append_drop]
    rw [flatten_operation, hoperands, ofOperands_of_two_le_length hlen]

/-- `eliminateSubtraction` leaves a `SubtractionFree` and `Branching` expression as it is. -/
theorem SubtractionFree.eliminateSubtraction_eq {e : Expr} (h : e.SubtractionFree)
    (hbranching : e.Branching) : e.eliminateSubtraction = e := by
  induction e with
  | value n => rfl
  | var name => rfl
  | operation op operands ih =>
    obtain ⟨hop, hes⟩ := (everywhere_operation ..).1 h
    obtain ⟨hlen, hbranching⟩ := branching_operation.1 hbranching
    rw [eliminateSubtraction_operation, withoutSubtraction_of_ne_sub hop,
      map_eq_self fun e he => ih e he (hes e he) (hbranching e he),
      ofOperands_of_two_le_length hlen]

/-- An expression that is `Flat` and `SubtractionFree` is its own canonical form. -/
theorem canonicalize_eq_self {e : Expr} (hflat : e.Flat) (hfree : e.SubtractionFree) :
    e.canonicalize = e := by
  rw [canonicalize, hflat.flatten_eq, hfree.eliminateSubtraction_eq hflat.branching,
    hflat.flatten_eq]

/-! ### The shape of canonical forms -/

theorem Proper.flat_canonicalize {e : Expr} (h : e.Proper) : e.canonicalize.Flat :=
  h.flatten.branching_eliminateSubtraction.flat_flatten

/-- For a `Proper` expression, `canonicalize` returns one that is `SubtractionFree` and `Flat`, and
that it returns again. `flatten` alone does not come to a `Flat` expression where an operation has a
single operand, which may have the operator of the operation around it. -/
theorem canonical_form :
    (∀ e : Expr, e.Proper → e.canonicalize.SubtractionFree ∧ e.canonicalize.Flat ∧
      e.canonicalize.canonicalize = e.canonicalize) ∧
    (∀ (op op' : Op) (a b c : Expr), op ≠ op' → a.Proper → b.Proper → c.Proper →
      ¬ (flatten (.operation op [.operation op' [.operation op [a, b]], c])).Flat) := by
  constructor
  · intro e he
    have hfree := subtractionFree_canonicalize e
    have hflat := he.flat_canonicalize
    exact ⟨hfree, hflat, canonicalize_eq_self hflat hfree⟩
  · intro op op' a b c hne ha hb hc
    exact not_flat_flatten_of_single hne ha hb hc

/-- After one flattening, the sum in `(x + y) + z` is not merged if it stands in a product by
itself. In the canonical form it is. -/
theorem canonical_form_of_single :
    ¬ (flatten (.operation .add
      [.operation .mul [.operation .add [.var 'x', .var 'y']], .var 'z'])).Flat ∧
    (operation .add [.var 'x', .var 'y', .var 'z']).Flat := by
  obtain ⟨hform, hflatten⟩ := canonical_form
  have hproper : (operation .add
      [.operation .mul [.operation .add [.var 'x', .var 'y']], .var 'z']).Proper := by
    simp [Proper]
  exact ⟨hflatten .add .mul _ _ _ (by decide) (everywhere_var 'x') (everywhere_var 'y')
    (everywhere_var 'z'), (hform _ hproper).2.1⟩

end Reckon.Expr
