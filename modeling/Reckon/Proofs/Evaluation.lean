import Reckon.Evaluation
import Reckon.Proofs.Meaning

/-!
# Evaluation keeps the meaning

`Expr.evaluate` works on the operands of an operation first and then on the operation itself
(`evaluate_operation_eq_ok_iff`, `exists_of_evaluate_operation_eq_error`). What it makes of an
operation whose operands were evaluated is built from their operands and from integers
(`operands_of_evaluateOperation`), and each of the functions it is made of keeps the value of the
operands taken together. The one thing that could get lost on the way is a division by zero, and
that is when evaluation fails.

The main statement is `evaluate_spec`.
-/

namespace Reckon

/-! ### Evaluating a list -/

section MapM

variable {ε α β : Type*} {f : α → Except ε β}

theorem mapM_eq_ok_iff {as : List α} {bs : List β} :
    as.mapM f = .ok bs ↔ List.Forall₂ (fun a b => f a = .ok b) as bs := by
  induction as generalizing bs with
  | nil =>
    rw [List.mapM_nil, List.forall₂_nil_left_iff]
    constructor
    · rintro ⟨⟩
      rfl
    · rintro rfl
      rfl
  | cons a as ih =>
    rw [List.mapM_cons, List.forall₂_cons_left_iff]
    cases hb : f a with
    | error x => simp [bind, Except.bind]
    | ok b =>
      cases hbs : as.mapM f with
      | error x =>
        -- the first computation succeeds and a later one does not
        simp only [bind, Except.bind, reduceCtorEq, false_iff]
        rintro ⟨b', bs', _, hall, -⟩
        rw [ih.2 hall] at hbs
        contradiction
      | ok bs' =>
        simp only [bind, Except.bind, pure, Except.pure, Except.ok.injEq]
        constructor
        · rintro rfl
          exact ⟨b, bs', rfl, ih.1 hbs, rfl⟩
        · rintro ⟨b', bs'', rfl, hall, rfl⟩
          rw [ih.2 hall] at hbs
          rw [Except.ok.inj hbs]

theorem exists_of_mapM_eq_error {as : List α} {x : ε} (h : as.mapM f = .error x) :
    ∃ a ∈ as, f a = .error x := by
  induction as with
  | nil => simp [pure, Except.pure] at h
  | cons a as ih =>
    rw [List.mapM_cons] at h
    cases hb : f a with
    | error y =>
      rw [hb] at h
      simp only [bind, Except.bind, Except.error.injEq] at h
      exact ⟨a, by simp, by rw [hb, h]⟩
    | ok b =>
      cases hbs : as.mapM f with
      | error y =>
        rw [hb, hbs] at h
        simp only [bind, Except.bind, Except.error.injEq] at h
        obtain ⟨a', ha', hf⟩ := ih (by rw [hbs, h])
        exact ⟨a', List.mem_cons_of_mem a ha', hf⟩
      | ok bs =>
        rw [hb, hbs] at h
        simp [bind, Except.bind, pure, Except.pure] at h

end MapM

section Forall₂

variable {α β γ : Type*} {R : α → β → Prop} {as : List α} {bs : List β}

theorem exists_of_forall₂_right (h : List.Forall₂ R as bs) {b : β} (hb : b ∈ bs) :
    ∃ a ∈ as, R a b := by
  induction h with
  | nil => simp at hb
  | cons hab _ ih =>
    rcases List.mem_cons.1 hb with rfl | hb
    · exact ⟨_, by simp, hab⟩
    · obtain ⟨a, ha, hR⟩ := ih hb
      exact ⟨a, List.mem_cons_of_mem _ ha, hR⟩

theorem map_eq_of_forall₂ {f : α → γ} {g : β → γ} (h : List.Forall₂ R as bs)
    (hfg : ∀ a ∈ as, ∀ b, R a b → g b = f a) : bs.map g = as.map f := by
  induction h with
  | nil => rfl
  | cons hab _ ih =>
    rw [List.map_cons, List.map_cons, hfg _ (by simp) _ hab,
      ih fun a ha => hfg a (List.mem_cons_of_mem _ ha)]

end Forall₂

namespace Expr

/-- `evaluate` of an operation is `evaluateOperation` of the evaluated operands. -/
theorem evaluate_operation_eq_ok_iff {op : Op} {operands : List Expr} {r : Expr} :
    evaluate (.operation op operands) = .ok r ↔
      ∃ es, List.Forall₂ (fun e e' => evaluate e = .ok e') operands es ∧
        evaluateOperation op es = .ok r := by
  rw [evaluate_operation]
  constructor
  · intro h
    cases hes : operands.mapM evaluate with
    | error x =>
      rw [hes] at h
      simp [bind, Except.bind] at h
    | ok es =>
      rw [hes] at h
      exact ⟨es, mapM_eq_ok_iff.1 hes, h⟩
  · rintro ⟨es, hes, h⟩
    rw [mapM_eq_ok_iff.2 hes]
    exact h

/-- Where `evaluate` succeeds on an operation, each operand becomes one of those that
`evaluateOperation` is applied to, and each of these comes from one. -/
theorem exists_evaluated_operands {op : Op} {operands : List Expr} {r : Expr} (hne : operands ≠ [])
    (h : evaluate (.operation op operands) = .ok r) :
    ∃ es, es ≠ [] ∧ (∀ e ∈ operands, ∃ e' ∈ es, evaluate e = .ok e') ∧
      (∀ e' ∈ es, ∃ e ∈ operands, evaluate e = .ok e') ∧ evaluateOperation op es = .ok r := by
  obtain ⟨es, hall, hr⟩ := evaluate_operation_eq_ok_iff.1 h
  refine ⟨es, ?_, fun e he => ?_, fun e' he' => exists_of_forall₂_right hall he', hr⟩
  · rintro rfl
    exact hne (List.forall₂_nil_right_iff.1 hall)
  · exact exists_of_forall₂_right hall.flip he

/-- `evaluate` of an operation fails at an operand, or in `evaluateOperation`. -/
theorem exists_of_evaluate_operation_eq_error {op : Op} {operands : List Expr} {x : EvalError}
    (h : evaluate (.operation op operands) = .error x) :
    (∃ e ∈ operands, evaluate e = .error x) ∨
      ∃ es, List.Forall₂ (fun e e' => evaluate e = .ok e') operands es ∧
        evaluateOperation op es = .error x := by
  rw [evaluate_operation] at h
  cases hes : operands.mapM evaluate with
  | error y =>
    rw [hes] at h
    obtain rfl : y = x := Except.error.inj h
    exact Or.inl (exists_of_mapM_eq_error hes)
  | ok es =>
    rw [hes] at h
    exact Or.inr ⟨es, mapM_eq_ok_iff.1 hes, h⟩

/-! ### Where the operands of a result come from -/

theorem isValue_iff {e : Expr} : e.isValue = true ↔ ∃ n, e = .value n := by
  cases e <;> simp [isValue]

theorem mem_collectConstants {op : Op} {es : List Expr} {a : Expr}
    (h : a ∈ collectConstants op es) : a ∈ es ∨ a.isValue = true := by
  rw [collectConstants, List.mem_append] at h
  rcases h with h | h
  · exact Or.inl (List.mem_filter.1 h).1
  · rw [constantOperand] at h
    split at h
    · simp at h
    · obtain rfl := List.mem_singleton.1 h
      exact Or.inr rfl

theorem mem_attachOperand {op : Op} {e : Expr} {es : List Expr} {a : Expr}
    (h : a ∈ attachOperand op e es) : a = e ∨ a ∈ es ∨ a.isValue = true := by
  unfold attachOperand at h
  split at h
  · rcases List.mem_cons.1 h with rfl | h
    · exact Or.inr (Or.inr rfl)
    · exact Or.inr (Or.inl (List.mem_cons_of_mem _ h))
  · rcases List.mem_cons.1 h with rfl | h
    · exact Or.inl rfl
    · exact Or.inr (Or.inl h)

theorem mem_combineNeighbours {op : Op} {es : List Expr} {a : Expr}
    (h : a ∈ combineNeighbours op es) : a ∈ es ∨ a.isValue = true := by
  induction es with
  | nil => simp [combineNeighbours] at h
  | cons e es ih =>
    rw [combineNeighbours, List.foldr_cons] at h
    rcases mem_attachOperand h with rfl | h | h
    · exact Or.inl (by simp)
    · rcases ih h with h | h
      · exact Or.inl (List.mem_cons_of_mem e h)
      · exact Or.inr h
    · exact Or.inr h

theorem mem_applyLeading {op : Op} {first : Expr} {later : List Expr} {a : Expr}
    (h : a ∈ applyLeading op first later) : a = first ∨ a ∈ later ∨ a.isValue = true := by
  unfold applyLeading at h
  split at h
  · split at h
    · rcases List.mem_cons.1 h with rfl | h
      · exact Or.inr (Or.inr rfl)
      · exact Or.inr (Or.inl (List.mem_cons_of_mem _ h))
    · rcases List.mem_cons.1 h with rfl | h
      · exact Or.inl rfl
      · exact Or.inr (Or.inl h)
  · rcases List.mem_cons.1 h with rfl | h
    · exact Or.inl rfl
    · exact Or.inr (Or.inl h)

theorem applyLeading_ne_nil (op : Op) (first : Expr) (later : List Expr) :
    applyLeading op first later ≠ [] := by
  unfold applyLeading
  split
  · split <;> simp
  · simp

theorem mem_mergeLeading {op : Op} {es : List Expr} {a : Expr} (h : a ∈ mergeLeading op es) :
    ∃ e ∈ es, a ∈ e.operandsUnder op ∨ a = e := by
  cases es with
  | nil => simp [mergeLeading] at h
  | cons e es =>
    rcases List.mem_append.1 h with h | h
    · exact ⟨e, by simp, Or.inl h⟩
    · exact ⟨a, List.mem_cons_of_mem e h, Or.inr rfl⟩

theorem mergeLeading_ne_nil {op : Op} {es : List Expr} (hne : es ≠ [])
    (hunder : ∀ e ∈ es, e.operandsUnder op ≠ []) : mergeLeading op es ≠ [] := by
  obtain ⟨e, es, rfl⟩ := List.exists_cons_of_ne_nil hne
  simp [mergeLeading, hunder e (by simp)]

/-- `evaluatePositional` once `mergeLeading` is done. -/
theorem evaluatePositional_of_mergeLeading {op : Op} {es later : List Expr} {first : Expr}
    (h : mergeLeading op es = first :: later) :
    evaluatePositional op es =
      if op = .div ∧ .value 0 ∈ combineNeighbours op later then .error .divisionByZero
      else .ok (ofOperands op (applyLeading op first
        ((combineNeighbours op later).filter (· ≠ .value op.unit)))) := by
  rw [evaluatePositional, h]

/-- `a` is one of the `operandsUnder op` of an operand in `es`. -/
def BroughtIn (op : Op) (es : List Expr) (a : Expr) : Prop :=
  ∃ e ∈ es, a ∈ e.operandsUnder op ∨ a = e

/-- `collectConstants` adds no operand but an integer. -/
theorem broughtIn_of_mem_collectConstants {op : Op} {es : List Expr} {a : Expr}
    (h : a ∈ collectConstants op (es.flatMap (operandsUnder op))) :
    BroughtIn op es a ∨ a.isValue = true := by
  refine (mem_collectConstants h).imp_left ?_
  intro ha
  obtain ⟨e, he, ha⟩ := List.mem_flatMap.1 ha
  exact ⟨e, he, Or.inl ha⟩

/-- `applyLeading` adds no operand but an integer. -/
theorem broughtIn_of_mem_applyLeading {op : Op} {es later : List Expr} {first a : Expr}
    (hmerge : mergeLeading op es = first :: later)
    (h : a ∈ applyLeading op first
      ((combineNeighbours op later).filter (· ≠ .value op.unit))) :
    BroughtIn op es a ∨ a.isValue = true := by
  have hmem : a ∈ first :: later ∨ a.isValue = true := by
    rcases mem_applyLeading h with rfl | ha | ha
    · exact Or.inl (by simp)
    · rcases mem_combineNeighbours (List.mem_filter.1 ha).1 with ha | ha
      · exact Or.inl (List.mem_cons_of_mem first ha)
      · exact Or.inr ha
    · exact Or.inr ha
  rw [← hmerge] at hmem
  exact hmem.imp_left mem_mergeLeading

/-- `evaluateOperation` returns an operation on operands that are `BroughtIn` or integers. -/
theorem operands_of_evaluateOperation {op : Op} {es : List Expr} {r : Expr} (hes : es ≠ [])
    (hunder : ∀ e ∈ es, e.operandsUnder op ≠ []) (h : evaluateOperation op es = .ok r) :
    ∃ operands, r = ofOperands op operands ∧ (op.isAssociative = true ∨ operands ≠ []) ∧
      ∀ a ∈ operands, BroughtIn op es a ∨ a.isValue = true := by
  rw [evaluateOperation] at h
  split at h
  · rename_i hassoc
    obtain rfl := Except.ok.inj h
    exact ⟨_, rfl, Or.inl hassoc, fun a => broughtIn_of_mem_collectConstants⟩
  · obtain ⟨first, later, hmerge⟩ := List.exists_cons_of_ne_nil (mergeLeading_ne_nil hes hunder)
    rw [evaluatePositional_of_mergeLeading hmerge] at h
    split at h
    · contradiction
    · obtain rfl := Except.ok.inj h
      exact ⟨_, rfl, Or.inr (applyLeading_ne_nil op first _), fun a =>
        broughtIn_of_mem_applyLeading hmerge⟩

/-- To prove `J` of what a `Proper` expression evaluates to, prove it of the leaves, and of what
`evaluateOperation` makes of operands that `J` holds of. What is known of every operator in the
expression may be used. -/
theorem evaluate_induction {J : Expr → Prop} {Q : Op → Prop} (hvalue : ∀ n, J (.value n))
    (hvar : ∀ name, J (.var name))
    (hoperation : ∀ op es r, Q op → es ≠ [] → (∀ e ∈ es, J e) →
      evaluateOperation op es = .ok r → J r)
    {e r : Expr} (hproper : e.Proper) (hop : Everywhere (fun op _ => Q op) e)
    (hr : e.evaluate = .ok r) : J r := by
  induction e generalizing r with
  | value n =>
    obtain rfl := Except.ok.inj hr
    exact hvalue n
  | var name =>
    obtain rfl := Except.ok.inj hr
    exact hvar name
  | operation op operands ih =>
    obtain ⟨hne, hproper⟩ := proper_operation.1 hproper
    obtain ⟨hop, hops⟩ := (everywhere_operation ..).1 hop
    obtain ⟨es, hes, -, hback, hr⟩ := exists_evaluated_operands hne hr
    refine hoperation op es r hop hes ?_ hr
    intro e' he'
    obtain ⟨e, he, heval⟩ := hback e' he'
    exact ih e he (hproper e he) (hops e he) heval

/-- `evaluate` leaves a `Proper` expression `Proper`. -/
theorem Proper.evaluate {e r : Expr} (h : e.Proper) (hr : e.evaluate = .ok r) : r.Proper := by
  refine evaluate_induction (J := Proper) (Q := fun _ => True) everywhere_value everywhere_var ?_ h
    (fun _ _ _ => trivial) hr
  intro op es r _ hes hproper hr
  obtain ⟨operands, rfl, hne, hmem⟩ :=
    operands_of_evaluateOperation hes (fun e he => ((hproper e he).operandsUnder op).1) hr
  refine Proper.ofOperands hne ?_
  intro a ha
  -- every operand of the result was an evaluated operand, a part of one, or is an integer
  rcases hmem a ha with ⟨e, he, ha | rfl⟩ | ha
  · exact ((hproper e he).operandsUnder op).2 a ha
  · exact hproper a he
  · obtain ⟨n, rfl⟩ := isValue_iff.1 ha
    exact everywhere_value n

/-! ### Additions and multiplications -/

section Meaning

variable (env : Char → ℚ)

theorem applyAll_constantOperand {op : Op} (h : op.isAssociative = true) (n : Int) :
    op.applyAll ((constantOperand op n).map (meaning env)) = some (n : ℚ) := by
  rw [constantOperand]
  split
  · rename_i hn
    rw [List.map_nil, Op.applyAll_nil h, hn]
  · rfl

theorem map_meaning_filter_isValue (es : List Expr) :
    (es.filter isValue).map (meaning env) =
      (es.filterMap value?).map fun n : Int => some (n : ℚ) := by
  induction es with
  | nil => rfl
  | cons e es ih =>
    cases e with
    | value n =>
      have hfirst : (value n :: es).filterMap value? = n :: es.filterMap value? :=
        List.filterMap_cons_some rfl
      rw [List.filter_cons_of_pos rfl, hfirst, List.map_cons, List.map_cons, ih, meaning_value]
    | var name => rw [List.filter_cons_of_neg (by simp [isValue]), List.filterMap_cons_none rfl, ih]
    | operation op operands =>
      rw [List.filter_cons_of_neg (by simp [isValue]), List.filterMap_cons_none rfl, ih]

/-- `collectConstants` keeps the value, since the operands may be reordered. -/
theorem applyAll_collectConstants {op : Op} (h : op.isAssociative = true) (es : List Expr) :
    op.applyAll ((collectConstants op es).map (meaning env)) =
      op.applyAll (es.map (meaning env)) := by
  have hperm : (es.filter (fun e => !e.isValue) ++ es.filter isValue).Perm es := by
    simpa using List.filter_append_perm (fun e : Expr => !e.isValue) es
  have hsplit := Op.applyAll_perm h (hperm.map (meaning env))
  -- the other operands are the same on both sides, so only the integers are left to compare
  rw [← hsplit, collectConstants, List.map_append, Op.applyAll_append h,
    applyAll_constantOperand env h, List.map_append, Op.applyAll_append h,
    map_meaning_filter_isValue, Op.applyAll_intCast h]

theorem meaning_evaluateAssociative {op : Op} (h : op.isAssociative = true) (es : List Expr) :
    meaning env (evaluateAssociative op es) = op.applyAll (es.map (meaning env)) := by
  rw [evaluateAssociative, meaning_ofOperands, applyAll_collectConstants env h, List.map_flatMap,
    Op.applyAll_flatMap h]
  congr 1
  exact List.map_congr_left fun e _ => applyAll_operandsUnder env op e

/-! ### Subtractions and divisions -/

theorem applyAll_mergeLeading {op : Op} {es : List Expr} (h : ∀ e ∈ es, e.operandsUnder op ≠ []) :
    op.applyAll ((mergeLeading op es).map (meaning env)) = op.applyAll (es.map (meaning env)) := by
  cases es with
  | nil => rfl
  | cons e es =>
    have he : (e.operandsUnder op).map (meaning env) ≠ [] := by simpa using h e (by simp)
    rw [mergeLeading, List.map_append, ← Op.applyAll_leading op he, applyAll_operandsUnder,
      List.map_cons]

/-- `attachOperand` keeps the value of later operands under `op.accumulator`. -/
theorem applyAll_attachOperand (op : Op) (e : Expr) (es : List Expr) :
    op.accumulator.applyAll ((attachOperand op e es).map (meaning env)) =
      op.accumulator.applyAll ((e :: es).map (meaning env)) := by
  unfold attachOperand
  split
  · simp only [List.map_cons, meaning_value]
    rw [Op.applyAll_cons, ← Op.apply_accumulator_intCast, Op.applyAll_cons, Op.applyAll_cons,
      Op.accumulator_accumulator, Op.apply_apply, Op.accumulator_accumulator]
  · rfl

theorem applyAll_combineNeighbours (op : Op) (es : List Expr) :
    op.accumulator.applyAll ((combineNeighbours op es).map (meaning env)) =
      op.accumulator.applyAll (es.map (meaning env)) := by
  induction es with
  | nil => rfl
  | cons e es ih =>
    rw [combineNeighbours, List.foldr_cons, applyAll_attachOperand, List.map_cons,
      Op.applyAll_cons, Op.accumulator_accumulator]
    rw [combineNeighbours] at ih
    rw [ih, List.map_cons, Op.applyAll_cons, Op.accumulator_accumulator]

/-- Later operands that are `op.unit` may be dropped. -/
theorem applyAll_filter_ne_unit (op : Op) (es : List Expr) :
    op.accumulator.applyAll ((es.filter (· ≠ .value op.unit)).map (meaning env)) =
      op.accumulator.applyAll (es.map (meaning env)) := by
  have hassoc := op.isAssociative_accumulator
  induction es with
  | nil => rfl
  | cons e es ih =>
    by_cases he : e = .value op.unit
    · subst he
      have hunit := Op.unit_apply hassoc (op.accumulator.applyAll (es.map (meaning env)))
      rw [Op.unit_accumulator] at hunit
      rw [List.filter_cons_of_neg (by simp), ih, List.map_cons,
        Op.applyAll_cons_of_isAssociative hassoc, meaning_value, hunit]
    · rw [List.filter_cons_of_pos (by simpa using he), List.map_cons, List.map_cons,
        Op.applyAll_cons_of_isAssociative hassoc, Op.applyAll_cons_of_isAssociative hassoc, ih]

/-- `Op.combine` is `Op.apply` on integers, if nothing of a quotient is cut off. -/
theorem apply_of_combine_eq_ok {op : Op} {a b c : Int} (h : op.combine a b = .ok c)
    (hdvd : op = .div → b ∣ a) : op.apply (some (a : ℚ)) (some (b : ℚ)) = some (c : ℚ) := by
  cases op with
  | add | sub | mul =>
    obtain rfl := Except.ok.inj h
    simp [Op.apply]
  | div =>
    obtain ⟨k, rfl⟩ := hdvd rfl
    rw [Op.combine] at h
    split at h
    · contradiction
    · rename_i hb
      obtain rfl := Except.ok.inj h
      rw [Int.mul_tdiv_cancel_left k hb]
      simp [Op.apply, hb]

theorem applyAll_applyLeading {op : Op} {first : Expr} {later : List Expr}
    (h : op = .div → .value 0 ∉ later) :
    op.applyAll ((applyLeading op first later).map (meaning env)) =
      op.applyAll ((first :: later).map (meaning env)) := by
  unfold applyLeading
  split
  · rename_i a b rest
    split
    · rename_i c hc
      have hb : op = .div → b ≠ 0 := by
        rintro hop rfl
        exact h hop (by simp)
      obtain ⟨hcombine, hdvd⟩ := (Op.integralResult?_eq_some_iff hb).1 hc
      simp only [List.map_cons, meaning_value]
      rw [← apply_of_combine_eq_ok hcombine hdvd]
      rfl
    · rfl
  · rfl

/-- A product with a factor `0` is `0`, if it has a value at all. -/
theorem mul_applyAll_of_zero_mem {xs : List (Option ℚ)} (h : some 0 ∈ xs) :
    Op.mul.applyAll xs = none ∨ Op.mul.applyAll xs = some 0 := by
  induction xs with
  | nil => simp at h
  | cons x xs ih =>
    rw [Op.applyAll_cons_of_isAssociative rfl]
    rcases List.mem_cons.1 h with rfl | h
    · cases Op.mul.applyAll xs <;> simp [Op.apply]
    · rcases ih h with ih | ih
      · simp [ih]
      · cases x <;> simp [ih, Op.apply]

/-- A quotient has no value if the product of its divisors is `0` or has none. -/
theorem div_applyAll_of_zero_mem {x : Option ℚ} {xs : List (Option ℚ)}
    (h : Op.mul.applyAll xs = none ∨ Op.mul.applyAll xs = some 0) :
    Op.div.applyAll (x :: xs) = none := by
  rw [Op.applyAll_cons, Op.accumulator]
  rcases h with h | h
  · simp [h]
  · cases x <;> simp [h, Op.apply]

theorem evaluatePositional_spec {op : Op} {es : List Expr} (hne : es ≠ [])
    (hunder : ∀ e ∈ es, e.operandsUnder op ≠ []) :
    (∀ r, evaluatePositional op es = .ok r →
      meaning env r = op.applyAll (es.map (meaning env))) ∧
    (∀ x, evaluatePositional op es = .error x → op.applyAll (es.map (meaning env)) = none) := by
  obtain ⟨first, later, hmerge⟩ := List.exists_cons_of_ne_nil (mergeLeading_ne_nil hne hunder)
  have hruns := applyAll_combineNeighbours env op later
  rw [evaluatePositional_of_mergeLeading hmerge, ← applyAll_mergeLeading env hunder, hmerge]
  split
  · rename_i hzero
    obtain ⟨rfl, hzero⟩ := hzero
    refine ⟨by simp, ?_⟩
    intro x _
    -- a zero among the combined divisors leaves them no product other than zero
    have hmem : some (0 : ℚ) ∈ (combineNeighbours .div later).map (meaning env) :=
      List.mem_map.2 ⟨.value 0, hzero, by simp⟩
    have hprod := mul_applyAll_of_zero_mem hmem
    rw [Op.accumulator] at hruns
    rw [hruns] at hprod
    exact div_applyAll_of_zero_mem hprod
  · rename_i hzero
    refine ⟨?_, by simp⟩
    intro r hr
    obtain rfl := Except.ok.inj hr
    -- combining and dropping only concern the later operands, which are applied all at once
    have hzero' : op = .div →
        .value 0 ∉ (combineNeighbours op later).filter (· ≠ .value op.unit) := by
      intro hop hmem
      exact hzero ⟨hop, (List.mem_filter.1 hmem).1⟩
    rw [meaning_ofOperands, applyAll_applyLeading env hzero', List.map_cons, Op.applyAll_cons,
      applyAll_filter_ne_unit, hruns, List.map_cons, Op.applyAll_cons]

/-! ### Expressions -/

theorem evaluateOperation_spec {op : Op} {es : List Expr} (hne : es ≠ [])
    (hunder : ∀ e ∈ es, e.operandsUnder op ≠ []) :
    (∀ r, evaluateOperation op es = .ok r → meaning env r = op.applyAll (es.map (meaning env))) ∧
    (∀ x, evaluateOperation op es = .error x → op.applyAll (es.map (meaning env)) = none) := by
  rw [evaluateOperation]
  split
  · rename_i hassoc
    refine ⟨?_, by simp⟩
    intro r hr
    obtain rfl := Except.ok.inj hr
    exact meaning_evaluateAssociative env hassoc es
  · exact evaluatePositional_spec env hne hunder

/-- `evaluate` keeps the `meaning` of a `Proper` expression, and fails only if there is none. -/
theorem evaluate_spec {e : Expr} (h : e.Proper) :
    (∀ r, e.evaluate = .ok r → meaning env r = meaning env e) ∧
    (∀ x, e.evaluate = .error x → meaning env e = none) := by
  induction e with
  | value n => exact ⟨fun r hr => by rw [← Except.ok.inj hr], by simp⟩
  | var name => exact ⟨fun r hr => by rw [← Except.ok.inj hr], by simp⟩
  | operation op operands ih =>
    obtain ⟨hne, hoperands⟩ := proper_operation.1 h
    -- evaluated operands mean what the operands meant, so the spec of one operation applies
    have hstep : ∀ es, List.Forall₂ (fun e e' => evaluate e = .ok e') operands es →
        es ≠ [] ∧ (∀ e ∈ es, e.operandsUnder op ≠ []) ∧
          es.map (meaning env) = operands.map (meaning env) := by
      intro es hall
      refine ⟨?_, ?_, ?_⟩
      · rintro rfl
        exact hne (List.forall₂_nil_right_iff.1 hall)
      · intro e he
        obtain ⟨e', he', heval⟩ := exists_of_forall₂_right hall he
        exact (((hoperands e' he').evaluate heval).operandsUnder op).1
      · exact map_eq_of_forall₂ hall fun e he e' heval =>
          (ih e he (hoperands e he)).1 e' heval
    rw [meaning_operation]
    constructor
    · intro r hr
      obtain ⟨es, hall, hr⟩ := evaluate_operation_eq_ok_iff.1 hr
      obtain ⟨hes, hunder, hmap⟩ := hstep es hall
      rw [(evaluateOperation_spec env hes hunder).1 r hr, hmap]
    · intro x hx
      rcases exists_of_evaluate_operation_eq_error hx with ⟨e, he, hx⟩ | ⟨es, hall, hx⟩
      · refine Op.applyAll_none_mem (List.mem_map.2 ⟨e, he, ?_⟩)
        exact (ih e he (hoperands e he)).2 x hx
      · obtain ⟨hes, hunder, hmap⟩ := hstep es hall
        rw [← hmap]
        exact (evaluateOperation_spec env hes hunder).2 x hx

end Meaning

end Expr

end Reckon
