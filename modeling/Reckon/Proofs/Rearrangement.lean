import Reckon.Proofs.Congruence
import Reckon.Proofs.NormalForm

/-!
# Evaluation does not depend on grouping

The operands of a sum or a product may be grouped at will, and its integers may stand anywhere among
them: what evaluation makes of the expression is the same. Likewise a difference that is the first
operand of a difference may as well be merged into it. This is so at any place in an expression
(`evaluate_eq_of_rearranged`).

The inner operation is evaluated before the outer one, and by then it has been combined as far as
possible on its own. So what there is to show is that combining twice is combining once:

* under an associative operator only the operands that are no integers and the total of the integers
  matter (`Alike`), and collecting the constants changes neither of them;
* among the later operands of a difference, what was combined and freed from zeros combines with
  what follows as the operands themselves do (`combineLater_append`), and taking a number away from
  the first operand commutes with that (`applyLeading_combineLater_cons`).

Quotients are not rearranged: `(8 / 2) / 3` evaluates to `4 / 3`, and `8 / 2 / 3` to `8 / 6`.
-/

namespace Reckon

/-! ### Totals -/

namespace Op

theorem accumulate_comm (op : Op) (a b : Int) : op.accumulate a b = op.accumulate b a := by
  cases op <;> simp [accumulate, Int.add_comm, Int.mul_comm]

theorem foldl_accumulate (op : Op) (a : Int) (ns : List Int) :
    ns.foldl op.accumulate a = op.accumulate a (op.total ns) := by
  induction ns generalizing a with
  | nil => simp [total]
  | cons n ns ih =>
    have htotal : op.total (n :: ns) = op.accumulate n (op.total ns) := by
      rw [total, List.foldl_cons, accumulate_unit_left, ih]
    rw [List.foldl_cons, ih, htotal, accumulate_assoc]

theorem total_append (op : Op) (ms ns : List Int) :
    op.total (ms ++ ns) = op.accumulate (op.total ms) (op.total ns) := by
  rw [total, List.foldl_append, foldl_accumulate, ← total]

@[simp]
theorem total_nil (op : Op) : op.total [] = op.unit := rfl

@[simp]
theorem total_singleton (op : Op) (n : Int) : op.total [n] = n := by
  simp [total]

end Op

namespace Expr

/-! ### Sums and products -/

/-- Two lists of operands differ only in where their integers stand and in how these are divided. -/
structure Alike (op : Op) (es es' : List Expr) : Prop where
  others : es.filter (fun e => !e.isValue) = es'.filter (fun e => !e.isValue)
  total : op.total (es.filterMap value?) = op.total (es'.filterMap value?)

namespace Alike

variable {op : Op} {es es' fs fs' : List Expr}

theorem refl (op : Op) (es : List Expr) : Alike op es es := ⟨rfl, rfl⟩

theorem trans (h : Alike op es es') (h' : Alike op es' fs) : Alike op es fs :=
  ⟨h.others.trans h'.others, h.total.trans h'.total⟩

theorem append (hes : Alike op es es') (hfs : Alike op fs fs') :
    Alike op (es ++ fs) (es' ++ fs') := by
  constructor
  · rw [List.filter_append, List.filter_append, hes.others, hfs.others]
  · rw [List.filterMap_append, List.filterMap_append, Op.total_append, Op.total_append, hes.total,
      hfs.total]

/-- `collectConstants` leaves the same of operands that are `Alike`. -/
theorem collectConstants_eq (h : Alike op es es') :
    collectConstants op es = collectConstants op es' := by
  rw [collectConstants, collectConstants, h.others, h.total]

end Alike

/-- An integer may stand in front of the operands before it. -/
theorem alike_cons_value (op : Op) (before after : List Expr) (n : Int) :
    Alike op (before ++ .value n :: after) (.value n :: (before ++ after)) := by
  have hvalue : ∀ es, (value n :: es).filterMap value? = [n] ++ es.filterMap value? := fun es =>
    List.filterMap_cons_some rfl
  constructor
  · simp [isValue]
  · rw [List.filterMap_append, hvalue, hvalue, List.filterMap_append, Op.total_append,
      Op.total_append, Op.total_append, Op.total_append, ← Op.accumulate_assoc,
      ← Op.accumulate_assoc, Op.accumulate_comm op (op.total (before.filterMap value?))]

/-- An integer that changes nothing may be left out. -/
theorem alike_constantOperand (op : Op) (n : Int) : Alike op (constantOperand op n) [.value n] := by
  rw [constantOperand]
  split
  · rename_i hn
    exact ⟨rfl, by simp [value?, hn]⟩
  · exact .refl op _

/-- `collectConstants` changes nothing but the places of the integers. -/
theorem alike_collectConstants (op : Op) (es : List Expr) :
    Alike op (collectConstants op es) es := by
  have hothers : ∀ e ∈ es.filter (fun e => !e.isValue), e.isValue = false := by
    intro e he
    simpa using (List.mem_filter.1 he).2
  have hcollected : Alike op (collectConstants op es) (es.filter (fun e => !e.isValue) ++
      [.value (op.total (es.filterMap value?))]) :=
    (Alike.refl op _).append (alike_constantOperand op _)
  refine hcollected.trans ⟨?_, ?_⟩
  · simp [isValue]
  · rw [List.filterMap_append, filterMap_value?_eq_nil hothers, List.nil_append]
    simp [value?]

/-- `ofOperands` brings in the operands that it was built from, if there is nothing to merge among
them. -/
theorem operandsUnder_ofOperands {op : Op} {es : List Expr} (hne : es ≠ [])
    (hes : ∀ e ∈ mergeable op es, e.isOperation op = false) :
    (ofOperands op es).operandsUnder op = es := by
  match es with
  | [e] =>
    have he : e.isOperation op = false := hes e (by simp [mergeable])
    exact operandsUnder_of_isOperation_eq_false he
  | a :: b :: es => rw [ofOperands_cons_cons, operandsUnder_operation_self]

/-- `ofOperands` of an associative operator brings in operands that are `Alike`, since without any
it is the identity. -/
theorem alike_operandsUnder_ofOperands {op : Op} {es : List Expr} (hop : op.isAssociative = true)
    (hes : ∀ e ∈ mergeable op es, e.isOperation op = false) :
    Alike op ((ofOperands op es).operandsUnder op) es := by
  by_cases hne : es = []
  · subst hne
    have hidentity : op.identity = some op.unit := (Op.identity_eq_some_iff op _).2 ⟨hop, rfl⟩
    have hunit : ofOperands op [] = .value op.unit := by simp [ofOperands, hidentity]
    rw [hunit]
    exact ⟨rfl, by simp [operandsUnder, value?]⟩
  · rw [operandsUnder_ofOperands hne hes]
    exact .refl op es

/-- `evaluateAssociative` may be used on some of the operands before it is used on all of them. -/
theorem evaluateAssociative_nested {op : Op} (hop : op.isAssociative = true)
    (before after : List Expr) {inner : List Expr} (hinner : ∀ e ∈ inner, e.Normal) :
    evaluateAssociative op (before ++ evaluateAssociative op inner :: after) =
      evaluateAssociative op (before ++ inner ++ after) := by
  have hcollected : ∀ a ∈ mergeable op (collectConstants op
      (inner.flatMap (Expr.operandsUnder op))), a.isOperation op = false := by
    intro a ha
    rw [mergeable, if_pos hop] at ha
    rcases mem_collectConstants ha with ha | ha
    · obtain ⟨e, he, ha⟩ := List.mem_flatMap.1 ha
      have hmergeable := (hinner e he).flat.isOperation_eq_false op
      rw [mergeable, if_pos hop] at hmergeable
      exact hmergeable a ha
    · obtain ⟨n, rfl⟩ := isValue_iff.1 ha
      rfl
  have hnested : Alike op ((evaluateAssociative op inner).operandsUnder op)
      (inner.flatMap (Expr.operandsUnder op)) :=
    (alike_operandsUnder_ofOperands hop hcollected).trans (alike_collectConstants op _)
  have hall := ((Alike.refl op (before.flatMap (Expr.operandsUnder op))).append hnested).append
    (Alike.refl op (after.flatMap (Expr.operandsUnder op)))
  have hcollect := hall.collectConstants_eq
  rw [evaluateAssociative.eq_1 op (before ++ _ :: after),
    evaluateAssociative.eq_1 op (before ++ inner ++ after), List.flatMap_append,
    List.flatMap_append, List.flatMap_append, List.flatMap_cons, ← List.append_assoc, hcollect]

/-- `evaluateAssociative` does not mind if an integer is moved to the front. -/
theorem evaluateAssociative_move (op : Op) (before after : List Expr) (n : Int) :
    evaluateAssociative op (before ++ .value n :: after) =
      evaluateAssociative op (.value n :: (before ++ after)) := by
  have hunder : (value n).operandsUnder op = [.value n] := rfl
  rw [evaluateAssociative, evaluateAssociative, List.flatMap_append, List.flatMap_cons,
    List.flatMap_cons, List.flatMap_append, hunder, List.singleton_append, List.singleton_append,
    (alike_cons_value op _ _ n).collectConstants_eq]

/-! ### Later operands -/

/-- The later operands of a subtraction or division, where neighbouring integers are combined and
those that change nothing are left out. -/
def combineLater (op : Op) (later : List Expr) : List Expr :=
  (combineNeighbours op later).filter (· ≠ .value op.unit)

/-- The list does not begin with an integer. -/
def NoValueFirst (es : List Expr) : Prop :=
  ∀ e ∈ es.head?, e.isValue = false

/-- What follows an integer is `NoValueFirst` if the operands are `Apart`. -/
theorem noValueFirst_of_isChain {n : Int} {es : List Expr}
    (h : (Expr.value n :: es).IsChain Apart) : NoValueFirst es := by
  intro e he
  have happart : Apart (.value n) e := (List.isChain_cons.1 h).1 e he
  by_contra hvalue
  exact happart ⟨rfl, by simpa using hvalue⟩

theorem NoValueFirst.filter {es : List Expr} (h : NoValueFirst es) (n : Int) :
    NoValueFirst (es.filter (· ≠ .value n)) := by
  cases es with
  | nil => exact h
  | cons e es =>
    have he : e ≠ .value n := by
      rintro rfl
      exact Bool.noConfusion (h (.value n) rfl)
    rw [List.filter_cons_of_pos (by simpa using he)]
    exact h

/-- `attachOperand` changes nothing in front of operands that are `NoValueFirst`. -/
theorem NoValueFirst.attachOperand_eq {es : List Expr} (h : NoValueFirst es) (op : Op) (e : Expr) :
    attachOperand op e es = e :: es := by
  unfold attachOperand
  split
  · rename_i n es
    exact Bool.noConfusion (h (.value n) rfl)
  · rfl

/-- `attachOperand` of two integers is that of what `op.accumulate` makes of them. -/
theorem attachOperand_attachOperand (op : Op) (m n : Int) (es : List Expr) :
    attachOperand op (.value m) (attachOperand op (.value n) es) =
      attachOperand op (.value (op.accumulate m n)) es := by
  rcases es with _ | ⟨k | name | ⟨op', operands⟩, es⟩
  · rfl
  · simp [attachOperand, Op.accumulate_assoc]
  · rfl
  · rfl

theorem combineNeighbours_append (op : Op) (es fs : List Expr) :
    combineNeighbours op (es ++ fs) = es.foldr (attachOperand op) (combineNeighbours op fs) := by
  rw [combineNeighbours, List.foldr_append, combineNeighbours]

/-- `combineNeighbours` may be used on operands before they are put in front of others. -/
theorem foldr_attachOperand_combineNeighbours (op : Op) (es fs : List Expr) :
    (combineNeighbours op es).foldr (attachOperand op) fs = es.foldr (attachOperand op) fs := by
  have hattach : ∀ (e : Expr) (gs : List Expr),
      (attachOperand op e gs).foldr (attachOperand op) fs =
        attachOperand op e (gs.foldr (attachOperand op) fs) := by
    intro e gs
    rw [attachOperand.eq_def op e gs]
    split
    · rw [List.foldr_cons, List.foldr_cons, attachOperand_attachOperand]
    · rfl
  induction es with
  | nil => rfl
  | cons e es ih =>
    rw [combineNeighbours, List.foldr_cons, hattach, List.foldr_cons]
    rw [combineNeighbours] at ih
    rw [ih]

/-- `op.unit` may be left out of the operands that another one is put in front of. -/
theorem filter_attachOperand_filter {op : Op} (e : Expr) {es : List Expr} (h : es.IsChain Apart) :
    (attachOperand op e (es.filter (· ≠ .value op.unit))).filter (· ≠ .value op.unit) =
      (attachOperand op e es).filter (· ≠ .value op.unit) := by
  cases es with
  | nil => rfl
  | cons x es =>
    by_cases hx : x = .value op.unit
    · -- then no integer follows, so that nothing is combined once `x` is left out
      subst hx
      have hfirst := noValueFirst_of_isChain h
      rw [List.filter_cons_of_neg (by simp), (hfirst.filter op.unit).attachOperand_eq]
      cases e with
      | value m => simp [attachOperand, List.filter_cons]
      | var name => simp [attachOperand]
      | operation op' operands => simp [attachOperand]
    · rw [List.filter_cons_of_pos (by simpa using hx)]
      rcases e with m | name | ⟨op', operands⟩ <;> rcases x with n | name' | ⟨op'', operands'⟩ <;>
        simp_all [attachOperand, List.filter_cons]

/-- `op.unit` is left out wherever it is put. -/
theorem filter_attachOperand_unit (op : Op) (es : List Expr) :
    (attachOperand op (.value op.unit) es).filter (· ≠ .value op.unit) =
      es.filter (· ≠ .value op.unit) := by
  rcases es with _ | ⟨n | name | ⟨op', operands⟩, es⟩ <;> simp [attachOperand, List.filter_cons]

/-- `combineLater` may be used on the first of the operands before it is used on all of them. -/
theorem combineLater_append (op : Op) (es fs : List Expr) :
    combineLater op (combineLater op es ++ fs) = combineLater op (es ++ fs) := by
  -- units may be left out of a list in which no two integers are next to each other
  have hdrop : ∀ gs : List Expr,
      combineLater op (gs.filter (· ≠ .value op.unit) ++ fs) = combineLater op (gs ++ fs) := by
    intro gs
    induction gs with
    | nil => rfl
    | cons g gs ih =>
      simp only [combineLater, combineNeighbours_append] at ih ⊢
      have hchain : ∀ hs : List Expr,
          (hs.foldr (attachOperand op) (combineNeighbours op fs)).IsChain Apart := by
        intro hs
        rw [← combineNeighbours_append]
        exact isChain_combineNeighbours op _
      by_cases hg : g = .value op.unit
      · subst hg
        rw [List.filter_cons_of_neg (by simp), List.foldr_cons, filter_attachOperand_unit, ih]
      · rw [List.filter_cons_of_pos (by simpa using hg), List.foldr_cons, List.foldr_cons,
          ← filter_attachOperand_filter g (hchain _), ih, filter_attachOperand_filter g (hchain _)]
  have hcombined : combineLater op (combineNeighbours op es ++ fs) =
      combineLater op (es ++ fs) := by
    rw [combineLater, combineLater, combineNeighbours_append, combineNeighbours_append,
      foldr_attachOperand_combineNeighbours]
  rw [combineLater.eq_1 op es, hdrop, hcombined]

/-! ### Differences -/

theorem NoValueFirst.applyLeading_eq {es : List Expr} (h : NoValueFirst es) (op : Op) (e : Expr) :
    applyLeading op e es = e :: es := by
  unfold applyLeading
  split
  · rename_i b rest
    exact Bool.noConfusion (h (.value b) rfl)
  · rfl

/-- `applyLeading` takes the integer behind the first operand away from it, even if it is zero and
was left out. -/
theorem applyLeading_filter_cons (a b : Int) {es : List Expr} (h : NoValueFirst es) :
    applyLeading .sub (.value a) ((Expr.value b :: es).filter (· ≠ .value Op.sub.unit)) =
      .value (a - b) :: es.filter (· ≠ .value Op.sub.unit) := by
  by_cases hb : b = 0
  · subst hb
    rw [List.filter_cons_of_neg (by simp [Op.unit]), (h.filter _).applyLeading_eq, Int.sub_zero]
  · rw [List.filter_cons_of_pos (by simpa [Op.unit] using hb)]
    rfl

/-- An integer may be taken away from the first operand before `combineLater` is used on the
others. -/
theorem applyLeading_combineLater_cons (a b : Int) (later : List Expr) :
    applyLeading .sub (.value a) (combineLater .sub (.value b :: later)) =
      applyLeading .sub (.value (a - b)) (combineLater .sub later) := by
  have hchain := isChain_combineNeighbours .sub later
  rw [combineLater, combineLater, combineNeighbours, List.foldr_cons, ← combineNeighbours]
  cases hlater : combineNeighbours .sub later with
  | nil =>
    have hempty : NoValueFirst [] := by simp [NoValueFirst]
    exact applyLeading_filter_cons a b hempty
  | cons e es =>
    rw [hlater] at hchain
    by_cases he : e.isValue = true
    · obtain ⟨c, rfl⟩ := isValue_iff.1 he
      have hfirst := noValueFirst_of_isChain hchain
      have hattach : attachOperand .sub (.value b) (.value c :: es) = .value (b + c) :: es := rfl
      rw [hattach, applyLeading_filter_cons _ _ hfirst, applyLeading_filter_cons _ _ hfirst,
        Int.sub_sub]
    · have hfirst : NoValueFirst (e :: es) := by simpa [NoValueFirst] using he
      rw [hfirst.attachOperand_eq, applyLeading_filter_cons _ _ hfirst,
        (hfirst.filter _).applyLeading_eq]

/-- `evaluatePositional` never fails on a difference. -/
theorem evaluatePositional_sub {es later : List Expr} {first : Expr}
    (h : mergeLeading .sub es = first :: later) :
    evaluatePositional .sub es =
      .ok (ofOperands .sub (applyLeading .sub first (combineLater .sub later))) := by
  rw [evaluatePositional_of_mergeLeading h, if_neg (by simp), combineLater]

/-- `evaluatePositional` may be used on the first operands of a difference before it is used on all
of them. -/
theorem evaluatePositional_nested (after : List Expr) {inner : List Expr} {r : Expr}
    (hne : inner ≠ []) (hinner : ∀ e ∈ inner, e.Normal)
    (hr : evaluatePositional .sub inner = .ok r) :
    evaluatePositional .sub (r :: after) = evaluatePositional .sub (inner ++ after) := by
  obtain ⟨first, later, hmerge⟩ := List.exists_cons_of_ne_nil
    (mergeLeading_ne_nil hne fun e he => ((hinner e he).proper.operandsUnder .sub).1)
  have hall : mergeLeading .sub (inner ++ after) = first :: (later ++ after) := by
    obtain ⟨e, es, rfl⟩ := List.exists_cons_of_ne_nil hne
    rw [mergeLeading] at hmerge
    rw [List.cons_append, mergeLeading, ← List.append_assoc, hmerge, List.cons_append]
  rw [evaluatePositional_sub hmerge] at hr
  obtain rfl := Except.ok.inj hr
  have hunder := operandsUnder_ofOperands (applyLeading_ne_nil .sub first (combineLater .sub later))
    (isOperation_eq_false_of_mem_applyLeading _ rfl
      (isOperation_eq_false_of_mergeLeading rfl hinner hmerge))
  have hnested : mergeLeading .sub
      (ofOperands .sub (applyLeading .sub first (combineLater .sub later)) :: after) =
        applyLeading .sub first (combineLater .sub later) ++ after := by
    rw [mergeLeading, hunder]
  rw [evaluatePositional_sub hall, ← combineLater_append .sub later]
  rcases applyLeading_cases .sub first (combineLater .sub later) with
    ⟨a, b, c, rest, rfl, hlater, hc, happly⟩ | ⟨happly, -⟩
  · -- the first of the combined operands was taken away from the first operand
    obtain rfl : a - b = c := Option.some.inj hc
    rw [happly, List.cons_append] at hnested
    rw [happly, evaluatePositional_sub hnested, hlater, List.cons_append,
      applyLeading_combineLater_cons]
  · rw [happly, List.cons_append] at hnested
    rw [happly, evaluatePositional_sub hnested]

/-! ### Operations -/

/-- `evaluate` of an operation is decided by `evaluate` of the operands. -/
theorem evaluate_operation_congr {op : Op} {before after : List Expr} {a b : Expr}
    (h : a.evaluate = b.evaluate) :
    evaluate (.operation op (before ++ a :: after)) =
      evaluate (.operation op (before ++ b :: after)) := by
  simp only [evaluate_operation, List.mapM_append, List.mapM_cons, h]

/-- An operand may be merged without a change to `evaluate` if what it evaluates to can be replaced
by the operands it was evaluated from. -/
theorem evaluate_operation_merge {op : Op} {before inner : List Expr} (after : List Expr)
    (h : ∀ bs es, before.mapM evaluate = .ok bs → inner.mapM evaluate = .ok es →
      ∃ r, evaluateOperation op es = .ok r ∧
        ∀ as, evaluateOperation op (bs ++ r :: as) = evaluateOperation op (bs ++ es ++ as)) :
    evaluate (.operation op (before ++ .operation op inner :: after)) =
      evaluate (.operation op (before ++ inner ++ after)) := by
  simp only [evaluate_operation, List.mapM_append, List.mapM_cons]
  cases hbefore : before.mapM evaluate with
  | error x => rfl
  | ok bs =>
    cases hinner : inner.mapM evaluate with
    | error x => rfl
    | ok es =>
      obtain ⟨r, hr, hmerge⟩ := h bs es hbefore hinner
      simp only [bind, Except.bind, pure, Except.pure, hr]
      cases after.mapM evaluate with
      | error x => rfl
      | ok as => exact hmerge as

/-- `evaluate` does not mind if an integer among the operands of a sum or a product is moved to the
front. -/
theorem evaluate_operation_move {op : Op} (hop : op.isAssociative = true) (before after : List Expr)
    (n : Int) :
    evaluate (.operation op (before ++ .value n :: after)) =
      evaluate (.operation op (.value n :: (before ++ after))) := by
  simp only [evaluate_operation, List.mapM_append, List.mapM_cons, evaluate_value]
  cases before.mapM evaluate with
  | error x => rfl
  | ok bs =>
    cases after.mapM evaluate with
    | error x => rfl
    | ok as =>
      simp only [bind, Except.bind, pure, Except.pure, evaluateOperation, hop, ↓reduceIte]
      rw [evaluateAssociative_move]

theorem normal_of_mapM_evaluate {es : List Expr} (h : ∀ e ∈ es, e.Proper) {rs : List Expr}
    (hrs : es.mapM evaluate = .ok rs) : ∀ r ∈ rs, r.Normal := by
  intro r hr
  obtain ⟨e, he, heval⟩ := exists_of_forall₂_right (mapM_eq_ok_iff.1 hrs) hr
  exact (h e he).normal_evaluate heval

/-! ### Expressions -/

/-- The first expression becomes the second if an operand with the operator of the operation around
it is replaced by its own operands, under `+`, `*` and `-`, or if an integer among the operands of a
sum or a product is put in another place. -/
inductive Rearranges : Expr → Expr → Prop where
  | merge {a b : Expr} (h : Merges a b) (hdiv : a.isOperation .div = false) : Rearranges a b
  | move {op : Op} (hop : op.isAssociative = true) {before after before' after' : List Expr}
      (n : Int) (h : before ++ after = before' ++ after') :
      Rearranges (.operation op (before ++ .value n :: after))
        (.operation op (before' ++ .value n :: after'))

/-- One expression becomes the other by any number of rearrangements and their opposites, in any
place. As in the congruence of regrouping, every operation has an operand all the way. -/
def Rearranged : Expr → Expr → Prop :=
  Congruent Proper Rearranges

/-- `Merges` keeps what the operation evaluates to. -/
theorem Merges.evaluate_eq {a b : Expr} (h : Merges a b) (ha : a.Proper)
    (hdiv : a.isOperation .div = false) : a.evaluate = b.evaluate := by
  cases h with
  | @anywhere op hop before inner after =>
    have hinner : (operation op inner).Proper := (proper_operation.1 ha).2 _ (by simp)
    refine evaluate_operation_merge after ?_
    intro bs es _ hes
    have hnormal := normal_of_mapM_evaluate (proper_operation.1 hinner).2 hes
    simp only [evaluateOperation, hop, ↓reduceIte]
    refine ⟨_, rfl, ?_⟩
    intro as
    rw [evaluateAssociative_nested hop bs as hnormal]
  | @first op hop inner after =>
    have hsub : op = .sub := by
      cases op with
      | sub => rfl
      | add | mul => contradiction
      | div => simp [isOperation] at hdiv
    subst hsub
    have hinner : (operation .sub inner).Proper := (proper_operation.1 ha).2 _ (by simp)
    obtain ⟨hne, hproper⟩ := proper_operation.1 hinner
    refine @evaluate_operation_merge .sub [] inner after ?_
    rintro bs es ⟨⟩ hes
    have hnormal := normal_of_mapM_evaluate hproper hes
    have hes_ne : es ≠ [] := by
      rintro rfl
      exact hne (List.forall₂_nil_right_iff.1 (mapM_eq_ok_iff.1 hes))
    obtain ⟨r, hr⟩ : ∃ r, evaluatePositional .sub es = .ok r := by
      obtain ⟨first, later, hmerge⟩ := List.exists_cons_of_ne_nil
        (mergeLeading_ne_nil hes_ne fun e he => ((hnormal e he).proper.operandsUnder .sub).1)
      exact ⟨_, evaluatePositional_sub hmerge⟩
    exact ⟨r, hr, fun as => evaluatePositional_nested as hes_ne hnormal hr⟩

theorem Rearranges.evaluate_eq {a b : Expr} (h : Rearranges a b) (ha : a.Proper) :
    a.evaluate = b.evaluate := by
  cases h with
  | merge h hdiv => exact h.evaluate_eq ha hdiv
  | move hop n h => rw [evaluate_operation_move hop, evaluate_operation_move hop, h]

/-- Expressions that can be `Rearranged` into each other, and so differ only in how their sums,
products and differences are grouped and in where the integers of a sum or a product stand, evaluate
to the same or fail alike. -/
theorem evaluate_eq_of_rearranged {a b : Expr} (h : Rearranged a b) : a.evaluate = b.evaluate := by
  induction h with
  | rule ha _ h => exact h.evaluate_eq ha
  | refl _ => rfl
  | symm _ ih => exact ih.symm
  | trans _ _ ihab ihbc => exact ihab.trans ihbc
  | operand _ _ _ ih => exact evaluate_operation_congr ih

/-- In `2 + (x + ((y - 1) - 4))` the inner sum is merged, the `2` moved behind `x` and the inner
difference merged. -/
theorem evaluate_rearrangedSum :
    Rearranged
        (.operation .add [.value 2, .operation .add [.var 'x', .operation .sub
          [.operation .sub [.var 'y', .value 1], .value 4]]])
        (.operation .add [.var 'x', .value 2, .operation .sub [.var 'y', .value 1, .value 4]]) ∧
      evaluate (.operation .add [.value 2, .operation .add [.var 'x', .operation .sub
          [.operation .sub [.var 'y', .value 1], .value 4]]]) =
        evaluate (.operation .add
          [.var 'x', .value 2, .operation .sub [.var 'y', .value 1, .value 4]]) := by
  have hmerge : Rearranged
      (.operation .add [.value 2, .operation .add [.var 'x', .operation .sub
        [.operation .sub [.var 'y', .value 1], .value 4]]])
      (.operation .add [.value 2, .var 'x', .operation .sub
        [.operation .sub [.var 'y', .value 1], .value 4]]) :=
    .rule (by simp [Proper]) (by simp [Proper])
      (.merge (@Merges.anywhere .add rfl [.value 2] _ []) rfl)
  have hmove : Rearranged
      (.operation .add [.value 2, .var 'x', .operation .sub
        [.operation .sub [.var 'y', .value 1], .value 4]])
      (.operation .add [.var 'x', .value 2, .operation .sub
        [.operation .sub [.var 'y', .value 1], .value 4]]) :=
    .rule (by simp [Proper]) (by simp [Proper])
      (@Rearranges.move .add rfl [] _ [.var 'x'] _ 2 rfl)
  have hinner : Rearranged
      (.operation .sub [.operation .sub [.var 'y', .value 1], .value 4])
      (.operation .sub [.var 'y', .value 1, .value 4]) :=
    .rule (by simp [Proper]) (by simp [Proper])
      (.merge (@Merges.first .sub rfl [.var 'y', .value 1] [.value 4]) rfl)
  have hoperand : Rearranged
      (.operation .add [.var 'x', .value 2, .operation .sub
        [.operation .sub [.var 'y', .value 1], .value 4]])
      (.operation .add [.var 'x', .value 2, .operation .sub [.var 'y', .value 1, .value 4]]) :=
    @Congruent.operand _ _ .add [.var 'x', .value 2] [] _ _ (by simp [Proper]) (by simp [Proper])
      hinner
  have h := (hmerge.trans hmove).trans hoperand
  exact ⟨h, evaluate_eq_of_rearranged h⟩

end Expr

end Reckon
