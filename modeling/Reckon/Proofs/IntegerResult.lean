import Reckon.Proofs.Letters

/-!
# When an expression evaluates to an integer

An expression evaluates to an integer exactly if it has no variables and all the divisions in it are
exact (`evaluate_eq_ok_value_iff`). Both directions rest on the normal form of evaluation:

* if the operands of an operation evaluate to integers, nothing but integers is left in the result,
  and integers alone are normal only as a single one or as an inexact quotient
  (`Settled.eq_inexact`);
* if the result is an integer, no other operand was there, because none is ever dropped, and an
  inexact quotient in front of a division would have to be the product of the integers behind it.
-/

namespace Reckon

namespace Expr

/-- Every division in the expression has a `meaning`, which is an integer. -/
def ExactDivisions (env : Char → ℚ) : Expr → Prop :=
  Everywhere fun op operands =>
    op = .div → ∃ k : Int, meaning env (.operation op operands) = some (k : ℚ)

/-! ### Operations on integers -/

/-- Integers alone are `Settled` only as an inexact quotient. -/
theorem Settled.eq_inexact {op : Op} {operands : List Expr} (h : Settled op operands)
    (hvalues : ∀ a ∈ operands, a.isValue = true) :
    op = .div ∧ ∃ a b : Int, operands = [.value a, .value b] ∧ b ≠ 0 ∧ ¬ b ∣ a := by
  have hlen := h.two_le_length
  match operands with
  | [] | [_] => simp at hlen
  | x :: y :: rest =>
    obtain ⟨a, rfl⟩ := isValue_iff.1 (hvalues x (by simp))
    obtain ⟨b, rfl⟩ := isValue_iff.1 (hvalues y (by simp))
    by_cases hop : op.isAssociative = true
    · have hfirst := (h.collected hop).isValue_eq_false (.value a) (by simp)
      contradiction
    · have hcombined := h.combined (by simpa using hop)
      obtain ⟨rfl, hdvd⟩ := hcombined.inexact a b rest rfl
      refine ⟨rfl, a, b, ?_, ?_, hdvd⟩
      · cases rest with
        | nil => rfl
        | cons z rest =>
          -- a third integer would stand next to the second one
          obtain ⟨hapart, -⟩ := List.isChain_cons.1 hcombined.isChain_apart
          exact absurd ⟨rfl, hvalues z (by simp)⟩ (hapart z rfl)
      · rintro rfl
        exact hcombined.zero_notMem rfl (by simp)

section Meaning

variable (env : Char → ℚ)

/-- If the `meaning` of a quotient of integers is an integer, the division is exact. -/
theorem dvd_of_meaning_eq {a b k : Int}
    (h : meaning env (.operation .div [.value a, .value b]) = some (k : ℚ)) : b ∣ a := by
  by_cases hb : b = 0
  · simp [Op.applyAll, Op.apply, hb] at h
  · have hquotient : (a : ℚ) / b = k := by simpa [Op.applyAll, Op.apply, hb] using h
    have hb' : (b : ℚ) ≠ 0 := by exact_mod_cast hb
    rw [div_eq_iff hb'] at hquotient
    exact ⟨k, by rw [mul_comm]; exact_mod_cast hquotient⟩

/-- An operand that is `BroughtIn` from integers is an integer. -/
theorem isValue_of_broughtIn {op : Op} {es : List Expr} (hes : ∀ e ∈ es, e.isValue = true)
    {a : Expr} (h : BroughtIn op es a) : a.isValue = true := by
  obtain ⟨e, he, ha⟩ := h
  obtain ⟨n, rfl⟩ := isValue_iff.1 (hes e he)
  rcases ha with ha | rfl
  · obtain rfl := List.mem_singleton.1 ha
    rfl
  · rfl

/-- `evaluateOperation` makes an integer of integers, except for an inexact quotient. -/
theorem isValue_evaluateOperation {op : Op} {es : List Expr} {r : Expr} (hne : es ≠ [])
    (hes : ∀ e ∈ es, e.isValue = true) (hr : evaluateOperation op es = .ok r)
    (hexact : op = .div → ∃ k : Int, meaning env r = some (k : ℚ)) : r.isValue = true := by
  have hnormal : ∀ e ∈ es, e.Normal := by
    intro e he
    obtain ⟨n, rfl⟩ := isValue_iff.1 (hes e he)
    exact everywhere_value n
  have hresult := normal_evaluateOperation hne hnormal hr
  obtain ⟨operands, rfl, hne', hmem⟩ := operands_of_evaluateOperation hne
    (fun e he => ((hnormal e he).proper.operandsUnder op).1) hr
  have hvalues : ∀ a ∈ operands, a.isValue = true := fun a ha =>
    (hmem a ha).elim (isValue_of_broughtIn hes) id
  match operands with
  | [] =>
    have hassoc : op.isAssociative = true := by simpa using hne'
    cases op <;> first | rfl | contradiction
  | [a] => exact hvalues a (by simp)
  | a :: b :: rest =>
    obtain ⟨rfl, m, n, hoperands, -, hdvd⟩ := (normal_operation.1 hresult).1.eq_inexact hvalues
    obtain ⟨k, hk⟩ := hexact rfl
    rw [hoperands] at hk
    exact absurd (dvd_of_meaning_eq env hk) hdvd

/-- `evaluateOperation` only fails on a division. -/
theorem eq_div_of_evaluateOperation_eq_error {op : Op} {es : List Expr} {x : EvalError}
    (h : evaluateOperation op es = .error x) : op = .div := by
  rw [evaluateOperation] at h
  split at h
  · contradiction
  · unfold evaluatePositional at h
    split at h
    · contradiction
    · dsimp only at h
      split at h
      · rename_i hzero
        exact hzero.1
      · contradiction

/-- Without variables and with `ExactDivisions` only, `evaluate` returns an integer. -/
theorem exists_evaluate_eq_ok_value {e : Expr} (hproper : e.Proper) (hnames : e.names = [])
    (hexact : e.ExactDivisions env) : ∃ n, e.evaluate = .ok (.value n) := by
  induction e with
  | value n => exact ⟨n, rfl⟩
  | var name => contradiction
  | operation op operands ih =>
    obtain ⟨hne, hproper'⟩ := proper_operation.1 hproper
    obtain ⟨hdiv, hexact⟩ := (everywhere_operation ..).1 hexact
    have hnames : ∀ e ∈ operands, e.names = [] := by
      rwa [names_operation, List.flatMap_eq_nil_iff] at hnames
    have ih : ∀ e ∈ operands, ∃ n, e.evaluate = .ok (.value n) := fun e he =>
      ih e he (hproper' e he) (hnames e he) (hexact e he)
    have hspec := evaluate_spec env hproper
    cases hr : evaluate (.operation op operands) with
    | error x =>
      -- only a division by zero can fail, and that has no value
      have hmeaning := hspec.2 x hr
      rcases exists_of_evaluate_operation_eq_error hr with ⟨e, he, hx⟩ | ⟨es, -, hx⟩
      · obtain ⟨n, hn⟩ := ih e he
        rw [hn] at hx
        contradiction
      · obtain rfl := eq_div_of_evaluateOperation_eq_error hx
        obtain ⟨k, hk⟩ := hdiv rfl
        rw [hk] at hmeaning
        contradiction
    | ok r =>
      have hmeaning := hspec.1 r hr
      obtain ⟨es, hes, -, hback, hr⟩ := exists_evaluated_operands hne hr
      have hvalues : ∀ e ∈ es, e.isValue = true := by
        intro e' he'
        obtain ⟨e, he, heval⟩ := hback e' he'
        obtain ⟨n, hn⟩ := ih e he
        rw [hn] at heval
        rw [← Except.ok.inj heval]
        rfl
      have hvalue := isValue_evaluateOperation env hes hvalues hr fun hop => by
        rw [hmeaning]
        exact hdiv hop
      obtain ⟨n, rfl⟩ := isValue_iff.1 hvalue
      exact ⟨n, rfl⟩

/-! ### Operations that become integers -/

/-- If `ofOperands` is an integer, so are the operands. -/
theorem isValue_of_ofOperands_eq_value {op : Op} {operands : List Expr} {n : Int}
    (h : ofOperands op operands = .value n) : ∀ a ∈ operands, a.isValue = true := by
  match operands with
  | [] => simp
  | [a] =>
    obtain rfl : a = .value n := h
    simp [isValue]
  | a :: b :: es =>
    rw [ofOperands_cons_cons] at h
    contradiction

theorem mem_attachOperand_of_mem {op : Op} {e a : Expr} {es : List Expr} (h : a ∈ e :: es)
    (hvalue : a.isValue = false) : a ∈ attachOperand op e es := by
  unfold attachOperand
  split
  · -- both integers give way to a new one, and `a` is neither of them
    rcases List.mem_cons.1 h with rfl | h
    · contradiction
    · rcases List.mem_cons.1 h with rfl | h
      · contradiction
      · exact List.mem_cons_of_mem _ h
  · exact h

/-- `combineNeighbours` keeps an operand that is no integer. -/
theorem mem_combineNeighbours_of_mem {op : Op} {es : List Expr} {a : Expr} (h : a ∈ es)
    (hvalue : a.isValue = false) : a ∈ combineNeighbours op es := by
  induction es with
  | nil => contradiction
  | cons e es ih =>
    rw [combineNeighbours, List.foldr_cons]
    refine mem_attachOperand_of_mem ?_ hvalue
    rcases List.mem_cons.1 h with rfl | h
    · exact List.mem_cons_self
    · exact List.mem_cons_of_mem e (ih h)

/-- If `applyLeading` leaves only integers, there were only integers. -/
theorem isValue_of_applyLeading {op : Op} {first : Expr} {later : List Expr}
    (h : ∀ a ∈ applyLeading op first later, a.isValue = true) :
    ∀ a ∈ first :: later, a.isValue = true := by
  rcases applyLeading_cases op first later with
    ⟨a, b, c, rest, rfl, rfl, -, happly⟩ | ⟨happly, -⟩
  · rw [happly, List.forall_mem_cons] at h
    simp only [List.forall_mem_cons]
    exact ⟨rfl, rfl, h.2⟩
  · rwa [happly] at h

/-- If `evaluatePositional` returns an integer, `mergeLeading` leaves only integers. -/
theorem isValue_of_mergeLeading {op : Op} {es later : List Expr} {first : Expr} {n : Int}
    (hmerge : mergeLeading op es = first :: later)
    (h : evaluatePositional op es = .ok (.value n)) : ∀ a ∈ first :: later, a.isValue = true := by
  rw [evaluatePositional_of_mergeLeading hmerge] at h
  split at h
  · contradiction
  · have hleft := isValue_of_applyLeading (isValue_of_ofOperands_eq_value (Except.ok.inj h))
    rw [List.forall_mem_cons] at hleft ⊢
    refine ⟨hleft.1, ?_⟩
    intro a ha
    by_contra hvalue
    have hvalue : a.isValue = false := by simpa using hvalue
    refine absurd (hleft.2 a (List.mem_filter.2 ⟨mem_combineNeighbours_of_mem ha hvalue, ?_⟩)) ?_
    · simp only [decide_eq_true_eq]
      rintro rfl
      contradiction
    · simp [hvalue]

/-- What `applyAll` divides by integers with an integer as the result is an integer. -/
theorem exists_meaning_eq_of_applyAll_div {x : Option ℚ} {es : List Expr} {n : Int}
    (hes : ∀ e ∈ es, e.isValue = true)
    (h : Op.div.applyAll (x :: es.map (meaning env)) = some (n : ℚ)) :
    ∃ k : Int, x = some (k : ℚ) := by
  have hmap := map_meaning_filter_isValue env es
  rw [List.filter_eq_self.2 hes] at hmap
  rw [Op.applyAll_cons, Op.accumulator, hmap, Op.applyAll_intCast rfl] at h
  rcases x with _ | y
  · contradiction
  · by_cases hzero : ((Op.mul.total (es.filterMap value?) : Int) : ℚ) = 0
    · simp [Op.apply, hzero] at h
    · have hquotient : y / (Op.mul.total (es.filterMap value?) : Int) = (n : ℚ) := by
        simpa [Op.apply, hzero] using h
      rw [div_eq_iff hzero] at hquotient
      exact ⟨n * Op.mul.total (es.filterMap value?), by rw [hquotient]; push_cast; rfl⟩

/-- If `evaluateAssociative` returns an integer, the operands are integers. -/
theorem isValue_of_evaluateAssociative {op : Op} {es : List Expr} {n : Int}
    (hop : op.isAssociative = true) (hes : ∀ e ∈ es, e.Normal)
    (h : evaluateAssociative op es = .value n) : ∀ e ∈ es, e.isValue = true := by
  have hleft := isValue_of_ofOperands_eq_value h
  -- whatever is no integer would be left
  have hmerged : ∀ a ∈ es.flatMap (Expr.operandsUnder op), a.isValue = true := by
    intro a ha
    by_contra hvalue
    refine hvalue (hleft a ?_)
    rw [collectConstants]
    exact List.mem_append_left _ (List.mem_filter.2 ⟨ha, by simpa using hvalue⟩)
  intro e he
  have hunder : ∀ a ∈ e.operandsUnder op, a.isValue = true := fun a ha =>
    hmerged a (List.mem_flatMap.2 ⟨e, he, ha⟩)
  by_cases heop : e.isOperation op = true
  · obtain ⟨operands, rfl⟩ := isOperation_iff.1 heop
    rw [operandsUnder_operation_self] at hunder
    obtain ⟨rfl, -⟩ := (normal_operation.1 (hes _ he)).1.eq_inexact hunder
    contradiction
  · rw [operandsUnder_of_isOperation_eq_false (by simpa using heop)] at hunder
    exact hunder e (by simp)

/-- If `evaluatePositional` returns an integer, the operands are integers. -/
theorem isValue_of_evaluatePositional {op : Op} {es : List Expr} {n : Int} (hne : es ≠ [])
    (hes : ∀ e ∈ es, e.Normal) (h : evaluatePositional op es = .ok (.value n)) :
    ∀ e ∈ es, e.isValue = true := by
  have hunder : ∀ e ∈ es, e.operandsUnder op ≠ [] := fun e he =>
    ((hes e he).proper.operandsUnder op).1
  have hmeaning := (evaluatePositional_spec (fun _ => 0) hne hunder).1 _ h
  obtain ⟨first, later, hmerge⟩ := List.exists_cons_of_ne_nil (mergeLeading_ne_nil hne hunder)
  have hvalues := isValue_of_mergeLeading hmerge h
  obtain ⟨e, es, rfl⟩ := List.exists_cons_of_ne_nil hne
  rw [← hmerge, mergeLeading, List.forall_mem_append] at hvalues
  obtain ⟨hfirst, hrest⟩ := hvalues
  rw [List.forall_mem_cons]
  refine ⟨?_, hrest⟩
  by_cases heop : e.isOperation op = true
  · -- the first operand would be an inexact quotient, which the others cannot make an integer
    obtain ⟨operands, rfl⟩ := isOperation_iff.1 heop
    rw [operandsUnder_operation_self] at hfirst
    have hnormal : (operation op operands).Normal := hes _ (by simp)
    obtain ⟨rfl, a, b, rfl, -, hdvd⟩ := (normal_operation.1 hnormal).1.eq_inexact hfirst
    rw [List.map_cons, meaning_value] at hmeaning
    obtain ⟨k, hk⟩ := exists_meaning_eq_of_applyAll_div _ hrest hmeaning.symm
    exact absurd (dvd_of_meaning_eq _ hk) hdvd
  · rw [operandsUnder_of_isOperation_eq_false (by simpa using heop)] at hfirst
    exact hfirst e (by simp)

/-- If `evaluateOperation` returns an integer, the operands are integers. -/
theorem isValue_of_evaluateOperation {op : Op} {es : List Expr} {n : Int} (hne : es ≠ [])
    (hes : ∀ e ∈ es, e.Normal) (h : evaluateOperation op es = .ok (.value n)) :
    ∀ e ∈ es, e.isValue = true := by
  rw [evaluateOperation] at h
  split at h
  · rename_i hop
    exact isValue_of_evaluateAssociative hop hes (Except.ok.inj h)
  · exact isValue_of_evaluatePositional hne hes h

/-- If `evaluate` returns an integer, there are no variables, and all divisions are exact. -/
theorem exact_of_evaluate_eq_ok_value {e : Expr} {n : Int} (hproper : e.Proper)
    (h : e.evaluate = .ok (.value n)) : e.names = [] ∧ e.ExactDivisions env := by
  induction e generalizing n with
  | value m => exact ⟨rfl, everywhere_value m⟩
  | var name => exact Expr.noConfusion (Except.ok.inj h)
  | operation op operands ih =>
    have hmeaning := (evaluate_spec env hproper).1 _ h
    obtain ⟨hne, hproper⟩ := proper_operation.1 hproper
    obtain ⟨es, hes, hforth, hback, h⟩ := exists_evaluated_operands hne h
    have hnormal : ∀ e ∈ es, e.Normal := by
      intro e' he'
      obtain ⟨e, he, heval⟩ := hback e' he'
      exact (hproper e he).normal_evaluate heval
    have ih : ∀ e ∈ operands, e.names = [] ∧ e.ExactDivisions env := by
      intro e he
      obtain ⟨e', he', heval⟩ := hforth e he
      obtain ⟨m, rfl⟩ := isValue_iff.1 (isValue_of_evaluateOperation hes hnormal h e' he')
      exact ih e he (hproper e he) heval
    constructor
    · rw [names_operation, List.flatMap_eq_nil_iff]
      exact fun e he => (ih e he).1
    · exact (everywhere_operation ..).2 ⟨fun _ => ⟨n, hmeaning.symm⟩, fun e he => (ih e he).2⟩

end Meaning

/-! ### Expressions and texts -/

/-- An expression without divisions has `ExactDivisions`. -/
theorem exactDivisions_of_forall_ne_div (env : Char → ℚ) {e : Expr}
    (h : Everywhere (fun op _ => op ≠ .div) e) : e.ExactDivisions env :=
  Everywhere.mono (fun _ _ hne hop => absurd hop hne) h

end Expr

open Reckon.Expr (meaning Everywhere)

/-- What `parse` returns has no variables if the text has no letters, and no divisions if the text
has no `/`. -/
theorem names_and_everywhere_of_parse_eq_ok {text : List Char} {e : Expr}
    (h : parse text = .ok e) (htext : ∀ c ∈ text, c.isAlpha = false ∧ c ≠ '/') :
    e.names = [] ∧ Everywhere (fun op _ => op ≠ .div) e := by
  constructor
  · rw [names_of_parse_eq_ok h, List.filter_eq_nil_iff]
    intro c hc
    simp [(htext c hc).1]
  · obtain ⟨raw, hraw, rfl⟩ := parse_eq_ok_iff.1 h
    obtain ⟨p, hp, rfl, -⟩ := parseRaw_eq_ok_iff_phrase.1 hraw
    rw [← hp.chars_eq] at htext
    refine Everywhere.flatten (p.rawTree_of_forall (Q := fun op => op ≠ .div) ?_
      (fun n => Expr.everywhere_value n) (fun name _ _ => Expr.everywhere_var name) ?_)
    · intro op a b hop ha hb
      simp [hop, ha, hb]
    · rintro op (rfl | hmem)
      · decide
      · rintro rfl
        exact (htext _ hmem).2 rfl

/-- `evaluate` returns an integer exactly if there are no variables, all divisions have integers as
values (`ExactDivisions`), and the integer is the `meaning` of the expression. So a text without
letters and `/` reduces to the integer that is the `meaning` of its expression. -/
theorem evaluate_eq_ok_value_iff :
    (∀ e : Expr, e.Proper → ∀ (env : Char → ℚ) (n : Int), e.evaluate = .ok (.value n) ↔
      e.names = [] ∧ e.ExactDivisions env ∧ meaning env e = some (n : ℚ)) ∧
    (∀ text e, parse text = .ok e → (∀ c ∈ text, c.isAlpha = false ∧ c ≠ '/') →
      ∃ n : Int, reduce text = .ok (.value n) ∧ ∀ env, meaning env e = some (n : ℚ)) := by
  constructor
  · intro e he env n
    constructor
    · intro h
      obtain ⟨hnames, hexact⟩ := Expr.exact_of_evaluate_eq_ok_value env he h
      exact ⟨hnames, hexact, ((Expr.evaluate_spec env he).1 _ h).symm⟩
    · rintro ⟨hnames, hexact, hmeaning⟩
      obtain ⟨m, hm⟩ := Expr.exists_evaluate_eq_ok_value env he hnames hexact
      have hvalue := (Expr.evaluate_spec env he).1 _ hm
      rw [hmeaning, Expr.meaning_value] at hvalue
      have hmn : m = n := by exact_mod_cast Option.some.inj hvalue
      rw [hm, hmn]
  · intro text e h htext
    obtain ⟨hnames, hops⟩ := names_and_everywhere_of_parse_eq_ok h htext
    have he : e.Proper := proper_of_parse_eq_ok h
    have hexact : ∀ env, e.canonicalize.ExactDivisions env := fun env =>
      Expr.exactDivisions_of_forall_ne_div env (hops.canonicalize (by decide) (by decide))
    rw [← Expr.names_canonicalize] at hnames
    obtain ⟨n, hn⟩ := Expr.exists_evaluate_eq_ok_value (fun _ => 0) he.canonicalize hnames
      (hexact _)
    refine ⟨n, ?_, ?_⟩
    · rw [reduce_of_parse_eq_ok h]
      exact evaluateCanonical_eq_ok_iff.2 hn
    · intro env
      exact ((evaluate_canonicalize_spec he env).2.1 _ hn).symm

/-- Since `6/2-5` evaluates to `-2`, all divisions in it are exact, and `2(3-5)` reduces to an
integer. -/
theorem evaluate_exactQuotient :
    (∀ env, (Expr.operation .sub [.operation .div [.value 6, .value 2],
      .value 5]).ExactDivisions env) ∧
    ∃ n : Int, reduce ['2', '(', '3', '-', '5', ')'] = .ok (.value n) := by
  obtain ⟨hexpr, htext⟩ := evaluate_eq_ok_value_iff
  constructor
  · intro env
    exact ((hexpr _ (by simp [Expr.Proper]) env (-2)).1 rfl).2.1
  · have hparse : parse ['2', '(', '3', '-', '5', ')'] =
        .ok (.operation .mul [.value 2, .operation .sub [.value 3, .value 5]]) := by
      rw [parse, parseRaw_of_run rfl]
      rfl
    obtain ⟨n, hn, -⟩ := htext _ _ hparse (by simp)
    exact ⟨n, hn⟩

end Reckon
