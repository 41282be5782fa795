import Reckon.Proofs.Reduction

/-!
# The height of expressions

The parser keeps the raw tree within a height, and nothing that comes after it makes a tree much
taller. Flattening never does (`height_flatten_le`), and neither does evaluation
(`Proper.height_evaluate_le`). Only a subtraction is written with operations inside of each other,
three of them at most, so a canonical form is at most three times as tall as the expression
(`height_canonicalize_le`). The limit of the parser therefore bounds every tree on the way from a
text to what it reduces to (`heights_within_limit`).
-/

namespace Reckon

namespace Expr

/-- Every operation has two operands. -/
def Binary : Expr → Prop :=
  Everywhere fun _ operands => operands.length = 2

theorem Binary.proper {e : Expr} (h : e.Binary) : e.Proper := by
  refine Everywhere.mono ?_ h
  rintro op operands hlen rfl
  simp at hlen

/-! ### Operations -/

theorem height_operation_le_iff {op : Op} {operands : List Expr} {n : Nat} :
    (operation op operands).height ≤ n + 1 ↔ ∀ e ∈ operands, e.height ≤ n := by
  rw [height_operation, Nat.add_le_add_iff_right]
  induction operands with
  | nil => simp
  | cons e es ih => simp [ih]

/-- `height` of an operation is one more than that of its operands at most. -/
theorem exists_height_operation_eq (op : Op) (operands : List Expr) :
    ∃ n, (operation op operands).height = n + 1 ∧ ∀ e ∈ operands, e.height ≤ n := by
  have hheight := height_operation op operands
  exact ⟨_, hheight, height_operation_le_iff.1 hheight.le⟩

/-- `height` of an operand is less than that of the operation. -/
theorem height_lt_of_mem {op : Op} {operands : List Expr} {e : Expr} (he : e ∈ operands) :
    e.height < (operation op operands).height := by
  obtain ⟨n, hn, hle⟩ := exists_height_operation_eq op operands
  rw [hn]
  exact Nat.lt_succ_of_le (hle e he)

/-- `ofOperands` adds at most one to the `height` of the operands. -/
theorem height_ofOperands_le {op : Op} {operands : List Expr} {n : Nat}
    (h : ∀ e ∈ operands, e.height ≤ n) : (ofOperands op operands).height ≤ n + 1 := by
  match operands with
  | [e] => exact (h e (by simp)).trans (Nat.le_succ n)
  | a :: b :: es => exact height_operation_le_iff.2 h
  | [] => cases op <;> simp [ofOperands, Op.identity]

/-! ### Flattening -/

/-- `flatten` adds nothing to the `height`, and neither has a `spliced` operand more than what it
comes from. -/
theorem height_flatten_and_spliced_le (e : Expr) :
    e.flatten.height ≤ e.height ∧ ∀ op, ∀ a ∈ e.spliced op, a.height ≤ e.height := by
  induction e with
  | value n => exact ⟨Nat.le_refl 0, fun op => by simp [spliced, isOperation]⟩
  | var name => exact ⟨Nat.le_refl 0, fun op => by simp [spliced, isOperation]⟩
  | operation op operands ih =>
    -- what comes of an operand is no taller than the operand, and that is below the operation
    have hlt : ∀ a ∈ flatOperands (.operation op operands),
        a.height < (operation op operands).height := by
      intro a ha
      obtain ⟨e, he, ha | rfl⟩ := mem_flatOperands_operation ha
      · exact ((ih e he).2 op a ha).trans_lt (height_lt_of_mem he)
      · exact (ih e he).1.trans_lt (height_lt_of_mem he)
    have hflat : (flatten (.operation op operands)).height ≤ (operation op operands).height := by
      obtain ⟨n, hn, -⟩ := exists_height_operation_eq op operands
      rw [hn] at hlt ⊢
      exact height_ofOperands_le fun a ha => Nat.le_of_lt_succ (hlt a ha)
    refine ⟨hflat, ?_⟩
    intro op' a ha
    rw [spliced] at ha
    split at ha
    · exact (hlt a ha).le
    · obtain rfl := List.mem_singleton.1 ha
      exact hflat

theorem height_flatten_le (e : Expr) : e.flatten.height ≤ e.height :=
  (height_flatten_and_spliced_le e).1

/-! ### Elimination of subtraction -/

/-- `difference` adds at most three to the `height` of the operands. -/
theorem height_difference_le {operands : List Expr} {n : Nat} (h : ∀ e ∈ operands, e.height ≤ n) :
    (difference operands).height ≤ n + 3 := by
  match operands with
  | [] => exact Nat.zero_le _
  | [e] => exact (h e (by simp)).trans (Nat.le_add_right n 3)
  | e :: e' :: es =>
    have hsum : (ofOperands .add (e' :: es)).height ≤ n + 1 :=
      height_ofOperands_le fun a ha => h a (List.mem_cons_of_mem e ha)
    have hnegate : (negate (ofOperands .add (e' :: es))).height ≤ n + 2 :=
      height_operation_le_iff.2 (by simpa using hsum)
    have hfirst : e.height ≤ n + 2 := (h e (by simp)).trans (Nat.le_add_right n 2)
    exact height_operation_le_iff.2 (by simpa using ⟨hfirst, hnegate⟩)

theorem height_eliminateSubtraction_le (e : Expr) :
    e.eliminateSubtraction.height ≤ 3 * e.height := by
  induction e with
  | value n => exact Nat.zero_le _
  | var name => exact Nat.zero_le _
  | operation op operands ih =>
    obtain ⟨n, hn, hle⟩ := exists_height_operation_eq op operands
    have hmap : ∀ a ∈ operands.map eliminateSubtraction, a.height ≤ 3 * n := by
      intro a ha
      obtain ⟨e, he, rfl⟩ := List.mem_map.1 ha
      exact (ih e he).trans (Nat.mul_le_mul_left 3 (hle e he))
    rw [eliminateSubtraction_operation, hn, Nat.mul_add_one]
    by_cases hop : op = .sub
    · subst hop
      exact height_difference_le hmap
    · rw [withoutSubtraction_of_ne_sub hop]
      exact (height_ofOperands_le hmap).trans (by omega)

/-- `canonicalize` multiplies the `height` by at most three. -/
theorem height_canonicalize_le (e : Expr) : e.canonicalize.height ≤ 3 * e.height :=
  calc
    e.canonicalize.height ≤ e.flatten.eliminateSubtraction.height := height_flatten_le _
    _ ≤ 3 * e.flatten.height := height_eliminateSubtraction_le _
    _ ≤ 3 * e.height := Nat.mul_le_mul_left 3 e.height_flatten_le

/-! ### Evaluation -/

/-- An operand that is `BroughtIn` is no taller than what it comes from. -/
theorem height_of_broughtIn {op : Op} {es : List Expr} {n : Nat} (h : ∀ e ∈ es, e.height ≤ n)
    {a : Expr} (ha : BroughtIn op es a) : a.height ≤ n := by
  obtain ⟨e, he, ha | rfl⟩ := ha
  · refine le_trans ?_ (h e he)
    by_cases hop : e.isOperation op = true
    · obtain ⟨operands, rfl⟩ := isOperation_iff.1 hop
      rw [operandsUnder_operation_self] at ha
      exact (height_lt_of_mem ha).le
    · rw [operandsUnder_of_isOperation_eq_false (by simpa using hop)] at ha
      rw [List.mem_singleton.1 ha]
  · exact h a he

/-- `evaluate` adds nothing to the `height`. -/
theorem Proper.height_evaluate_le {e r : Expr} (h : e.Proper) (hr : e.evaluate = .ok r) :
    r.height ≤ e.height := by
  induction e generalizing r with
  | value n =>
    obtain rfl := Except.ok.inj hr
    exact Nat.le_refl 0
  | var name =>
    obtain rfl := Except.ok.inj hr
    exact Nat.le_refl 0
  | operation op operands ih =>
    obtain ⟨hne, hproper⟩ := proper_operation.1 h
    obtain ⟨n, hn, hle⟩ := exists_height_operation_eq op operands
    obtain ⟨es, hes, -, hback, hr⟩ := exists_evaluated_operands hne hr
    have hheight : ∀ e' ∈ es, e'.height ≤ n := by
      intro e' he'
      obtain ⟨e, he, heval⟩ := hback e' he'
      exact (ih e he (hproper e he) heval).trans (hle e he)
    have hunder : ∀ e' ∈ es, e'.operandsUnder op ≠ [] := by
      intro e' he'
      obtain ⟨e, he, heval⟩ := hback e' he'
      exact (((hproper e he).evaluate heval).operandsUnder op).1
    -- the operands of the result are evaluated operands, parts of one, or integers
    obtain ⟨results, rfl, -, hmem⟩ := operands_of_evaluateOperation hes hunder hr
    rw [hn]
    refine height_ofOperands_le ?_
    intro a ha
    rcases hmem a ha with ha | ha
    · exact height_of_broughtIn hheight ha
    · obtain ⟨m, rfl⟩ := isValue_iff.1 ha
      exact Nat.zero_le n

/-! ### Steps -/

/-- No step of `canonicalizeWithSteps` is more than three times as tall as the expression. -/
theorem height_le_of_mem_canonicalizeWithSteps {e : Expr} {step : Step}
    (h : step ∈ e.canonicalizeWithSteps.1) : step.expr.height ≤ 3 * e.height := by
  have hflat := e.height_flatten_le
  have hadditive := e.flatten.height_eliminateSubtraction_le
  have hcanonical := e.height_canonicalize_le
  obtain rfl | rfl | rfl : step = ⟨.flatten, e.flatten⟩ ∨
      step = ⟨.eliminateSubtraction, e.flatten.eliminateSubtraction⟩ ∨
        step = ⟨.merge, e.canonicalize⟩ := by
    simpa [canonicalizeWithSteps, canonicalize] using h
  · show e.flatten.height ≤ 3 * e.height
    omega
  · show e.flatten.eliminateSubtraction.height ≤ 3 * e.height
    omega
  · exact hcanonical

end Expr

/-! ### Texts -/

/-- `rawTree` of a phrase is `Binary`. -/
theorem Phrase.binary_rawTree {level : Option Tier} (p : Phrase level) : p.rawTree.Binary := by
  refine p.rawTree_of_forall (Q := fun _ => True) ?_ (fun n => Expr.everywhere_value n)
    (fun name _ _ => Expr.everywhere_var name) fun _ _ => trivial
  intro op a b _ ha hb
  exact (Expr.everywhere_operation ..).2 ⟨rfl, by simpa using ⟨ha, hb⟩⟩

/-- `Parser.measured` knows the height of what `parseRaw` returns. -/
theorem measured_of_parseRaw_eq_ok {limits : Limits} {text : List Char} {r : Expr}
    (h : parseRaw limits text = .ok r) : (Parser.ofChars text limits).measured.1 = .ok (.of r) := by
  obtain ⟨e, he, hend⟩ := bind_eq_ok_iff.1 h
  have he : (Parser.ofChars text limits).measured.1.map Measured.expr = .ok e := he
  obtain rfl : e = r := by
    split at hend
    · exact Except.ok.inj hend
    · contradiction
  cases hmeasured : (Parser.ofChars text limits).measured.1 with
  | error error =>
    rw [hmeasured] at he
    contradiction
  | ok m =>
    rw [hmeasured] at he
    exact congrArg _ (Measured.ext (Except.ok.inj he))

theorem height_and_binary_of_parseRaw_eq_ok {limits : Limits} {text : List Char} {r : Expr}
    (h : parseRaw limits text = .ok r) : r.height ≤ limits.height ∧ r.Binary := by
  obtain ⟨p, -, rfl, -, hheight⟩ := parseRaw_eq_ok_iff_phrase.1 h
  exact ⟨hheight, p.binary_rawTree⟩

theorem height_le_of_parse_eq_ok {text : List Char} {e : Expr} (h : parse text = .ok e) :
    e.height ≤ 512 := by
  obtain ⟨r, hr, rfl⟩ := parse_eq_ok_iff.1 h
  exact r.height_flatten_le.trans (height_and_binary_of_parseRaw_eq_ok hr).1

theorem height_le_of_mem_reduceWithSteps {text : List Char} {step : Step}
    (h : step ∈ (reduceWithSteps text).1) : step.expr.height ≤ 3 * 512 := by
  unfold reduceWithSteps at h
  cases he : parse text with
  | error error => simp [he] at h
  | ok e =>
    have hheight := height_le_of_parse_eq_ok he
    rw [he] at h
    rcases List.mem_cons.1 h with rfl | h
    · show e.height ≤ 3 * 512
      omega
    · have hle := Expr.height_le_of_mem_canonicalizeWithSteps h
      omega

theorem height_le_of_reduce_eq_ok {text : List Char} {r : Expr} (h : reduce text = .ok r) :
    r.height ≤ 3 * 512 := by
  obtain ⟨e, he, hr⟩ := reduce_eq_ok_iff.1 h
  have hproper : e.canonicalize.Proper := (proper_of_parse_eq_ok he).canonicalize
  calc
    r.height ≤ e.canonicalize.height := hproper.height_evaluate_le hr
    _ ≤ 3 * e.height := e.height_canonicalize_le
    _ ≤ 3 * 512 := Nat.mul_le_mul_left 3 (height_le_of_parse_eq_ok he)

/-- What `parseRaw` returns has the height that `Parser.measured` has tracked, which is within
`limits.height`, and is `Binary`. No later tree is more than three times as tall as the limit. With
the limits that are used by default, every tree on the way from a text to what it reduces to has a
height of at most `3 * 512`. -/
theorem heights_within_limit :
    (∀ (limits : Limits) (text : List Char) (r : Expr), parseRaw limits text = .ok r →
      (Parser.ofChars text limits).measured.1 = .ok (.of r) ∧
      r.height ≤ limits.height ∧ r.Binary ∧
      r.flatten.height ≤ limits.height ∧
      r.flatten.eliminateSubtraction.height ≤ 3 * limits.height ∧
      r.canonicalize.height ≤ 3 * limits.height ∧
      ∀ e, r.canonicalize.evaluate = .ok e → e.height ≤ 3 * limits.height) ∧
    (∀ text : List Char,
      (∀ r, parseRaw {} text = .ok r → r.height ≤ 512) ∧
      (∀ step ∈ (reduceWithSteps text).1, step.expr.height ≤ 3 * 512) ∧
      ∀ r, reduce text = .ok r → r.height ≤ 3 * 512) := by
  constructor
  · intro limits text r h
    obtain ⟨hheight, hbinary⟩ := height_and_binary_of_parseRaw_eq_ok h
    have hflat := r.height_flatten_le
    have hadditive := r.flatten.height_eliminateSubtraction_le
    have hcanonical := r.height_canonicalize_le
    refine ⟨measured_of_parseRaw_eq_ok h, hheight, hbinary, by omega, by omega, by omega, ?_⟩
    intro e he
    have hresult := hbinary.proper.canonicalize.height_evaluate_le he
    omega
  · intro text
    exact ⟨fun r hr => (height_and_binary_of_parseRaw_eq_ok hr).1, fun step =>
      height_le_of_mem_reduceWithSteps, fun r => height_le_of_reduce_eq_ok⟩

/-- The tree of `a-b-(c-d-e)` is accepted with a height of three. Without subtraction it is taller,
but not more than three times as tall. What `7-x` reduces to keeps within the default limits. -/
theorem height_nestedDifference_le :
    Expr.height (.operation .add [.var 'a', .operation .mul [.value (-1), .operation .add
      [.var 'b', .operation .add [.var 'c', .operation .mul [.value (-1), .operation .add
        [.var 'd', .var 'e']]]]]]) ≤ 3 * 3 ∧
    Expr.height (.operation .add
      [.operation .mul [.var 'x', .value (-1)], .value 7]) ≤ 3 * 512 := by
  obtain ⟨hlimits, hdefault⟩ := heights_within_limit
  have hparse : parseRaw ⟨1, 3⟩ ['a', '-', 'b', '-', '(', 'c', '-', 'd', '-', 'e', ')'] =
      .ok (.operation .sub [.operation .sub [.var 'a', .var 'b'],
        .operation .sub [.operation .sub [.var 'c', .var 'd'], .var 'e']]) := parseRaw_of_run rfl
  have hreduce : reduce ['7', '-', 'x'] = .ok (.operation .add
      [.operation .mul [.var 'x', .value (-1)], .value 7]) := by
    rw [reduce, parse, parseRaw_of_run rfl]
    rfl
  obtain ⟨-, -, -, -, hadditive, -⟩ := hlimits _ _ _ hparse
  exact ⟨hadditive, (hdefault ['7', '-', 'x']).2.2 _ hreduce⟩

end Reckon
