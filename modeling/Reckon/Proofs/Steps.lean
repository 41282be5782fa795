import Reckon.Proofs.Reduction

/-!
# The steps of a reduction

Listing the steps of a reduction changes nothing about its result (`reduceWithSteps_snd`). A text
that cannot be read has no steps. Otherwise there are four, also if the evaluation fails in the end.

Since a parsed expression is flat already (`flat_of_parse_eq_ok`), flattening it is the one stage
that never does anything. Without subtraction the other two leave it as it is as well, so what is
evaluated is what was read (`Expr.Flat.canonicalize_eq_of_subtractionFree`).
-/

namespace Reckon

namespace Expr

/-- `eliminateSubtraction` and `canonicalize` leave a `Flat` expression as it is if that is
`SubtractionFree`. -/
theorem Flat.canonicalize_eq_of_subtractionFree {e : Expr} (h : e.Flat)
    (hfree : e.SubtractionFree) :
    e.eliminateSubtraction = e ∧ e.canonicalize = e :=
  ⟨hfree.eliminateSubtraction_eq h.branching, canonicalize_eq_self h hfree⟩

/-- `canonicalize` of a `Flat` expression is `eliminateSubtraction` and then `flatten`. -/
theorem Flat.flatten_eliminateSubtraction {e : Expr} (h : e.Flat) :
    e.eliminateSubtraction.flatten = e.canonicalize := by
  rw [canonicalize, h.flatten_eq]

/-- The steps of `canonicalizeWithSteps` start from a `Flat` expression itself. -/
theorem Flat.canonicalizeWithSteps_eq {e : Expr} (h : e.Flat) :
    e.canonicalizeWithSteps =
      ([⟨.flatten, e⟩, ⟨.eliminateSubtraction, e.eliminateSubtraction⟩, ⟨.merge, e.canonicalize⟩],
        e.canonicalize) := by
  rw [canonicalizeWithSteps, h.flatten_eq, h.flatten_eliminateSubtraction]

end Expr

/-- What `parse` returns is `Flat`. -/
theorem flat_of_parse_eq_ok {text : List Char} {e : Expr} (h : parse text = .ok e) : e.Flat := by
  obtain ⟨raw, hraw, rfl⟩ := parse_eq_ok_iff.1 h
  obtain ⟨p, -, rfl, -⟩ := parseRaw_eq_ok_iff_phrase.1 hraw
  exact p.branching_rawTree.flat_flatten

/-! ### Texts -/

theorem reduceWithSteps_of_parse_eq_error {text : List Char} {error : Error}
    (h : parse text = .error error) : reduceWithSteps text = ([], .error error) := by
  rw [reduceWithSteps, h]

theorem reduceWithSteps_of_parse_eq_ok {text : List Char} {e : Expr} (h : parse text = .ok e) :
    reduceWithSteps text =
      ([⟨.parse, e⟩, ⟨.flatten, e⟩, ⟨.eliminateSubtraction, e.eliminateSubtraction⟩,
        ⟨.merge, e.canonicalize⟩], evaluateCanonical (byteLength text) e.canonicalize) := by
  rw [reduceWithSteps, h]
  dsimp only
  rw [(flat_of_parse_eq_ok h).canonicalizeWithSteps_eq]

/-- `reduceWithSteps` has the result of `reduce`. -/
theorem reduceWithSteps_snd (text : List Char) : (reduceWithSteps text).2 = reduce text := by
  cases h : parse text with
  | error error =>
    rw [reduceWithSteps_of_parse_eq_error h, reduce, h]
    rfl
  | ok e => rw [reduceWithSteps_of_parse_eq_ok h, reduce_of_parse_eq_ok h]

/-- A reduction with steps has the result of the reduction. It has no steps, and the error of the
reading, if the text cannot be read. Otherwise there are four: the expression that was read, the
same expression since it is flat, its form without subtraction, and this form flattened, which is
evaluated. Whatever has no subtraction to begin with is the same in all of them. Where the
evaluation fails, the error concerns the whole text. -/
theorem reduceWithSteps_spec (text : List Char) :
    (reduceWithSteps text).2 = reduce text ∧
    (∀ error, parse text = .error error → reduceWithSteps text = ([], .error error)) ∧
    ∀ e, parse text = .ok e →
      (reduceWithSteps text).1 = [⟨.parse, e⟩, ⟨.flatten, e⟩,
        ⟨.eliminateSubtraction, e.eliminateSubtraction⟩, ⟨.merge, e.canonicalize⟩] ∧
      e.flatten = e ∧
      e.eliminateSubtraction.SubtractionFree ∧ e.canonicalize.SubtractionFree ∧
      e.canonicalize.Flat ∧ e.eliminateSubtraction.flatten = e.canonicalize ∧
      (e.SubtractionFree → e.eliminateSubtraction = e ∧ e.canonicalize = e) ∧
      (∀ r, e.canonicalize.evaluate = .ok r → (reduceWithSteps text).2 = .ok r) ∧
      ∀ x, e.canonicalize.evaluate = .error x →
        (reduceWithSteps text).2 = .error ⟨[⟨0, byteLength text⟩], .divisionByZero⟩ := by
  refine ⟨reduceWithSteps_snd text, fun error => reduceWithSteps_of_parse_eq_error, ?_⟩
  intro e he
  have hflat : e.Flat := flat_of_parse_eq_ok he
  rw [reduceWithSteps_of_parse_eq_ok he]
  refine ⟨rfl, hflat.flatten_eq, e.subtractionFree_eliminateSubtraction,
    e.subtractionFree_canonicalize, hflat.branching.proper.flat_canonicalize,
    hflat.flatten_eliminateSubtraction, hflat.canonicalize_eq_of_subtractionFree, ?_, ?_⟩
  · intro r hr
    exact evaluateCanonical_eq_ok_iff.2 hr
  · intro x hx
    exact evaluateCanonical_eq_error_iff.2 ⟨x, hx, rfl⟩

/-- In `1+x` there is nothing to eliminate, so it is its own canonical form. The evaluation of
`1/(2-2)` fails, which concerns all seven characters of it. -/
theorem reduceWithSteps_of_sum_and_quotient :
    Expr.canonicalize (.operation .add [.value 1, .var 'x']) =
      .operation .add [.value 1, .var 'x'] ∧
    (reduceWithSteps ['1', '/', '(', '2', '-', '2', ')']).2 =
      .error ⟨[⟨0, 7⟩], .divisionByZero⟩ := by
  obtain ⟨-, -, hsum⟩ := reduceWithSteps_spec ['1', '+', 'x']
  obtain ⟨-, -, hquotient⟩ := reduceWithSteps_spec ['1', '/', '(', '2', '-', '2', ')']
  have hparse : parse ['1', '+', 'x'] = .ok (.operation .add [.value 1, .var 'x']) := by
    rw [parse, parseRaw_of_run rfl]
    rfl
  have hparse' : parse ['1', '/', '(', '2', '-', '2', ')'] =
      .ok (.operation .div [.value 1, .operation .sub [.value 2, .value 2]]) := by
    rw [parse, parseRaw_of_run rfl]
    rfl
  obtain ⟨-, -, -, -, -, -, hfree, -⟩ := hsum _ hparse
  obtain ⟨-, -, -, -, -, -, -, -, herror⟩ := hquotient _ hparse'
  exact ⟨(hfree (by simp [Expr.SubtractionFree])).2, herror .divisionByZero rfl⟩

end Reckon
