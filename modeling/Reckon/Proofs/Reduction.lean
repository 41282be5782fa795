import Reckon.Proofs.Acceptance
import Reckon.Proofs.NormalForm
import Reckon.Reduction

/-!
# Reduction

A text is reduced by reading it, bringing the expression into canonical form and evaluating that.
Since the canonical form of a proper expression is proper and means the same, what is known of the
evaluation of proper expressions carries over: reduction keeps the meaning
(`evaluate_canonicalize_spec`), and what it results in is normal and has no subtraction, so that
there is nothing left to reduce (`evaluate_canonicalize_again`).
-/

namespace Reckon

open Reckon.Expr (meaning)

/-! ### Keeping the meaning -/

/-- `canonicalize` and `evaluate` keep the `meaning`, and `evaluate` fails only if there is none. -/
theorem evaluate_canonicalize_spec {e : Expr} (h : e.Proper) (env : Char → ℚ) :
    meaning env e.canonicalize = meaning env e ∧
    (∀ r, e.canonicalize.evaluate = .ok r → meaning env r = meaning env e) ∧
    (∀ x, e.canonicalize.evaluate = .error x → meaning env e = none) := by
  have hmeaning := Expr.meaning_canonicalize env h
  obtain ⟨hok, herror⟩ := Expr.evaluate_spec env h.canonicalize
  refine ⟨hmeaning, ?_, ?_⟩
  · intro r hr
    rw [hok r hr, hmeaning]
  · intro x hx
    rw [← hmeaning, herror x hx]

/-- `evaluateCanonical` fails where `evaluate` does, with an error that concerns the whole text. -/
theorem evaluateCanonical_eq_error_iff {length : Nat} {e : Expr} {error : Error} :
    evaluateCanonical length e = .error error ↔
      ∃ x, e.evaluate = .error x ∧ error = ⟨[⟨0, length⟩], x.fault⟩ := by
  unfold evaluateCanonical
  cases e.evaluate with
  | ok r => simp [Except.mapError]
  | error x =>
    constructor
    · intro h
      exact ⟨x, rfl, (Except.error.inj h).symm⟩
    · rintro ⟨x', hx, rfl⟩
      obtain rfl := Except.error.inj hx
      rfl

theorem evaluateCanonical_eq_ok_iff {length : Nat} {e r : Expr} :
    evaluateCanonical length e = .ok r ↔ e.evaluate = .ok r := by
  unfold evaluateCanonical
  cases e.evaluate with
  | ok r => simp [Except.mapError]
  | error x => simp [Except.mapError]

/-- `reduce` is `evaluateCanonical` of the canonical form of what `parse` returns. -/
theorem reduce_of_parse_eq_ok {text : List Char} {e : Expr} (h : parse text = .ok e) :
    reduce text = evaluateCanonical (byteLength text) e.canonicalize := by
  unfold reduce
  rw [h]
  rfl

/-- `canonicalize` and `evaluate` of an expression, and `reduce` of a text that is one, keep the
`meaning` under every assignment of values to the variables. If `evaluate` fails, there was no
meaning to keep, under any. -/
theorem reduction_keeps_meaning :
    (∀ e : Expr, e.Proper → ∀ env : Char → ℚ,
      meaning env e.canonicalize = meaning env e ∧
      (∀ r, e.canonicalize.evaluate = .ok r → meaning env r = meaning env e) ∧
      (e.canonicalize.evaluate = .error .divisionByZero → meaning env e = none)) ∧
    (∀ text e, parse text = .ok e → e.Proper ∧ ∀ env : Char → ℚ,
      (∀ r, reduce text = .ok r → meaning env r = meaning env e) ∧
      (∀ error, reduce text = .error error →
        error.fault = .divisionByZero ∧ meaning env e = none)) := by
  constructor
  · intro e he env
    obtain ⟨hmeaning, hok, herror⟩ := evaluate_canonicalize_spec he env
    exact ⟨hmeaning, hok, herror .divisionByZero⟩
  · intro text e h
    have he : e.Proper := proper_of_parse_eq_ok h
    refine ⟨he, ?_⟩
    intro env
    obtain ⟨-, hok, herror⟩ := evaluate_canonicalize_spec he env
    rw [reduce_of_parse_eq_ok h]
    constructor
    · intro r hr
      exact hok r (evaluateCanonical_eq_ok_iff.1 hr)
    · intro error herr
      obtain ⟨x, hx, rfl⟩ := evaluateCanonical_eq_error_iff.1 herr
      exact ⟨rfl, herror x hx⟩

/-- `6/2-x` reduces to `x * -1 + 3`, which has the same meaning, and `x/(2-2)` is a division by
zero, which has none, whatever `x` is. -/
theorem reduction_of_quotients :
    (∀ env, meaning env (.operation .add [.operation .mul [.var 'x', .value (-1)], .value 3]) =
      meaning env (.operation .sub [.operation .div [.value 6, .value 2], .var 'x'])) ∧
    (∀ env, meaning env
      (.operation .div [.var 'x', .operation .sub [.value 2, .value 2]]) = none) := by
  obtain ⟨-, htexts⟩ := reduction_keeps_meaning
  constructor
  · intro env
    have hparse : parse ['6', '/', '2', '-', 'x'] =
        .ok (.operation .sub [.operation .div [.value 6, .value 2], .var 'x']) := by
      rw [parse, parseRaw_of_run rfl]
      rfl
    have hreduce : reduce ['6', '/', '2', '-', 'x'] = .ok (.operation .add
        [.operation .mul [.var 'x', .value (-1)], .value 3]) := by
      rw [reduce, parse, parseRaw_of_run rfl]
      rfl
    obtain ⟨-, h⟩ := htexts _ _ hparse
    exact (h env).1 _ hreduce
  · intro env
    have hparse : parse ['x', '/', '(', '2', '-', '2', ')'] =
        .ok (.operation .div [.var 'x', .operation .sub [.value 2, .value 2]]) := by
      rw [parse, parseRaw_of_run rfl]
      rfl
    have hreduce : reduce ['x', '/', '(', '2', '-', '2', ')'] =
        .error ⟨[⟨0, 7⟩], .divisionByZero⟩ := by
      rw [reduce, parse, parseRaw_of_run rfl]
      rfl
    obtain ⟨-, h⟩ := htexts _ _ hparse
    exact ((h env).2 _ hreduce).2

/-! ### Reducing again -/

/-- What the canonical form of a `Proper` expression evaluates to is its own canonical form, and
evaluates to itself. -/
theorem evaluate_canonicalize_again {e r : Expr} (h : e.Proper)
    (hr : e.canonicalize.evaluate = .ok r) : r.canonicalize = r ∧ r.evaluate = .ok r := by
  obtain ⟨hnormal, hfree⟩ :=
    h.canonicalize.normal_evaluate_and_everywhere e.subtractionFree_canonicalize hr
  exact ⟨hnormal.canonicalize_eq hfree, hnormal.evaluate_eq⟩

/-- `reduce` returns what the canonical form of what `parse` returns evaluates to. -/
theorem reduce_eq_ok_iff {text : List Char} {r : Expr} :
    reduce text = .ok r ↔ ∃ e, parse text = .ok e ∧ e.canonicalize.evaluate = .ok r := by
  unfold reduce
  rw [bind_eq_ok_iff]
  exact exists_congr fun e => and_congr_right fun _ => evaluateCanonical_eq_ok_iff

/-- `evaluate` leaves what it has returned as it is. So do `canonicalize` and `evaluate` with what a
canonical form evaluates to and with what `reduce` has returned. -/
theorem reduction_again :
    (∀ t e : Expr, t.Proper → t.evaluate = .ok e → e.evaluate = .ok e) ∧
    (∀ t e : Expr, t.Proper → t.canonicalize.evaluate = .ok e →
      e.canonicalize = e ∧ e.canonicalize.evaluate = .ok e) ∧
    (∀ text e, reduce text = .ok e →
      e.canonicalize = e ∧ e.evaluate = .ok e ∧ e.canonicalize.evaluate = .ok e) := by
  refine ⟨?_, ?_, ?_⟩
  · intro t e ht he
    exact (ht.normal_evaluate he).evaluate_eq
  · intro t e ht he
    obtain ⟨hcanonical, hevaluate⟩ := evaluate_canonicalize_again ht he
    exact ⟨hcanonical, by rw [hcanonical, hevaluate]⟩
  · intro text e h
    obtain ⟨t, ht, he⟩ := reduce_eq_ok_iff.1 h
    obtain ⟨hcanonical, hevaluate⟩ := evaluate_canonicalize_again (proper_of_parse_eq_ok ht) he
    exact ⟨hcanonical, hevaluate, by rw [hcanonical, hevaluate]⟩

/-- The subtraction that is left of `(x-2)-3` is evaluated to itself. So is what `8-x/2/3` reduces
to, `x / 6 * -1 + 8`, which is its own canonical form. -/
theorem reduction_again_of_quotient :
    (Expr.operation .sub [.var 'x', .value 5]).evaluate =
      .ok (.operation .sub [.var 'x', .value 5]) ∧
    Expr.canonicalize (.operation .add [.operation .mul
      [.operation .div [.var 'x', .value 6], .value (-1)], .value 8]) =
        .operation .add [.operation .mul
          [.operation .div [.var 'x', .value 6], .value (-1)], .value 8] := by
  obtain ⟨hevaluate, hcanonical, htext⟩ := reduction_again
  have hproper : (Expr.operation .sub [.operation .sub [.var 'x', .value 2], .value 3]).Proper := by
    simp [Expr.Proper]
  have hreduce : reduce ['8', '-', 'x', '/', '2', '/', '3'] = .ok (.operation .add
      [.operation .mul [.operation .div [.var 'x', .value 6], .value (-1)], .value 8]) := by
    rw [reduce, parse, parseRaw_of_run rfl]
    rfl
  exact ⟨hevaluate _ _ hproper rfl, (htext _ _ hreduce).1⟩

end Reckon
