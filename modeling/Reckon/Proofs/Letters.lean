import Reckon.Proofs.Reduction
import Reckon.Proofs.Variables

/-!
# The letters of a text

The letters of a text that is an expression are the variables of its raw tree, in the same order
(`Phrase.names_rawTree`), since a chain is grouped without changing the order of its operands. What
comes after the reading keeps the variables as they are, so they are also those of the result
(`names_preserved`).
-/

namespace Reckon

open Reckon.Expr (names)

/-! ### Rows -/

namespace Row

theorem names_nestRight (first : Expr) (later : List (Op × Expr)) :
    (nestRight first later).names = first.names ++ (later.map Prod.snd).flatMap names := by
  induction later generalizing first with
  | nil => simp [nestRight]
  | cons x later ih =>
    rw [nestRight, Expr.names_operation, List.flatMap_cons, List.flatMap_cons, ih x.2]
    simp

/-- Grouping operands keeps the order of their variables. -/
theorem names_rawTree (row : Row) : row.rawTree.names = row.operands.flatMap names := by
  have hfold : ∀ (runs : List (List (Op × Expr))) (first : Expr),
      (runs.foldl nestRight first).names =
        first.names ++ (runs.flatten.map Prod.snd).flatMap names := by
    intro runs
    induction runs with
    | nil => simp
    | cons run runs ih =>
      intro first
      rw [List.foldl_cons, ih, names_nestRight, List.flatten_cons, List.map_append,
        List.flatMap_append, List.append_assoc]
  rw [rawTree, hfold, runs, List.flatten_splitBy, operands, List.flatMap_cons]

end Row

/-! ### Phrases -/

theorem isAlpha_eq_false_of_isDigit {c : Char} (h : c.isDigit = true) : c.isAlpha = false := by
  by_contra hc
  rw [Bool.not_eq_false] at hc
  rw [Token.Kind.isDigit_eq_false_of_isAlpha hc] at h
  contradiction

theorem filter_isAlpha_sign (tier : Tier) (op : Op) :
    ((tier.sign op).flatMap Lexeme.chars).filter Char.isAlpha = [] := by
  cases tier with
  | group => rfl
  | product | expression => cases op <;> rfl

namespace Phrase

/-- The letters of a phrase are the `names` of the operands of its row, if `build` keeps the order
of variables. -/
theorem flatMap_names_row {build : Row → Expr}
    (hbuild : ∀ row, (build row).names = row.operands.flatMap names) {level : Option Tier}
    (p : Phrase level) : (p.row build).operands.flatMap names = p.chars.filter Char.isAlpha := by
  have hsingle : ∀ e, (Row.single e).operands.flatMap names = e.names := by
    intro e
    simp [Row.single, Row.operands]
  induction p with
  | number first more h =>
    have hdigits : (first :: more).filter Char.isAlpha = [] := by
      rw [List.filter_eq_nil_iff]
      intro c hc
      simp [isAlpha_eq_false_of_isDigit (h c hc)]
    rw [chars_number, hdigits, row, hsingle, Expr.names_value]
  | letter name h =>
    rw [chars_letter, row, hsingle, Expr.names_var, List.filter_cons_of_pos h, List.filter_nil]
  | parentheses inner ih =>
    have hparentheses : ('(' :: (inner.chars ++ [')'])).filter Char.isAlpha =
        inner.chars.filter Char.isAlpha := by
      rw [List.filter_cons_of_neg (by decide), List.filter_append,
        List.filter_cons_of_neg (by decide), List.filter_nil, List.append_nil]
    rw [chars_parentheses, hparentheses, row, hsingle, hbuild, ih]
  | only operand ih => rw [chars_only, row, hsingle, hbuild, ih]
  | link operand op h rest ih ihrest =>
    have hrow : ((link operand op h rest).row build).operands =
        build (operand.row build) :: (rest.row build).operands := rfl
    rw [chars_link, List.filter_append, List.filter_append, filter_isAlpha_sign, List.nil_append,
      hrow, List.flatMap_cons, hbuild, ih, ihrest]

/-- The variables of the raw tree are the letters of the text. -/
theorem names_rawTree {level : Option Tier} (p : Phrase level) :
    p.rawTree.names = p.chars.filter Char.isAlpha := by
  rw [rawTree, Row.names_rawTree, p.flatMap_names_row Row.names_rawTree]

end Phrase

/-! ### Texts -/

/-- `names` of what `parse` returns are the letters of the text. -/
theorem names_of_parse_eq_ok {text : List Char} {e : Expr} (h : parse text = .ok e) :
    e.names = text.filter Char.isAlpha := by
  obtain ⟨raw, hraw, rfl⟩ := parse_eq_ok_iff.1 h
  obtain ⟨p, hp, rfl, -⟩ := parseRaw_eq_ok_iff_phrase.1 hraw
  rw [Expr.names_flatten, p.names_rawTree, hp.chars_eq]

/-- `flatten`, `eliminateSubtraction`, `canonicalize` and `evaluate` neither lose a variable nor
repeat one, and keep their order. So `names` of what `reduce` returns are the letters of the text,
in the order in which they are written. -/
theorem names_preserved :
    (∀ e : Expr, e.flatten.names = e.names ∧ e.eliminateSubtraction.names = e.names ∧
      e.canonicalize.names = e.names ∧ ∀ r, e.evaluate = .ok r → r.names = e.names) ∧
    (∀ text r, reduce text = .ok r → r.names = text.filter Char.isAlpha) := by
  constructor
  · intro e
    exact ⟨e.names_flatten, e.names_eliminateSubtraction, e.names_canonicalize, fun r =>
      Expr.names_of_evaluate_eq_ok⟩
  · intro text r h
    obtain ⟨e, he, hr⟩ := reduce_eq_ok_iff.1 h
    rw [Expr.names_of_evaluate_eq_ok hr, e.names_canonicalize, names_of_parse_eq_ok he]

/-- Integers move past variables when `2-y(3/x)+5` is reduced, and those of `(x-1)-2-y` are combined
where they stand, but the variables keep their order. -/
theorem names_preserved_of_difference :
    (Expr.operation .add [.operation .mul [.var 'y', .operation .div [.value 3, .var 'x'],
      .value (-1)], .value 7]).names =
        ['2', '-', 'y', '(', '3', '/', 'x', ')', '+', '5'].filter Char.isAlpha ∧
    (Expr.operation .sub [.var 'x', .value 3, .var 'y']).names =
      (Expr.operation .sub [.operation .sub [.var 'x', .value 1], .value 2, .var 'y']).names := by
  obtain ⟨hexpr, htext⟩ := names_preserved
  have hreduce : reduce ['2', '-', 'y', '(', '3', '/', 'x', ')', '+', '5'] =
      .ok (.operation .add [.operation .mul [.var 'y', .operation .div [.value 3, .var 'x'],
        .value (-1)], .value 7]) := by
    rw [reduce, parse, parseRaw_of_run rfl]
    rfl
  exact ⟨htext _ _ hreduce, (hexpr _).2.2.2 _ rfl⟩

end Reckon
