import Mathlib.Logic.Equiv.Nat
import Reckon.Proofs.Letters
import Reckon.Proofs.RoundTrip

/-!
# No two expressions on one line

Flat expressions with the same line are the same (`Flat.eq_of_line_eq`). For expressions without
negative integers that follows from reading the line back. A sign cannot be read, but it need not
be: the line determines its pieces, and so also the text in which every integer is replaced by a
natural number, a different one for each. That text is read back.

What a text reduces to is flat and has no variables but letters, so the line tells what the result
was.
-/

namespace Reckon

namespace Expr

/-! ### Codes of expressions -/

/-- Lists with the same images are the same if the images tell the entries of one of them from any
others. -/
theorem eq_of_map_eq_map {α β : Type} {f : α → β} {as bs : List α}
    (hf : ∀ a ∈ as, ∀ b, f a = f b → a = b) (h : as.map f = bs.map f) : as = bs := by
  induction as generalizing bs with
  | nil => exact (List.map_eq_nil_iff.1 h.symm).symm
  | cons a as ih =>
    obtain ⟨b, bs, rfl, hb, hbs⟩ := List.map_eq_cons_iff.1 h.symm
    rw [hf a (by simp) b hb.symm, ih (fun a ha => hf a (List.mem_cons_of_mem _ ha)) hbs.symm]

/-- `encode` keeps expressions apart if the `code` keeps integers apart. -/
theorem encode_injective {code : Int → Nat} (hcode : Function.Injective code) :
    Function.Injective (encode code) := by
  intro a b h
  induction a generalizing b with
  | value m =>
    cases b with
    | value n =>
      have hmn : code m = code n := by simpa using h
      rw [hcode hmn]
    | var | operation => simp at h
  | var name =>
    cases b with
    | var name' => simpa using h
    | value | operation => simp at h
  | operation op as ih =>
    cases b with
    | value | var => simp at h
    | operation op' bs =>
      obtain ⟨rfl, hmap⟩ : op = op' ∧ as.map (encode code) = bs.map (encode code) := by
        simpa using h
      rw [eq_of_map_eq_map (fun a ha b => @ih a ha b) hmap]

/-! ### Lines -/

section Lines

variable {a b : Expr} (ha : a.Flat) (hb : b.Flat)
  (hanames : ∀ name, .var name ∈ a.postOrder → name.isAlpha = true)
  (hbnames : ∀ name, .var name ∈ b.postOrder → name.isAlpha = true)

include ha hb hanames hbnames

/-- `codedLine` keeps `Flat` expressions apart, up to the `code` of their integers. -/
theorem Flat.encode_eq_of_codedLine_eq {code : Int → Nat}
    (h : a.codedLine code = b.codedLine code) : a.encode code = b.encode code := by
  obtain ⟨p, ⟨hp, -, -⟩, hptree⟩ := ha.written_codedLine code hanames a.fitsIn_expression
  obtain ⟨q, ⟨hq, -, -⟩, hqtree⟩ := hb.written_codedLine code hbnames b.fitsIn_expression
  rw [h] at hp
  have htree : p.rawTree = q.rawTree := RawTree.unique ⟨p, hp, rfl⟩ ⟨q, hq, rfl⟩
  rw [← hptree, ← hqtree, ← p.flatten_rawTree, ← q.flatten_rawTree, htree]

/-- `line` keeps `Flat` expressions apart, negative integers included. -/
theorem Flat.eq_of_line_eq (h : a.line = b.line) : a = b := by
  -- the same pieces are the same text also where integers stand for natural numbers
  have hcoded : a.codedLine Equiv.intEquivNat = b.codedLine Equiv.intEquivNat := by
    rw [codedLine, codedLine, pieces_eq_of_line_eq hanames hbnames h]
  exact encode_injective Equiv.intEquivNat.injective
    (ha.encode_eq_of_codedLine_eq hb hanames hbnames hcoded)

end Lines

theorem toString_eq_iff {a b : Expr} : toString a = toString b ↔ a.line = b.line :=
  ⟨fun h => String.ofList_injective h, fun h => congrArg String.ofList h⟩

end Expr

/-! ### Results -/

/-- What `reduce` returns is `Flat`. -/
theorem flat_of_reduce_eq_ok {text : List Char} {r : Expr} (h : reduce text = .ok r) : r.Flat := by
  obtain ⟨e, he, hr⟩ := reduce_eq_ok_iff.1 h
  exact ((proper_of_parse_eq_ok he).canonicalize.normal_evaluate hr).flat

/-- The variables of what `reduce` returns are letters. -/
theorem isAlpha_of_reduce_eq_ok {text : List Char} {r : Expr} (h : reduce text = .ok r)
    {name : Char} (hname : .var name ∈ r.postOrder) : name.isAlpha = true := by
  obtain ⟨e, he, hr⟩ := reduce_eq_ok_iff.1 h
  rw [← Expr.mem_names_iff, Expr.names_of_evaluate_eq_ok hr, e.names_canonicalize,
    names_of_parse_eq_ok he] at hname
  exact (List.mem_filter.1 hname).2

/-- `toString` keeps `Flat` expressions apart. What `reduce` returns is `Flat` and has letters for
variables, so that different results are displayed differently. -/
theorem display_unambiguous :
    (∀ a b : Expr, a.Flat → b.Flat →
      (∀ name, .var name ∈ a.postOrder → name.isAlpha = true) →
      (∀ name, .var name ∈ b.postOrder → name.isAlpha = true) →
      (toString a = toString b ↔ a = b)) ∧
    (∀ text r, reduce text = .ok r →
      r.Flat ∧ ∀ name, .var name ∈ r.postOrder → name.isAlpha = true) ∧
    (∀ text text' r r', reduce text = .ok r → reduce text' = .ok r' →
      (toString r = toString r' ↔ r = r')) := by
  have hflat : ∀ a b : Expr, a.Flat → b.Flat →
      (∀ name, .var name ∈ a.postOrder → name.isAlpha = true) →
      (∀ name, .var name ∈ b.postOrder → name.isAlpha = true) →
      (toString a = toString b ↔ a = b) := by
    intro a b ha hb hanames hbnames
    refine ⟨fun h => ?_, congrArg toString⟩
    exact ha.eq_of_line_eq hb hanames hbnames (Expr.toString_eq_iff.1 h)
  refine ⟨hflat, ?_, ?_⟩
  · intro text r h
    exact ⟨flat_of_reduce_eq_ok h, fun _ => isAlpha_of_reduce_eq_ok h⟩
  · intro text text' r r' h h'
    exact hflat r r' (flat_of_reduce_eq_ok h) (flat_of_reduce_eq_ok h')
      (fun _ => isAlpha_of_reduce_eq_ok h) fun _ => isAlpha_of_reduce_eq_ok h'

/-- `-1 - (-1) - x` is not displayed as `-1 - (-1 + x)`, nor what `1-x` reduces to as what `x-1`
does. -/
theorem display_unambiguous_of_negatives :
    toString (Expr.operation .sub [.value (-1), .value (-1), .var 'x']) ≠
      toString (Expr.operation .sub [.value (-1), .operation .add [.value (-1), .var 'x']]) ∧
    toString (Expr.operation .add [.operation .mul [.var 'x', .value (-1)], .value 1]) ≠
      toString (Expr.operation .add [.var 'x', .value (-1)]) := by
  obtain ⟨hflat, -, hresults⟩ := display_unambiguous
  constructor
  · intro h
    have ha : (Expr.operation .sub [.value (-1), .value (-1), .var 'x']).Flat := by
      simp [Expr.Flat, Expr.mergeable, Expr.isOperation, Op.isAssociative]
    have hb : (Expr.operation .sub
        [.value (-1), .operation .add [.value (-1), .var 'x']]).Flat := by
      simp [Expr.Flat, Expr.mergeable, Expr.isOperation, Op.isAssociative]
    have heq := (hflat _ _ ha hb (by simp [Expr.postOrder, Expr.postOrderEach])
      (by simp [Expr.postOrder, Expr.postOrderEach])).1 h
    simp at heq
  · intro h
    have hdifference : reduce ['1', '-', 'x'] =
        .ok (.operation .add [.operation .mul [.var 'x', .value (-1)], .value 1]) := by
      rw [reduce, parse, parseRaw_of_run rfl]
      rfl
    have hpredecessor : reduce ['x', '-', '1'] =
        .ok (.operation .add [.var 'x', .value (-1)]) := by
      rw [reduce, parse, parseRaw_of_run rfl]
      rfl
    have heq := (hresults _ _ _ _ hdifference hpredecessor).1 h
    simp at heq

end Reckon
