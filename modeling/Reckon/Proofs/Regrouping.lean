import Reckon.Proofs.Acceptance
import Reckon.Proofs.Flattening

/-!
# Regrouping a chain

The raw tree of a chain nests every run to the right, and the left tree takes all operators from the
left. Flattening makes no difference between them (`Phrase.flatten_rawTree`), for two reasons:

* what an operation of two operands becomes depends only on what the operands become
  (`flatten_binary`);
* an associative operator may be regrouped (`flatten_regroup`), and no other one makes a run of more
  than two operands.

Both need that flattening an operand leaves it an operation with the same operator, which is so if
every operation has two operands or more (`Branching.flatten_operation`).
-/

namespace Reckon

namespace Expr

/-! ### Flattening operations of two operands -/

/-- What `flatten` makes of an operation on two operands that are flattened. -/
def merge (op : Op) (a b : Expr) : Expr :=
  .operation op (a.operandsUnder op ++ if op.isAssociative then b.operandsUnder op else [b])

/-- `flatten` of an operation on two operands is the `merge` of what it makes of these. -/
theorem flatten_binary {a b : Expr} (op : Op) (ha : a.Branching) (hb : b.Branching) :
    flatten (.operation op [a, b]) = merge op a.flatten b.flatten := by
  rw [(ha.binary op hb).flatten_operation, flatOperands_operation, merge]
  split
  · simp [ha.spliced_eq, hb.spliced_eq]
  · simp [ha.spliced_eq]

theorem merge_assoc {op : Op} (hop : op.isAssociative = true) (a b c : Expr) :
    merge op a (merge op b c) = merge op (merge op a b) c := by
  simp [merge, hop]

theorem flatten_binary_congr {a a' b b' : Expr} (op : Op) (ha : a.Branching) (ha' : a'.Branching)
    (hb : b.Branching) (hb' : b'.Branching) (haa' : a.flatten = a'.flatten)
    (hbb' : b.flatten = b'.flatten) :
    flatten (.operation op [a, b]) = flatten (.operation op [a', b']) := by
  rw [flatten_binary op ha hb, flatten_binary op ha' hb', haa', hbb']

/-- `flatten` does not see how the operands of an associative operator are grouped. -/
theorem flatten_regroup {a b c : Expr} {op : Op} (hop : op.isAssociative = true) (ha : a.Branching)
    (hb : b.Branching) (hc : c.Branching) :
    flatten (.operation op [a, .operation op [b, c]]) =
      flatten (.operation op [.operation op [a, b], c]) := by
  rw [flatten_binary op ha (hb.binary op hc), flatten_binary op hb hc,
    flatten_binary op (ha.binary op hb) hc, flatten_binary op ha hb, merge_assoc hop]

end Expr

namespace Row

open Reckon.Expr (Branching)

/-! ### Runs -/

/-- `flatten` does not see whether a run is grouped by `nestRight` or from the left. -/
theorem flatten_nestRight {first : Expr} {run : List (Op × Expr)} (hfirst : first.Branching)
    (hrun : ∀ x ∈ run, x.2.Branching)
    (hsame : run.IsChain fun x y => Chain.sameRun x.1 y.1 = true) :
    (nestRight first run).flatten = (run.foldl extend first).flatten := by
  induction run generalizing first with
  | nil => rfl
  | cons x run ih =>
    have hx : x.2.Branching := hrun x (by simp)
    have hrest : ∀ y ∈ run, y.2.Branching := fun y hy => hrun y (List.mem_cons_of_mem x hy)
    have hstep : (nestRight (extend first x) run).flatten =
        (run.foldl extend (extend first x)).flatten :=
      ih (hfirst.binary x.1 hx) hrest (List.isChain_of_isChain_cons hsame)
    rw [List.foldl_cons, ← hstep]
    match run with
    | [] => rfl
    | y :: run =>
      -- the two operators at the front belong to one run, so `first` and `x` may be put together
      obtain ⟨hsame, -⟩ := List.isChain_cons_cons.1 hsame
      obtain ⟨hop, heq⟩ : x.1.isAssociative = true ∧ x.1 = y.1 := by
        simpa [Chain.sameRun] using hsame
      have hnest : (nestRight y.2 run).Branching :=
        branching_nestRight (hrest y (by simp)) fun z hz => hrest z (List.mem_cons_of_mem y hz)
      show (Expr.operation x.1 [first, .operation y.1 [x.2, nestRight y.2 run]]).flatten =
        (Expr.operation y.1 [.operation x.1 [first, x.2], nestRight y.2 run]).flatten
      rw [← heq]
      exact Expr.flatten_regroup hop hfirst hx hnest

/-! ### Rows that flattening does not tell apart -/

/-- The operands of the rows become the same when they are flattened. -/
structure Alike (row row' : Row) : Prop where
  /-- The first operands become the same. -/
  first : row.first.flatten = row'.first.flatten
  /-- The later operands become the same, and so are the operators before them. -/
  later : List.Forall₂ (fun x y => x.1 = y.1 ∧ x.2.flatten = y.2.flatten) row.later row'.later

theorem flatten_foldl_extend {first first' : Expr} {later later' : List (Op × Expr)}
    (hfirst : first.Branching) (hfirst' : first'.Branching)
    (hlater : ∀ x ∈ later, x.2.Branching) (hlater' : ∀ x ∈ later', x.2.Branching)
    (heq : first.flatten = first'.flatten)
    (heqs : List.Forall₂ (fun x y => x.1 = y.1 ∧ x.2.flatten = y.2.flatten) later later') :
    (later.foldl extend first).flatten = (later'.foldl extend first').flatten := by
  induction heqs generalizing first first' with
  | nil => exact heq
  | @cons x y later later' hxy _ ih =>
    have hx : x.2.Branching := hlater x (by simp)
    have hy : y.2.Branching := hlater' y (by simp)
    have hstep : (extend first x).flatten = (extend first' y).flatten := by
      unfold extend
      rw [hxy.1]
      exact Expr.flatten_binary_congr y.1 hfirst hfirst' hx hy heq hxy.2
    exact ih (hfirst.binary x.1 hx) (hfirst'.binary y.1 hy)
      (fun z hz => hlater z (List.mem_cons_of_mem x hz))
      (fun z hz => hlater' z (List.mem_cons_of_mem y hz)) hstep

/-- `flatten` does not see whether runs are grouped by `nestRight`, one after the other, or all from
the left. -/
theorem flatten_foldl_nestRight {runs : List (List (Op × Expr))} {first first' : Expr}
    (hruns : ∀ run ∈ runs, run.IsChain fun x y => Chain.sameRun x.1 y.1 = true)
    (hfirst : first.Branching) (hfirst' : first'.Branching)
    (hlater : ∀ x ∈ runs.flatten, x.2.Branching) (heq : first.flatten = first'.flatten) :
    (runs.foldl nestRight first).flatten = (runs.flatten.foldl extend first').flatten := by
  induction runs generalizing first first' with
  | nil => exact heq
  | cons run runs ih =>
    rw [List.flatten_cons] at hlater
    have hrun : ∀ x ∈ run, x.2.Branching := fun x hx => hlater x (List.mem_append_left _ hx)
    -- the run on its own, then behind what was grouped before it
    have hstep : (nestRight first run).flatten = (run.foldl extend first').flatten := by
      rw [flatten_nestRight hfirst hrun (hruns run (by simp))]
      refine flatten_foldl_extend hfirst hfirst' hrun hrun heq ?_
      exact List.forall₂_same.2 fun x _ => ⟨rfl, rfl⟩
    have hnest : (nestRight first run).Branching := branching_nestRight hfirst hrun
    have hfold : (run.foldl extend first').Branching := branching_foldl_extend hfirst' hrun
    rw [List.foldl_cons, List.flatten_cons, List.foldl_append]
    exact ih (fun r hr => hruns r (List.mem_cons_of_mem run hr)) hnest hfold
      (fun x hx => hlater x (List.mem_append_right _ hx)) hstep

/-- `flatten` does not see the difference between the two ways to group a row. -/
theorem flatten_rawTree {row : Row} (h : ∀ e ∈ row.operands, e.Branching) :
    row.rawTree.flatten = row.leftTree.flatten := by
  have hfirst : row.first.Branching := h row.first row.first_mem_operands
  have hlater : ∀ x ∈ row.later, x.2.Branching := fun x hx => h x.2 (mem_operands_of_mem_later hx)
  have hflatten : row.runs.flatten = row.later := List.flatten_splitBy _ _
  have hgroup := @flatten_foldl_nestRight row.runs row.first row.first
    (fun run hrun => List.isChain_of_mem_splitBy hrun) hfirst hfirst (by rwa [hflatten]) rfl
  rw [hflatten] at hgroup
  exact hgroup

theorem Alike.flatten_leftTree {row row' : Row} (h : row.Alike row')
    (hrow : ∀ e ∈ row.operands, e.Branching) (hrow' : ∀ e ∈ row'.operands, e.Branching) :
    row.leftTree.flatten = row'.leftTree.flatten :=
  flatten_foldl_extend (hrow _ row.first_mem_operands) (hrow' _ row'.first_mem_operands)
    (fun x hx => hrow x.2 (mem_operands_of_mem_later hx))
    (fun x hx => hrow' x.2 (mem_operands_of_mem_later hx)) h.first h.later

end Row

namespace Phrase

open Reckon.Expr (Branching)

/-! ### Phrases -/

theorem flatten_rawTree_of_alike {level : Option Tier} {p : Phrase level}
    (h : (p.row Row.rawTree).Alike (p.row Row.leftTree)) :
    p.rawTree.flatten = p.leftTree.flatten := by
  have hraw : ∀ e ∈ (p.row Row.rawTree).operands, e.Branching :=
    p.branching_row fun _ => Row.branching_rawTree
  have hleft : ∀ e ∈ (p.row Row.leftTree).operands, e.Branching :=
    p.branching_row fun _ => Row.branching_leftTree
  have hregroup : p.rawTree.flatten = (p.row Row.rawTree).leftTree.flatten :=
    Row.flatten_rawTree hraw
  rw [hregroup]
  exact h.flatten_leftTree hraw hleft

/-- The rows with the `rawTree` and with the `leftTree` of every operand are `Alike`. -/
theorem alike_row {level : Option Tier} (p : Phrase level) :
    (p.row Row.rawTree).Alike (p.row Row.leftTree) := by
  induction p with
  | number first more h => exact ⟨rfl, .nil⟩
  | letter name h => exact ⟨rfl, .nil⟩
  | parentheses inner ih => exact ⟨flatten_rawTree_of_alike ih, .nil⟩
  | only operand ih => exact ⟨flatten_rawTree_of_alike ih, .nil⟩
  | link operand op h rest ih ihrest =>
    exact ⟨flatten_rawTree_of_alike ih, .cons ⟨rfl, ihrest.first⟩ ihrest.later⟩

/-- `flatten` does not see the difference between the `rawTree` and the `leftTree` of a phrase. -/
theorem flatten_rawTree {level : Option Tier} (p : Phrase level) :
    p.rawTree.flatten = p.leftTree.flatten :=
  flatten_rawTree_of_alike p.alike_row

end Phrase

/-! ### Reading from the left -/

/-- A text that `parse` accepts is spelled by a phrase. For every phrase that `Spells` it,
`parseRaw` builds the `rawTree`, and `parse` returns the `leftTree`, flattened. -/
theorem parse_eq_flatten_leftTree {text : List Char} {e : Expr} (h : parse text = .ok e) :
    (∃ p : Phrase (some .expression), p.Spells text) ∧
      ∀ p : Phrase (some .expression), p.Spells text →
        parseRaw {} text = .ok p.rawTree ∧ e = p.leftTree.flatten := by
  obtain ⟨raw, hraw, rfl⟩ := parse_eq_ok_iff.1 h
  obtain ⟨q, hq, hqraw, -⟩ := parseRaw_eq_ok_iff_phrase.1 hraw
  refine ⟨⟨q, hq⟩, ?_⟩
  intro p hp
  have hunique : p.rawTree = raw := RawTree.unique ⟨p, hp, rfl⟩ ⟨q, hq, hqraw⟩
  rw [← p.flatten_rawTree, hunique]
  exact ⟨hraw, rfl⟩

/-- The phrase of `a-b+c+d`. -/
def mixedChain : Phrase (some .expression) :=
  @Phrase.link .expression (.ofTerm (.letter 'a' rfl) (some .product)) .sub rfl <|
    @Phrase.link .expression (.ofTerm (.letter 'b' rfl) (some .product)) .add rfl <|
      @Phrase.link .expression (.ofTerm (.letter 'c' rfl) (some .product)) .add rfl <|
        .ofTerm (.letter 'd' rfl) (some .expression)

/-- The two trees of `a-b+c+d` differ, and what is read is the left one, flattened. -/
theorem parse_mixedChain :
    mixedChain.rawTree ≠ mixedChain.leftTree ∧
      parseRaw {} ['a', '-', 'b', '+', 'c', '+', 'd'] = .ok mixedChain.rawTree ∧
        .operation .add [.operation .sub [.var 'a', .var 'b'], .var 'c', .var 'd'] =
          mixedChain.leftTree.flatten := by
  have hparse : parse ['a', '-', 'b', '+', 'c', '+', 'd'] =
      .ok (.operation .add [.operation .sub [.var 'a', .var 'b'], .var 'c', .var 'd']) := by
    rw [parse, parseRaw_of_run rfl]
    rfl
  obtain ⟨-, h⟩ := parse_eq_flatten_leftTree hparse
  exact ⟨by decide, h mixedChain rfl⟩

end Reckon
