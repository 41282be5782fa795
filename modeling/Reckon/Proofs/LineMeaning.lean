import Reckon.Proofs.Meaning
import Reckon.Proofs.RoundTrip

/-!
# The meaning of a line

A line leaves out the parentheses around a later operand that has the same associative operator as
the operation around it, and around every first operand that binds as tightly. If the expression is
not flat, what is read from its line is therefore grouped differently: `a + ((b - c) + d)` is
written as `a + b - c + d`.

It means the same all the same. The operand without parentheses is a chain, whose operators are of
the same tier as the operator in front of it; since that is associative, it may as well be applied
before all of them (`Phrase.meaning_leftTree_concat`). So for every proper expression there is a
phrase along its line with its meaning (`Expr.Proper.written`).
-/

namespace Reckon

open Reckon.Expr (meaning)

/-! ### Operators of one tier -/

namespace Op

/-- `op.apply` with an associative operator may as well come after an operator of its tier that
follows it. -/
theorem apply_apply_of_tier_eq {op op' : Op} (hop : op.isAssociative = true)
    (htier : op'.tier = op.tier) (x y z : Option ℚ) :
    op'.apply (op.apply x y) z = op.apply x (op'.apply y z) := by
  by_cases hsame : op' = op
  · rw [hsame, apply_assoc hop]
  rcases x with _ | a
  · simp
  rcases y with _ | b
  · simp
  rcases z with _ | c
  · simp
  cases op with
  | add =>
    cases op' with
    | sub => simp [apply, add_sub_assoc]
    | add | mul | div => contradiction
  | mul =>
    cases op' with
    | div =>
      by_cases hc : c = 0
      · simp [apply, hc]
      · simp [apply, hc, mul_div_assoc]
    | add | sub | mul => contradiction
  | sub | div => simp [isAssociative] at hop

/-- `applyAll` applies the operator to the last operand at last. -/
theorem applyAll_concat (op : Op) {xs : List (Option ℚ)} (hne : xs ≠ []) (y : Option ℚ) :
    op.applyAll (xs ++ [y]) = op.apply (op.applyAll xs) y := by
  rw [← applyAll_leading op hne]
  rfl

end Op

/-! ### Chains -/

section Chains

variable (env : Char → ℚ)

/-- The `meaning` of a row grouped from the left depends only on those of its operands. -/
theorem Row.meaning_foldl_extend (first : Expr) (later : List (Op × Expr)) :
    meaning env (later.foldl extend first) =
      later.foldl (fun v x => x.1.apply v (meaning env x.2)) (meaning env first) := by
  induction later generalizing first with
  | nil => rfl
  | cons x later ih =>
    rw [List.foldl_cons, List.foldl_cons, ih, extend, Expr.meaning_operation]
    rfl

/-- An associative operator in front of a row of its tier may as well be applied last. -/
theorem foldl_apply_of_tier_eq {op : Op} (hop : op.isAssociative = true)
    {later : List (Op × Expr)} (hlater : ∀ x ∈ later, x.1.tier = op.tier) (u v : Option ℚ) :
    later.foldl (fun v x => x.1.apply v (meaning env x.2)) (op.apply u v) =
      op.apply u (later.foldl (fun v x => x.1.apply v (meaning env x.2)) v) := by
  induction later generalizing v with
  | nil => rfl
  | cons x later ih =>
    rw [List.foldl_cons, List.foldl_cons, Op.apply_apply_of_tier_eq hop (hlater x (by simp)),
      ih fun y hy => hlater y (List.mem_cons_of_mem x hy)]

namespace Phrase

/-- The row of a chain has only operators that the tier `joins`. -/
theorem joins_of_mem_later_row (build : Row → Expr) {tier : Tier} (p : Phrase (some tier)) :
    ∀ x ∈ (p.row build).later, tier.joins x.1 = true := by
  match p with
  | only operand =>
    intro x hx
    contradiction
  | link operand op h rest =>
    intro x hx
    rcases List.mem_cons.1 hx with rfl | hx
    · exact h
    · exact joins_of_mem_later_row build rest x hx

/-- Where an associative operator joins two chains by `concat`, the `meaning` of the `leftTree` is
what the operator makes of those of the two. -/
theorem meaning_leftTree_concat {op : Op} (hop : op.isAssociative = true)
    (p q : Phrase (some op.tier)) :
    meaning env (p.concat op op.joins_tier q).leftTree =
      op.apply (meaning env p.leftTree) (meaning env q.leftTree) := by
  have hgroup : op.tier ≠ .group := by cases op <;> decide
  have hlater : ∀ x ∈ (q.row Row.leftTree).later, x.1.tier = op.tier := fun x hx =>
    (Tier.eq_tier_of_joins (q.joins_of_mem_later_row Row.leftTree x hx) hgroup).symm
  rw [leftTree_concat, Row.meaning_foldl_extend]
  show (q.row Row.leftTree).later.foldl (fun v x => x.1.apply v (meaning env x.2))
      (op.apply (meaning env p.leftTree) (meaning env (q.row Row.leftTree).first)) = _
  rw [foldl_apply_of_tier_eq env hop hlater, ← Row.meaning_foldl_extend]
  rfl

end Phrase

end Chains

/-! ### Lines -/

namespace Expr

/-- The expressions have the same `meaning`, whatever the values of the variables. -/
def SameMeaning (a b : Expr) : Prop :=
  ∀ env, meaning env a = meaning env b

theorem SameMeaning.refl (e : Expr) : SameMeaning e e := fun _ => rfl

/-- The `meaning` of an operation with one more operand. -/
theorem meaning_operation_concat (env : Char → ℚ) (op : Op) (e : Expr) (es : List Expr) (x : Expr) :
    meaning env (.operation op (e :: (es ++ [x]))) =
      op.apply (meaning env (.operation op (e :: es))) (meaning env x) := by
  rw [meaning_operation, meaning_operation, ← List.cons_append, List.map_append,
    List.map_singleton, Op.applyAll_concat op (by simp)]

/-- A later operand is `Written` as an operand of the chain, with parentheses where it needs them,
unless it has the same associative operator. Then it is `Written` as a chain. -/
theorem Written.bracketedLater {text : List Char} {op : Op} {e : Expr} {P : Expr → Prop}
    (h : ∀ level, e.FitsIn level → Written text level P) :
    Written (Expr.bracket (e.bracketedLater op) text) op.tier.operand P ∨
      op.isAssociative = true ∧
        Written (Expr.bracket (e.bracketedLater op) text) (some op.tier) P := by
  by_cases hmerge : op.isAssociative = true ∧ e.isOperation op = true
  · obtain ⟨hop, hsame⟩ := hmerge
    obtain ⟨operands, rfl⟩ := isOperation_iff.1 hsame
    exact Or.inr ⟨hop, Written.bracket_of_fitsIn h fun _ => Or.inl rfl⟩
  · refine Or.inl (Written.bracket_of_fitsIn h fun hbare => ?_)
    exact fitsIn_of_bracketedLater hbare fun hop => by simpa [hop] using hmerge

/-- A chain that means the first operand, and goes on with operators and later operands, is
`Written` for the operation. -/
theorem Written.operation {op : Op} {text : List Char} {e : Expr} {es : List Expr}
    {write : Expr → List Char} {read : Expr → Expr}
    (h : Written text (some op.tier) fun t => SameMeaning t e)
    (hes : ∀ x ∈ es, Written (write x) op.tier.operand (fun t => SameMeaning t (read x)) ∨
      op.isAssociative = true ∧
        Written (write x) (some op.tier) fun t => SameMeaning t (read x)) :
    Written (text ++ es.flatMap fun x => op.symbol :: write x) (some op.tier) fun t =>
      SameMeaning t (.operation op (e :: es.map read)) := by
  induction es using List.reverseRecOn with
  | nil =>
    obtain ⟨p, hp, hmeaning⟩ := h
    refine ⟨p, by simpa using hp, ?_⟩
    intro env
    rw [hmeaning env, List.map_nil, meaning_operation, List.map_singleton, Op.applyAll_singleton]
  | append_singleton es x ih =>
    -- the last operand is the one that the operator is applied to last
    have hchain := ih fun y hy => hes y (List.mem_append_left [x] hy)
    rw [List.flatMap_append, List.flatMap_singleton, List.map_append, List.map_singleton,
      ← List.append_assoc]
    rcases hes x (by simp) with hx | ⟨hop, hx⟩
    · refine hchain.snoc hx ?_
      intro a b _ _ ha hb env
      rw [meaning_operation_concat, ← ha env, ← hb env]
      rfl
    · refine hchain.concat hx ?_
      intro p q hp hq env
      rw [meaning_operation_concat, ← hp env, ← hq env, Phrase.meaning_leftTree_concat env hop]

/-- `codedLine` of a `Proper` expression is `Written` for an expression with the meaning of
`e.encode code`. -/
theorem Proper.written_codedLine {e : Expr} (hproper : e.Proper) (code : Int → Nat)
    (hvars : ∀ name, .var name ∈ e.postOrder → name.isAlpha = true) {level : Option Tier}
    (hlevel : e.FitsIn level) :
    Written (e.codedLine code) level fun t => SameMeaning t (e.encode code) := by
  refine Everywhere.written_codedLine ?_ ?_ ?_ ?_ hproper hvars hlevel
  · intro op operands hne
    exact hne
  · intro n
    exact .refl _
  · intro name
    exact .refl _
  · intro op e es text _ hfirst hwritten
    exact hfirst.operation fun x hx => Written.bracketedLater (hwritten x hx)

/-- `bareLine` of a `Proper` expression is `Written` on every level that the expression fits in, for
an expression with its meaning. -/
theorem Proper.written {e : Expr} (hproper : e.Proper) (hleaves : e.Writable)
    {level : Option Tier} (hlevel : e.FitsIn level) :
    Written e.bareLine level fun t => SameMeaning t e := by
  have hcoded := hproper.written_codedLine Int.toNat hleaves.var hlevel
  rwa [hleaves.codedLine_toNat, encode_toNat hleaves.value] at hcoded

end Expr

/-- The `line` of a `Proper` expression, without its spaces, is a sentence of the grammar, and what
`parseRaw` reads from it has the `meaning` of the expression, if the limits leave room for its
parentheses and operators. -/
theorem parseRaw_bareLine_meaning {e : Expr} (hproper : e.Proper)
    (hvalues : ∀ n, .value n ∈ e.postOrder → 0 ≤ n)
    (hvars : ∀ name, .var name ∈ e.postOrder → name.isAlpha = true) :
    Derives .expression (e.line.filter (· ≠ ' ')) ∧
    ∃ r, (∀ env, meaning env r = meaning env e) ∧
      ∀ depth height, e.line.count '(' ≤ depth → e.line.countP isOperator ≤ height →
        parseRaw ⟨depth, height⟩ (e.line.filter (· ≠ ' ')) = .ok r := by
  obtain ⟨p, hp, hpmeaning⟩ := hproper.written ⟨hvalues, hvars⟩ e.fitsIn_expression
  refine ⟨Phrase.derives_expression_iff.2 ⟨p, hp.spells⟩, p.rawTree, ?_, ?_⟩
  · -- flattening makes no difference between the raw tree and the left tree
    intro env
    rw [← Expr.meaning_flatten env p.branching_rawTree.proper, p.flatten_rawTree,
      Expr.meaning_flatten env p.branching_leftTree.proper, hpmeaning env]
  · intro depth height hdepth hheight
    rw [← Expr.count_openParen_bareLine] at hdepth
    rw [← Expr.countP_isOperator_bareLine] at hheight
    exact hp.parseRaw_eq_ok hdepth hheight

/-- The expression `a + ((b - c) + d)`. -/
def differenceInSum : Expr :=
  .operation .add [.var 'a', .operation .add [.operation .sub [.var 'b', .var 'c'], .var 'd']]

/-- The line of `a + ((b - c) + d)` has no parentheses. -/
theorem parseRaw_differenceInSum :
    Derives .expression ['a', '+', 'b', '-', 'c', '+', 'd'] ∧
      ∃ r, (∀ env, meaning env r = meaning env differenceInSum) ∧
        parseRaw ⟨0, 3⟩ ['a', '+', 'b', '-', 'c', '+', 'd'] = .ok r := by
  have hproper : differenceInSum.Proper := by
    simp [differenceInSum, Expr.Proper]
  have hvalues : ∀ n, .value n ∈ differenceInSum.postOrder → 0 ≤ n := by
    simp [differenceInSum, Expr.postOrder, Expr.postOrderEach]
  have hvars : ∀ name, .var name ∈ differenceInSum.postOrder → name.isAlpha = true := by
    simp [differenceInSum, Expr.postOrder, Expr.postOrderEach]
  obtain ⟨hderives, r, hmeaning, hread⟩ := parseRaw_bareLine_meaning hproper hvalues hvars
  exact ⟨hderives, r, hmeaning, hread 0 3 (by decide) (by decide)⟩

end Reckon
