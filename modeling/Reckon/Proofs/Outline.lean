import Reckon.Expr.Outline
import Reckon.Proofs.Pieces
import Reckon.Proofs.Shape

/-!
# Reading an outline

An outline has no parentheses, and yet no two expressions share one (`outline_eq_iff`). The
indentation tells where an expression ends:

* a leaf is a single row, as far indented as there are operations around it;
* every row of an operation is indented at least that far, and the rows that are indented no further
  are those that hold its operator, one between any two operands.

So whatever follows an expression is less indented than the expression (`Shallow`), and with that
the outlines of two expressions can be compared from the front (`outlineAt_append_inj`). An
operation on a single operand leaves no row of its own, which is why there have to be two or more.
-/

namespace Reckon.Expr

/-- The number of spaces that a text begins with. -/
def indentation (text : List Char) : Nat :=
  (text.takeWhile (· = ' ')).length

/-- `text` is empty, or has an `indentation` of less than `depth`. -/
def Shallow (depth : Nat) (text : List Char) : Prop :=
  text ≠ [] → indentation text < depth

theorem shallow_nil (depth : Nat) : Shallow depth [] := fun h => absurd rfl h

theorem Shallow.succ {depth : Nat} {text : List Char} (h : Shallow depth text) :
    Shallow (depth + 1) text := fun hne => Nat.lt_succ_of_lt (h hne)

/-! ### Rows -/

theorem row_append (depth : Nat) (text rest : List Char) :
    row depth text ++ rest = List.replicate depth ' ' ++ (text ++ '\n' :: rest) := by
  simp [row]

theorem row_append_ne_nil (depth : Nat) (text rest : List Char) : row depth text ++ rest ≠ [] := by
  simp [row]

/-- `row depth text` has the `indentation` `depth`, unless `text` begins with a space itself. -/
theorem indentation_row_append (depth : Nat) {c : Char} (hc : c ≠ ' ') (text rest : List Char) :
    indentation (row depth (c :: text) ++ rest) = depth := by
  have hspaces : ∀ a ∈ List.replicate depth ' ', decide (a = ' ') = true := by
    intro a ha
    simpa using List.eq_of_mem_replicate ha
  rw [indentation, row_append, List.takeWhile_append_of_pos hspaces, List.cons_append,
    List.takeWhile_cons_of_neg (by simpa using hc), List.append_nil, List.length_replicate]

/-- `row depth p.chars ++ s` determines the leaf `p` and `s`. -/
theorem row_chars_append_inj {depth : Nat} {p q : Piece} {s t : List Char} (hp : p.Legible)
    (hq : q.Legible) (h : row depth p.chars ++ s = row depth q.chars ++ t) : p = q ∧ s = t := by
  have hfeed : ∀ text, Text.NoDigitFirst ('\n' :: text) := by
    intro text c hc
    obtain rfl : '\n' = c := by simpa using hc
    rfl
  rw [row_append, row_append] at h
  obtain ⟨hpiece, hrest⟩ := Piece.chars_append_inj hp hq (fun _ => hfeed s) (fun _ => hfeed t)
    (List.append_cancel_left h)
  exact ⟨hpiece, (List.cons.inj hrest).2⟩

/-- `row depth [op.symbol] ++ s` determines `op` and `s`. -/
theorem row_symbol_append_inj {depth : Nat} {op op' : Op} {s t : List Char}
    (h : row depth [op.symbol] ++ s = row depth [op'.symbol] ++ t) : op = op' ∧ s = t := by
  rw [row_append, row_append] at h
  have hrow := List.append_cancel_left h
  simp only [List.cons_append, List.nil_append, List.cons.injEq, true_and] at hrow
  exact ⟨Op.symbol_injective hrow.1, hrow.2⟩

theorem symbol_ne_space (op : Op) : op.symbol ≠ ' ' := by
  cases op <;> decide

/-! ### Leaves -/

/-- The `Piece` that a leaf is written as, `none` for an operation. -/
def leaf? : Expr → Option Piece
  | .value n => some (.value n)
  | .var name => some (.var name)
  | .operation .. => none

section Leaf

variable {a b : Expr} {p q : Piece} {depth : Nat}

theorem outlineAt_leaf (h : a.leaf? = some p) (depth : Nat) :
    outlineAt depth a = row depth p.chars := by
  cases a with
  | value n =>
    obtain rfl := Option.some.inj h
    exact outlineAt_value depth n
  | var name =>
    obtain rfl := Option.some.inj h
    exact outlineAt_var depth name
  | operation op operands => contradiction

theorem eq_of_leaf?_eq_some (ha : a.leaf? = some p) (hb : b.leaf? = some p) : a = b := by
  cases a with
  | value m =>
    obtain rfl := Option.some.inj ha
    cases b with
    | value n => simpa [leaf?, eq_comm] using hb
    | var | operation => simp [leaf?] at hb
  | var name =>
    obtain rfl := Option.some.inj ha
    cases b with
    | var name' => simpa [leaf?, eq_comm] using hb
    | value | operation => simp [leaf?] at hb
  | operation op operands => contradiction

theorem legible_leaf (h : a.leaf? = some p)
    (hnames : ∀ name, .var name ∈ a.postOrder → name.isAlpha = true) : p.Legible := by
  cases a with
  | value n =>
    obtain rfl := Option.some.inj h
    simp [Piece.Legible]
  | var name =>
    obtain rfl := Option.some.inj h
    simpa [Piece.Legible, postOrder] using hnames
  | operation op operands => contradiction

/-- The `Piece` of a leaf does not begin with a space. -/
theorem exists_chars_leaf_eq_cons (h : a.leaf? = some p) (hp : p.Legible) :
    ∃ c cs, p.chars = c :: cs ∧ c ≠ ' ' := by
  obtain ⟨c, cs, hc, hvalue⟩ := hp.exists_chars_eq_cons
  refine ⟨c, cs, hc, ?_⟩
  rintro rfl
  cases a with
  | value n =>
    obtain rfl := Option.some.inj h
    simp [Piece.isValue] at hvalue
  | var name =>
    obtain rfl := Option.some.inj h
    obtain ⟨rfl, -⟩ := List.cons.inj hc
    exact absurd (hp ' ' rfl) (by decide)
  | operation op operands => contradiction

theorem indentation_leaf (h : a.leaf? = some p) (hp : p.Legible) (depth : Nat) (rest : List Char) :
    indentation (outlineAt depth a ++ rest) = depth := by
  obtain ⟨c, cs, hc, hne⟩ := exists_chars_leaf_eq_cons h hp
  rw [outlineAt_leaf h, hc, indentation_row_append depth hne]

end Leaf

/-! ### Operations -/

/-- `outlineAt depth e`, whatever follows it, has an `indentation` of at least `depth`. -/
theorem le_indentation {e : Expr} (he : e.Proper)
    (hnames : ∀ name, .var name ∈ e.postOrder → name.isAlpha = true) (depth : Nat)
    (rest : List Char) : depth ≤ indentation (outlineAt depth e ++ rest) := by
  induction e generalizing depth rest with
  | value n =>
    have hleaf : (value n).leaf? = some (.value n) := rfl
    rw [indentation_leaf hleaf (legible_leaf hleaf hnames)]
  | var name =>
    have hleaf : (var name).leaf? = some (.var name) := rfl
    rw [indentation_leaf hleaf (legible_leaf hleaf hnames)]
  | operation op operands ih =>
    obtain ⟨hne, hproper⟩ := proper_operation.1 he
    obtain ⟨e, es, rfl⟩ := List.exists_cons_of_ne_nil hne
    rw [outlineAt_operation_cons, List.append_assoc]
    have hfirst := ih e (by simp) (hproper e (by simp))
      (fun name hname => hnames name (mem_postOrder_operation_of_mem (by simp) hname)) (depth + 1)
      (es.flatMap (outlineLater depth op) ++ rest)
    omega

/-- For an operation, `outlineAt depth` has an `indentation` of more than `depth`. For a leaf it is
`depth` (`indentation_leaf`). -/
theorem lt_indentation_operation {op : Op} {operands : List Expr}
    (h : (operation op operands).Proper)
    (hnames : ∀ name, .var name ∈ (operation op operands).postOrder → name.isAlpha = true)
    (depth : Nat) (rest : List Char) :
    depth < indentation (outlineAt depth (.operation op operands) ++ rest) := by
  obtain ⟨hne, hproper⟩ := proper_operation.1 h
  obtain ⟨e, es, rfl⟩ := List.exists_cons_of_ne_nil hne
  rw [outlineAt_operation_cons, List.append_assoc]
  exact le_indentation (hproper e (by simp))
    (fun name hname => hnames name (mem_postOrder_operation_of_mem (by simp) hname)) (depth + 1) _

theorem outlineLater_append (depth : Nat) (op : Op) (e : Expr) (rest : List Char) :
    outlineLater depth op e ++ rest =
      row depth [op.symbol] ++ (outlineAt (depth + 1) e ++ rest) := by
  rw [outlineLater, List.append_assoc]

/-- `outlineLater depth op e` begins with the row of `op`, so its `indentation` is `depth`. -/
theorem indentation_outlineLater (depth : Nat) (op : Op) (e : Expr) (rest : List Char) :
    indentation (outlineLater depth op e ++ rest) = depth := by
  rw [outlineLater_append, indentation_row_append depth (symbol_ne_space op)]

/-- What stands behind an operand of an operation at `depth` is `Shallow (depth + 1)`, given that
the text behind the operation is `Shallow depth`. -/
theorem Shallow.flatMap_outlineLater {depth : Nat} {rest : List Char} (h : Shallow depth rest)
    (op : Op) (es : List Expr) :
    Shallow (depth + 1) (es.flatMap (outlineLater depth op) ++ rest) := by
  cases es with
  | nil => exact h.succ
  | cons e es =>
    intro _
    rw [List.flatMap_cons, List.append_assoc, indentation_outlineLater]
    exact Nat.lt_succ_self depth

/-- A `Shallow depth` text does not begin with `outlineLater depth op e`. -/
theorem Shallow.ne_outlineLater {depth : Nat} {text : List Char} (h : Shallow depth text) (op : Op)
    (e : Expr) (rest : List Char) : text ≠ outlineLater depth op e ++ rest := by
  rintro rfl
  have hne : outlineLater depth op e ++ rest ≠ [] := by
    rw [outlineLater_append]
    exact row_append_ne_nil depth _ _
  have hlt := h hne
  rw [indentation_outlineLater] at hlt
  exact Nat.lt_irrefl depth hlt

/-- `es.flatMap (outlineLater depth op) ++ s` determines `es` and a `Shallow depth` text `s`, if
`outlineAt (depth + 1) e ++ s` determines `e` and a `Shallow (depth + 1)` text `s` for the operands
`e`. -/
theorem flatMap_outlineLater_append_inj {depth : Nat} {op : Op} {as bs : List Expr}
    {s t : List Char} (hs : Shallow depth s) (ht : Shallow depth t)
    (hsingle : ∀ a ∈ as, ∀ b ∈ bs, ∀ s t, Shallow (depth + 1) s → Shallow (depth + 1) t →
      outlineAt (depth + 1) a ++ s = outlineAt (depth + 1) b ++ t → a = b ∧ s = t)
    (h : as.flatMap (outlineLater depth op) ++ s = bs.flatMap (outlineLater depth op) ++ t) :
    as = bs ∧ s = t := by
  induction as generalizing bs with
  | nil =>
    cases bs with
    | nil => exact ⟨rfl, h⟩
    | cons b bs =>
      rw [List.flatMap_cons, List.append_assoc] at h
      exact absurd h (hs.ne_outlineLater op b _)
  | cons a as ih =>
    cases bs with
    | nil =>
      rw [List.flatMap_cons, List.append_assoc] at h
      exact absurd h.symm (ht.ne_outlineLater op a _)
    | cons b bs =>
      rw [List.flatMap_cons, List.flatMap_cons, List.append_assoc, List.append_assoc,
        outlineLater_append, outlineLater_append] at h
      have hrows := List.append_cancel_left h
      obtain ⟨rfl, hrest⟩ := hsingle a (by simp) b (by simp) _ _ (hs.flatMap_outlineLater op as)
        (ht.flatMap_outlineLater op bs) hrows
      obtain ⟨rfl, hst⟩ := ih (fun x hx y hy => hsingle x (List.mem_cons_of_mem a hx) y
        (List.mem_cons_of_mem a hy)) hrest
      exact ⟨rfl, hst⟩

/-! ### Outlines -/

/-- `outlineAt depth a ++ s` determines `a` and `s` if `a` is a leaf. An operation in its place
would have another `indentation`. -/
theorem leaf_append_inj {a b : Expr} {p : Piece} {depth : Nat} {s t : List Char}
    (ha : a.leaf? = some p) (hb : b.Proper)
    (hanames : ∀ name, .var name ∈ a.postOrder → name.isAlpha = true)
    (hbnames : ∀ name, .var name ∈ b.postOrder → name.isAlpha = true)
    (h : outlineAt depth a ++ s = outlineAt depth b ++ t) : a = b ∧ s = t := by
  have hp := legible_leaf ha hanames
  cases hq : b.leaf? with
  | some q =>
    rw [outlineAt_leaf ha, outlineAt_leaf hq] at h
    obtain ⟨rfl, hst⟩ := row_chars_append_inj hp (legible_leaf hq hbnames) h
    exact ⟨eq_of_leaf?_eq_some ha hq, hst⟩
  | none =>
    -- the first row of an operation is indented deeper
    obtain ⟨op, operands, rfl⟩ : ∃ op operands, b = .operation op operands := by
      cases b with
      | value | var => contradiction
      | operation op operands => exact ⟨op, operands, rfl⟩
    have hlt := lt_indentation_operation hb hbnames depth t
    rw [← h, indentation_leaf ha hp] at hlt
    exact absurd hlt (Nat.lt_irrefl depth)

/-- `outlineAt depth a ++ s` determines `a` and `s`, if `s` is `Shallow depth`. -/
theorem outlineAt_append_inj {a b : Expr} (ha : a.Branching) (hb : b.Branching)
    (hanames : ∀ name, .var name ∈ a.postOrder → name.isAlpha = true)
    (hbnames : ∀ name, .var name ∈ b.postOrder → name.isAlpha = true) {depth : Nat}
    {s t : List Char} (hs : Shallow depth s) (ht : Shallow depth t)
    (h : outlineAt depth a ++ s = outlineAt depth b ++ t) : a = b ∧ s = t := by
  induction a generalizing b depth s t with
  | value n => exact leaf_append_inj rfl hb.proper hanames hbnames h
  | var name => exact leaf_append_inj rfl hb.proper hanames hbnames h
  | operation op as ih =>
    cases b with
    | value n =>
      obtain ⟨heq, -⟩ := leaf_append_inj rfl ha.proper hbnames hanames h.symm
      contradiction
    | var name =>
      obtain ⟨heq, -⟩ := leaf_append_inj rfl ha.proper hbnames hanames h.symm
      contradiction
    | operation op' bs =>
      obtain ⟨halen, hall⟩ := branching_operation.1 ha
      obtain ⟨hblen, hbll⟩ := branching_operation.1 hb
      have hsingle : ∀ a ∈ as, ∀ b ∈ bs, ∀ s t, Shallow (depth + 1) s → Shallow (depth + 1) t →
          outlineAt (depth + 1) a ++ s = outlineAt (depth + 1) b ++ t → a = b ∧ s = t := by
        intro a ha b hb s t hs ht h
        exact ih a ha (hall a ha) (hbll b hb)
          (fun name hname => hanames name (mem_postOrder_operation_of_mem ha hname))
          (fun name hname => hbnames name (mem_postOrder_operation_of_mem hb hname)) hs ht h
      match as, bs, halen, hblen with
      | a :: a' :: as, b :: b' :: bs, _, _ =>
        rw [outlineAt_operation_cons, outlineAt_operation_cons, List.append_assoc,
          List.append_assoc] at h
        obtain ⟨rfl, hrest⟩ := hsingle a (by simp) b (by simp) _ _
          (hs.flatMap_outlineLater op _) (ht.flatMap_outlineLater op' _) h
        -- the second operand is behind the operator
        have hop : op = op' := by
          rw [List.flatMap_cons, List.flatMap_cons, List.append_assoc, List.append_assoc,
            outlineLater_append, outlineLater_append] at hrest
          exact (row_symbol_append_inj hrest).1
        subst hop
        obtain ⟨heq, hst⟩ := flatMap_outlineLater_append_inj hs ht
          (fun x hx y hy => hsingle x (List.mem_cons_of_mem a hx) y (List.mem_cons_of_mem a hy))
          hrest
        exact ⟨by rw [heq], hst⟩

/-- `outline` is injective on the `Branching` expressions with letters for variables. -/
theorem outline_eq_iff {a b : Expr} (ha : a.Branching) (hb : b.Branching)
    (hanames : ∀ name, .var name ∈ a.postOrder → name.isAlpha = true)
    (hbnames : ∀ name, .var name ∈ b.postOrder → name.isAlpha = true) :
    a.outline = b.outline ↔ a = b := by
  constructor
  · intro h
    have happend : outlineAt 0 a ++ [] = outlineAt 0 b ++ [] := by
      rw [List.append_nil, List.append_nil]
      exact h
    exact (outlineAt_append_inj ha hb hanames hbnames (shallow_nil 0) (shallow_nil 0) happend).1
  · rintro rfl
    rfl

/-- `x - (-1 - y)` and `(x - -1) - y` have the same rows without their indentation, but not the same
outline. -/
theorem outline_nestedDifference_ne :
    outline (.operation .sub [.var 'x', .operation .sub [.value (-1), .var 'y']]) ≠
      outline (.operation .sub [.operation .sub [.var 'x', .value (-1)], .var 'y']) := by
  have hright :
      (operation .sub [.var 'x', .operation .sub [.value (-1), .var 'y']]).Branching := by
    simp [Branching]
  have hleft :
      (operation .sub [.operation .sub [.var 'x', .value (-1)], .var 'y']).Branching := by
    simp [Branching]
  intro h
  have heq := (outline_eq_iff hright hleft (by simp [postOrder, postOrderEach])
    (by simp [postOrder, postOrderEach])).1 h
  simp at heq

end Reckon.Expr
