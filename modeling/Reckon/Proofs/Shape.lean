import Reckon.Canonical
import Reckon.Expr.PostOrder

/-!
# Shapes of expressions

Several passes promise something only of expressions in which every operation looks a certain way.
`Expr.Everywhere P` says that `P` holds of the operator and the operands of every operation inside
an expression, itself included. Three instances matter:

* `Expr.Proper`: every operation has an operand;
* `Expr.Branching`: every operation has at least two operands, as in every tree that was parsed;
* `Expr.Flat`: every operation has at least two operands, and none of those that flattening would
  merge into it.

Proper expressions stay proper under flattening (`Proper.flatten`), and eliminating subtraction even
leaves no operation with a single operand (`Proper.branching_eliminateSubtraction`).
-/

namespace Reckon.Expr

/-- `P` holds of every operation in an expression. -/
def Everywhere (P : Op → List Expr → Prop) (e : Expr) : Prop :=
  ∀ op operands, .operation op operands ∈ e.postOrder → P op operands

/-- Every operation has an operand. -/
def Proper : Expr → Prop :=
  Everywhere fun _ operands => operands ≠ []

/-- Every operation has at least two operands. -/
def Branching : Expr → Prop :=
  Everywhere fun _ operands => 2 ≤ operands.length

/-- The operands that flattening merges into an operation if they have its operator: all of them
under an associative operator, else the first. -/
def mergeable (op : Op) (operands : List Expr) : List Expr :=
  if op.isAssociative then operands else operands.take 1

/-- Every operation has at least two operands, and no mergeable one has its operator. -/
def Flat : Expr → Prop :=
  Everywhere fun op operands =>
    2 ≤ operands.length ∧ ∀ e ∈ mergeable op operands, e.isOperation op = false

/-! ### Everywhere -/

section Everywhere

variable {P Q : Op → List Expr → Prop}

@[simp]
theorem everywhere_value (n : Int) : Everywhere P (.value n) := by
  intro op operands h
  simp [postOrder] at h

@[simp]
theorem everywhere_var (name : Char) : Everywhere P (.var name) := by
  intro op operands h
  simp [postOrder] at h

/-- `Everywhere` in an operation is in the operation itself and `Everywhere` in its operands. -/
@[simp]
theorem everywhere_operation (op : Op) (operands : List Expr) :
    Everywhere P (.operation op operands) ↔ P op operands ∧ ∀ e ∈ operands, Everywhere P e := by
  constructor
  · intro h
    refine ⟨h op operands (by simp [postOrder_operation]), ?_⟩
    intro e he op' operands' hmem
    exact h op' operands' (mem_postOrder_operation_of_mem he hmem)
  · rintro ⟨hop, hes⟩ op' operands' hmem
    rw [postOrder_operation, List.mem_append, List.mem_flatMap] at hmem
    rcases hmem with ⟨e, he, hmem⟩ | hmem
    · exact hes e he op' operands' hmem
    · obtain ⟨rfl, rfl⟩ : op' = op ∧ operands' = operands := by simpa using hmem
      exact hop

theorem Everywhere.mono (h : ∀ op operands, P op operands → Q op operands) {e : Expr}
    (he : Everywhere P e) : Everywhere Q e :=
  fun op operands hmem => h op operands (he op operands hmem)

/-- What holds `Everywhere` in some operands, and of the operation on them unless there is only one
of them, holds `Everywhere` in `ofOperands`. -/
theorem everywhere_ofOperands {op : Op} {operands : List Expr}
    (hop : operands.length ≠ 1 → (op.isAssociative → operands ≠ []) → P op operands)
    (h : ∀ e ∈ operands, Everywhere P e) : Everywhere P (ofOperands op operands) := by
  match operands with
  | [e] => exact h e (by simp)
  | a :: b :: es =>
    rw [ofOperands_cons_cons, everywhere_operation]
    exact ⟨hop (by simp) (by simp), h⟩
  | [] =>
    cases op with
    | add => exact everywhere_value 0
    | mul => exact everywhere_value 1
    | sub => exact (everywhere_operation ..).2 ⟨hop (by simp) (by simp [Op.isAssociative]), h⟩
    | div => exact (everywhere_operation ..).2 ⟨hop (by simp) (by simp [Op.isAssociative]), h⟩

/-- What holds `Everywhere` in an expression holds `Everywhere` in what it brings into an
operation. -/
theorem Everywhere.operandsUnder {e : Expr} (h : Everywhere P e) (op : Op) :
    ∀ a ∈ e.operandsUnder op, Everywhere P a := by
  by_cases hop : e.isOperation op = true
  · obtain ⟨operands, rfl⟩ := isOperation_iff.1 hop
    rw [operandsUnder_operation_self]
    exact ((everywhere_operation ..).1 h).2
  · rw [operandsUnder_of_isOperation_eq_false (by simpa using hop)]
    simpa using h

end Everywhere

/-! ### Induction over flattening -/

/-- `flatOperands` come from the operands before: each is what `flatten` makes of one of these, or
was `spliced` from it. -/
theorem mem_flatOperands_operation {op : Op} {operands : List Expr} {a : Expr}
    (h : a ∈ flatOperands (.operation op operands)) :
    ∃ e ∈ operands, a ∈ e.spliced op ∨ a = e.flatten := by
  rw [flatOperands_operation] at h
  split at h
  · obtain ⟨e, he, ha⟩ := List.mem_flatMap.1 h
    exact ⟨e, he, Or.inl ha⟩
  · rcases List.mem_append.1 h with h | h
    · obtain ⟨e, he, ha⟩ := List.mem_flatMap.1 h
      exact ⟨e, List.mem_of_mem_take he, Or.inl ha⟩
    · obtain ⟨e, he, rfl⟩ := List.mem_map.1 h
      exact ⟨e, List.mem_of_mem_drop he, Or.inr rfl⟩

/-- To prove a statement of what an expression becomes by `flatten` and of what is `spliced` from
it, prove it of the leaves, and of a flattened operation given that it holds of its operands. -/
theorem Everywhere.flatten_induction {P : Op → List Expr → Prop} {J : Expr → Prop}
    (hvalue : ∀ n, J (.value n)) (hvar : ∀ name, J (.var name))
    (hoperation : ∀ op operands, Everywhere P (.operation op operands) →
      (∀ a ∈ flatOperands (.operation op operands), J a) → J (flatten (.operation op operands)))
    {e : Expr} (h : Everywhere P e) : J e.flatten ∧ ∀ op, ∀ a ∈ e.spliced op, J a := by
  induction e with
  | value n => exact ⟨hvalue n, fun op => by simpa [spliced, isOperation] using hvalue n⟩
  | var name => exact ⟨hvar name, fun op => by simpa [spliced, isOperation] using hvar name⟩
  | operation op operands ih =>
    have hes := ((everywhere_operation ..).1 h).2
    -- the operands after flattening serve both for the operation and for what is spliced from it
    have hall : ∀ a ∈ flatOperands (.operation op operands), J a := by
      intro a ha
      obtain ⟨e, he, ha | rfl⟩ := mem_flatOperands_operation ha
      · exact (ih e he (hes e he)).2 op a ha
      · exact (ih e he (hes e he)).1
    have hflat : J (flatten (.operation op operands)) := hoperation op operands h hall
    refine ⟨hflat, ?_⟩
    intro op'
    rw [spliced]
    split
    · exact hall
    · simpa using hflat

/-! ### The three shapes -/

theorem proper_operation {op : Op} {operands : List Expr} :
    (operation op operands).Proper ↔ operands ≠ [] ∧ ∀ e ∈ operands, e.Proper :=
  everywhere_operation ..

theorem branching_operation {op : Op} {operands : List Expr} :
    (operation op operands).Branching ↔
      2 ≤ operands.length ∧ ∀ e ∈ operands, e.Branching :=
  everywhere_operation ..

theorem flat_operation {op : Op} {operands : List Expr} :
    (operation op operands).Flat ↔
      (2 ≤ operands.length ∧ ∀ e ∈ mergeable op operands, e.isOperation op = false) ∧
        ∀ e ∈ operands, e.Flat :=
  everywhere_operation ..

theorem Branching.proper {e : Expr} (h : e.Branching) : e.Proper := by
  refine Everywhere.mono ?_ h
  rintro op operands hlen rfl
  simp at hlen

theorem Branching.binary {a b : Expr} (op : Op) (ha : a.Branching) (hb : b.Branching) :
    (operation op [a, b]).Branching :=
  branching_operation.2 ⟨Nat.le_refl 2, by simpa using ⟨ha, hb⟩⟩

/-- `ofOperands` builds no operation with a single operand. -/
theorem Branching.ofOperands {op : Op} {operands : List Expr} (hne : operands ≠ [])
    (h : ∀ e ∈ operands, e.Branching) : (ofOperands op operands).Branching := by
  refine everywhere_ofOperands ?_ h
  intro hlen _
  have hpos := List.length_pos_iff.2 hne
  omega

/-! ### Proper expressions -/

theorem Proper.ofOperands {op : Op} {operands : List Expr}
    (hne : op.isAssociative = true ∨ operands ≠ []) (h : ∀ e ∈ operands, e.Proper) :
    (ofOperands op operands).Proper := by
  refine everywhere_ofOperands ?_ h
  intro _ hassoc
  rcases hne with hop | hne
  · exact hassoc hop
  · exact hne

theorem Proper.operandsUnder {e : Expr} (h : e.Proper) (op : Op) :
    e.operandsUnder op ≠ [] ∧ ∀ a ∈ e.operandsUnder op, a.Proper := by
  refine ⟨?_, Everywhere.operandsUnder h op⟩
  cases e with
  | value n => simp [Expr.operandsUnder]
  | var name => simp [Expr.operandsUnder]
  | operation op' operands =>
    rw [Expr.operandsUnder]
    split
    · exact (proper_operation.1 h).1
    · simp

/-- There are `flatOperands` if something is `spliced` from every operand. -/
theorem flatOperands_operation_ne_nil {op : Op} {operands : List Expr} (hne : operands ≠ [])
    (h : ∀ e ∈ operands, e.spliced op ≠ []) : flatOperands (.operation op operands) ≠ [] := by
  obtain ⟨e, es, rfl⟩ := List.exists_cons_of_ne_nil hne
  have he := h e (by simp)
  rw [flatOperands_operation]
  split <;> simp [he]

/-- Something is `spliced` from every `Proper` expression. -/
theorem Proper.spliced_ne_nil {e : Expr} (h : e.Proper) (op : Op) : e.spliced op ≠ [] := by
  induction e generalizing op with
  | value n => simp [spliced, isOperation]
  | var name => simp [spliced, isOperation]
  | operation op' operands ih =>
    obtain ⟨hne, hes⟩ := proper_operation.1 h
    rw [spliced]
    split
    · exact flatOperands_operation_ne_nil hne fun e he => ih e he (hes e he) op'
    · simp

theorem Proper.flatOperands_ne_nil {op : Op} {operands : List Expr}
    (h : (operation op operands).Proper) : flatOperands (.operation op operands) ≠ [] := by
  obtain ⟨hne, hes⟩ := proper_operation.1 h
  exact flatOperands_operation_ne_nil hne fun e he => (hes e he).spliced_ne_nil op

/-- `flatten` leaves a `Proper` expression `Proper`. -/
theorem Proper.flatten {e : Expr} (h : e.Proper) : e.flatten.Proper := by
  refine (Everywhere.flatten_induction everywhere_value everywhere_var ?_ h).1
  intro op operands h hall
  exact Proper.ofOperands (Or.inr (Proper.flatOperands_ne_nil h)) hall

/-- `withoutSubtraction` only rebuilds a subtraction in another way. -/
theorem withoutSubtraction_of_ne_sub {op : Op} (h : op ≠ .sub) (operands : List Expr) :
    withoutSubtraction op operands = Expr.ofOperands op operands := by
  cases op with
  | sub => contradiction
  | add => rfl
  | mul => rfl
  | div => rfl

/-- `difference` uses operations of two operands or more. -/
theorem branching_difference {operands : List Expr} (hne : operands ≠ [])
    (h : ∀ e ∈ operands, e.Branching) : (difference operands).Branching := by
  match operands with
  | [e] => exact h e (by simp)
  | e :: e' :: es =>
    have he : e.Branching := h e (by simp)
    have hsum : (ofOperands .add (e' :: es)).Branching :=
      Branching.ofOperands (by simp) fun a ha => h a (List.mem_cons_of_mem e ha)
    have hnegate : (negate (ofOperands .add (e' :: es))).Branching :=
      Branching.binary .mul (everywhere_value (-1)) hsum
    exact he.binary .add hnegate

/-- `eliminateSubtraction` leaves no operation with a single operand. -/
theorem Proper.branching_eliminateSubtraction {e : Expr} (h : e.Proper) :
    e.eliminateSubtraction.Branching := by
  induction e with
  | value n => exact everywhere_value n
  | var name => exact everywhere_var name
  | operation op operands ih =>
    obtain ⟨hne, hes⟩ := proper_operation.1 h
    have hmap : ∀ a ∈ operands.map Expr.eliminateSubtraction, a.Branching := by
      intro a ha
      obtain ⟨e, he, rfl⟩ := List.mem_map.1 ha
      exact ih e he (hes e he)
    have hne' : operands.map Expr.eliminateSubtraction ≠ [] := by simpa using hne
    rw [eliminateSubtraction_operation]
    by_cases hop : op = .sub
    · subst hop
      exact branching_difference hne' hmap
    · rw [withoutSubtraction_of_ne_sub hop]
      exact Branching.ofOperands hne' hmap

theorem Proper.eliminateSubtraction {e : Expr} (h : e.Proper) : e.eliminateSubtraction.Proper :=
  h.branching_eliminateSubtraction.proper

theorem Proper.canonicalize {e : Expr} (h : e.Proper) : e.canonicalize.Proper :=
  h.flatten.eliminateSubtraction.flatten

end Reckon.Expr
