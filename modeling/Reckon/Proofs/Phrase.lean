import Reckon.Proofs.Chain
import Reckon.Proofs.Grammar
import Reckon.Proofs.Lexeme
import Reckon.Proofs.Shape
import Reckon.Text.Decimal

/-!
# Sentences of the grammar

A `Phrase` is a sentence of the grammar, taken apart into lexemes: chains of operands on three
tiers, which are terms in the end. Unlike the grammar over characters, which derives `12` also as
two numbers side by side, it leaves no choice of what the terms are.

`Phrase.row` turns a chain into the row of its operands, each of them grouped by the same function.
With `Row.rawTree` this is the tree that the parser is to build (`Phrase.rawTree`), and with
`Row.leftTree` the tree in which every operator is taken from the left (`Phrase.leftTree`).

The two views of the grammar agree: a text can be derived exactly if some phrase has its lexemes
(`Phrase.derives_expression_iff`). How deep a phrase is nested can be told from its text
(`Phrase.balancedTo_chars`).
-/

namespace Reckon

/-- The chains that expressions are made of. -/
inductive Tier where
  /-- Terms side by side. -/
  | group
  /-- Groups with `*` or `/` between them. -/
  | product
  /-- Products with `+` or `-` between them. -/
  | expression
  deriving DecidableEq, Repr

namespace Tier

/-- Tests whether a chain may have an operator between its operands. -/
def joins : Tier → Op → Bool
  | group, op => op = .mul
  | product, op => op = .mul || op = .div
  | expression, op => op = .add || op = .sub

/-- The chains that the operands of a chain are; none if they are terms. -/
def operand : Tier → Option Tier
  | group => none
  | product => some group
  | expression => some product

/-- How an operator of a chain is written. Terms stand side by side without any. -/
def sign : Tier → Op → List Lexeme
  | group, _ => []
  | product, op | expression, op => [.ofChar op.symbol]

/-- The production of a chain, or of terms. -/
def production : Option Tier → Production
  | none => .term
  | some group => .group
  | some product => .product
  | some expression => .expression

/-- To prove a statement of every level, prove it of terms, and of a chain given that it holds of
its operands. -/
@[elab_as_elim]
theorem levelInduction {motive : Option Tier → Prop} (terms : motive none)
    (chain : ∀ tier : Tier, motive tier.operand → motive (some tier)) (level : Option Tier) :
    motive level := by
  have hgroup : motive (some group) := chain group terms
  have hproduct : motive (some product) := chain product hgroup
  match level with
  | none => exact terms
  | some group => exact hgroup
  | some product => exact hproduct
  | some expression => exact chain expression hproduct

end Tier

/-- The tier of the chains in which an operator is written. -/
def Op.tier : Op → Tier
  | mul | div => .product
  | add | sub => .expression

@[simp]
theorem Op.joins_tier (op : Op) : op.tier.joins op = true := by
  cases op <;> rfl

@[simp]
theorem Op.sign_tier (op : Op) : op.tier.sign op = [.ofChar op.symbol] := by
  cases op <;> rfl

/-- A tier that `joins` an operator is `op.tier`, except between terms side by side. -/
theorem Tier.eq_tier_of_joins {tier : Tier} {op : Op} (h : tier.joins op = true)
    (hne : tier ≠ .group) : tier = op.tier := by
  cases tier <;> cases op <;> first | rfl | contradiction

/-- A term, or a chain of a tier. -/
inductive Phrase : Option Tier → Type where
  | number (first : Char) (more : List Char) (h : ∀ c ∈ first :: more, c.isDigit = true) :
      Phrase none
  | letter (name : Char) (h : name.isAlpha = true) : Phrase none
  | parentheses (inner : Phrase (some .expression)) : Phrase none
  /-- A chain of a single operand. -/
  | only {tier : Tier} (operand : Phrase tier.operand) : Phrase (some tier)
  /-- A chain that goes on after an operand and an operator. -/
  | link {tier : Tier} (operand : Phrase tier.operand) (op : Op) (h : tier.joins op = true)
      (rest : Phrase (some tier)) : Phrase (some tier)

namespace Phrase

/-- A single term, on any level. -/
def ofTerm (term : Phrase none) : (level : Option Tier) → Phrase level
  | none => term
  | some .group => @only .group term
  | some .product => @only .product (@only .group term)
  | some .expression => @only .expression (@only .product (@only .group term))

/-- A chain that goes on after an operator, at its end. -/
def snoc {tier : Tier} :
    Phrase (some tier) → (op : Op) → tier.joins op = true → Phrase tier.operand → Phrase (some tier)
  | only operand, op, h, last => link operand op h (only last)
  | link operand op' h' rest, op, h, last => link operand op' h' (rest.snoc op h last)

/-- A chain that goes on after an operator, with another chain. -/
def concat {tier : Tier} :
    Phrase (some tier) → (op : Op) → tier.joins op = true → Phrase (some tier) → Phrase (some tier)
  | only operand, op, h, q => link operand op h q
  | link operand op' h' rest, op, h, q => link operand op' h' (rest.concat op h q)

/-- The lexemes of a phrase. -/
def lexemes : {level : Option Tier} → Phrase level → List Lexeme
  | _, number first more _ => [⟨first, more⟩]
  | _, letter name _ => [.ofChar name]
  | _, parentheses inner => .ofChar '(' :: (inner.lexemes ++ [.ofChar ')'])
  | _, only operand => operand.lexemes
  | some tier, link operand op _ rest => operand.lexemes ++ (tier.sign op ++ rest.lexemes)

/-- The text of a phrase. -/
def chars {level : Option Tier} (p : Phrase level) : List Char :=
  p.lexemes.flatMap Lexeme.chars

/-- How many parentheses are open at once in a phrase. -/
def depth : {level : Option Tier} → Phrase level → Nat
  | _, number .. | _, letter .. => 0
  | _, parentheses inner => inner.depth + 1
  | _, only operand => operand.depth
  | _, link operand _ _ rest => max operand.depth rest.depth

/-- The number of operators in a phrase, those that are not written included. -/
def joints : {level : Option Tier} → Phrase level → Nat
  | _, number .. | _, letter .. => 0
  | _, parentheses inner => inner.joints
  | _, only operand => operand.joints
  | _, link operand _ _ rest => operand.joints + rest.joints + 1

/-- The row of a chain, with every operand grouped by `build`. A term is a row by itself. -/
def row (build : Row → Expr) : {level : Option Tier} → Phrase level → Row
  | _, number first more _ => .single (.value (Text.ofDigits (first :: more)))
  | _, letter name _ => .single (.var name)
  | _, parentheses inner => .single (build (inner.row build))
  | _, only operand => .single (build (operand.row build))
  | _, link operand op _ rest => (rest.row build).prepend (build (operand.row build)) op

/-- The tree of a phrase, in which runs are grouped from the right. -/
def rawTree {level : Option Tier} (p : Phrase level) : Expr :=
  (p.row Row.rawTree).rawTree

/-- The tree of a phrase, in which every operator is taken from the left. -/
def leftTree {level : Option Tier} (p : Phrase level) : Expr :=
  (p.row Row.leftTree).leftTree

/-! ### Terms as chains, and chains that grow -/

section OfTerm

variable (term : Phrase none) (level : Option Tier)

theorem lexemes_ofTerm : (ofTerm term level).lexemes = term.lexemes := by
  match level with
  | none | some .group | some .product | some .expression => rfl

theorem depth_ofTerm : (ofTerm term level).depth = term.depth := by
  match level with
  | none | some .group | some .product | some .expression => rfl

theorem joints_ofTerm : (ofTerm term level).joints = term.joints := by
  match level with
  | none | some .group | some .product | some .expression => rfl

theorem leftTree_ofTerm : (ofTerm term level).leftTree = term.leftTree := by
  match level with
  | none | some .group | some .product | some .expression => rfl

end OfTerm

section Concat

variable {tier : Tier} {op : Op} (h : tier.joins op = true) (q : Phrase (some tier))

theorem row_concat (build : Row → Expr) (p : Phrase (some tier)) :
    (p.concat op h q).row build =
      ⟨(p.row build).first,
        (p.row build).later ++ (op, (q.row build).first) :: (q.row build).later⟩ := by
  match p with
  | only operand =>
    rw [concat]
    rfl
  | link operand op' h' rest =>
    rw [concat, row, row_concat build rest]
    rfl

/-- In `leftTree` the second chain goes on with what the first one came to. -/
theorem leftTree_concat (p : Phrase (some tier)) :
    (p.concat op h q).leftTree =
      (q.row Row.leftTree).later.foldl Row.extend
        (.operation op [p.leftTree, (q.row Row.leftTree).first]) := by
  rw [leftTree, row_concat, Row.leftTree, List.foldl_append]
  rfl

theorem lexemes_concat (p : Phrase (some tier)) :
    (p.concat op h q).lexemes = p.lexemes ++ (tier.sign op ++ q.lexemes) := by
  match p with
  | only operand =>
    rw [concat]
    rfl
  | link operand op' h' rest =>
    rw [concat, lexemes, lexemes_concat rest, lexemes]
    simp only [List.append_assoc]

theorem depth_concat (p : Phrase (some tier)) :
    (p.concat op h q).depth = max p.depth q.depth := by
  match p with
  | only operand =>
    rw [concat]
    rfl
  | link operand op' h' rest =>
    rw [concat, depth, depth_concat rest, depth]
    omega

theorem joints_concat (p : Phrase (some tier)) :
    (p.concat op h q).joints = p.joints + q.joints + 1 := by
  match p with
  | only operand =>
    rw [concat, joints, joints]
  | link operand op' h' rest =>
    rw [concat, joints, joints_concat rest, joints]
    omega

/-- `snoc` is `concat` with a chain of a single operand. -/
theorem snoc_eq_concat (last : Phrase tier.operand) (p : Phrase (some tier)) :
    p.snoc op h last = p.concat op h (only last) := by
  match p with
  | only operand => rw [snoc, concat]
  | link operand op' h' rest => rw [snoc, concat, snoc_eq_concat last rest]

/-- In `leftTree` the last operator stands at the top. -/
theorem leftTree_snoc (last : Phrase tier.operand) (p : Phrase (some tier)) :
    (p.snoc op h last).leftTree = .operation op [p.leftTree, last.leftTree] := by
  rw [snoc_eq_concat, leftTree_concat]
  rfl

end Concat

/-- `rawTree` is no taller than there are `joints`. -/
theorem height_rawTree_le_joints {level : Option Tier} (p : Phrase level) :
    p.rawTree.height ≤ p.joints := by
  -- stronger for chains: their operands may as well stand on top of each other
  have hrow : (p.row Row.rawTree).totalHeight ≤ p.joints := by
    induction p with
    | number first more h => exact Nat.le_refl 0
    | letter name h => exact Nat.le_refl 0
    | parentheses inner ih => exact (Row.height_rawTree_le _).trans ih
    | only operand ih => exact (Row.height_rawTree_le _).trans ih
    | link operand op h rest ih ihrest =>
      have hoperand : operand.rawTree.height ≤ operand.joints := (Row.height_rawTree_le _).trans ih
      rw [row, Row.totalHeight_prepend]
      show operand.rawTree.height + (rest.row Row.rawTree).totalHeight + 1 ≤
        operand.joints + rest.joints + 1
      omega
  exact (Row.height_rawTree_le _).trans hrow

/-! ### Texts of phrases -/

theorem chars_number {first : Char} {more : List Char}
    (h : ∀ c ∈ first :: more, c.isDigit = true) : (number first more h).chars = first :: more := by
  simp [chars, lexemes, Lexeme.chars]

theorem chars_letter {name : Char} (h : name.isAlpha = true) : (letter name h).chars = [name] := rfl

theorem chars_parentheses (inner : Phrase (some .expression)) :
    (parentheses inner).chars = '(' :: (inner.chars ++ [')']) := by
  simp [chars, lexemes]

theorem chars_only {tier : Tier} (operand : Phrase tier.operand) :
    (only operand).chars = operand.chars := rfl

theorem chars_link {tier : Tier} (operand : Phrase tier.operand) {op : Op}
    (h : tier.joins op = true) (rest : Phrase (some tier)) :
    (link operand op h rest).chars =
      operand.chars ++ ((tier.sign op).flatMap Lexeme.chars ++ rest.chars) := by
  simp [chars, lexemes]

/-- `lexemes` of a phrase begin with one that a term can begin with. -/
theorem exists_lexemes_eq_cons {level : Option Tier} (p : Phrase level) :
    ∃ l ls, p.lexemes = l :: ls ∧ (Token.Kind.ofChar l.first).startsTerm = true := by
  induction p with
  | number first more h =>
    refine ⟨_, _, rfl, ?_⟩
    rw [Token.Kind.ofChar_of_isDigit (h first (by simp))]
    rfl
  | letter name h =>
    refine ⟨_, _, rfl, ?_⟩
    rw [Lexeme.ofChar, Token.Kind.ofChar_of_isAlpha h]
    rfl
  | parentheses inner ih => exact ⟨_, _, rfl, by decide⟩
  | only operand ih => exact ih
  | link operand op h rest ih _ =>
    obtain ⟨l, ls, hl, hstart⟩ := ih
    exact ⟨l, _, by rw [lexemes, hl, List.cons_append], hstart⟩

/-- The `sign` of an operator is no parenthesis. -/
theorem balancedTo_sign (tier : Tier) (op : Op) :
    BalancedTo 0 ((tier.sign op).flatMap Lexeme.chars) := by
  refine .of_forall (fun c => (Op.ofChar? c).isSome) rfl rfl ?_
  cases tier <;> simp [Tier.sign]

/-- The text of a phrase is `BalancedTo` its `depth`. -/
theorem balancedTo_chars {level : Option Tier} (p : Phrase level) : BalancedTo p.depth p.chars := by
  induction p with
  | number first more h =>
    rw [chars_number]
    exact .of_forall Char.isDigit rfl rfl h
  | letter name h =>
    rw [chars_letter]
    exact .of_forall Char.isAlpha rfl rfl (by simpa using h)
  | parentheses inner ih =>
    rw [chars_parentheses]
    exact ih.parentheses
  | only operand ih => exact ih
  | @link tier operand op h rest ih ihrest =>
    rw [chars_link]
    have hall := ih.append ((balancedTo_sign tier op).append ihrest)
    rwa [Nat.zero_max] at hall

/-! ### What holds of leaves and operators -/

section Leaves

variable {P : Expr → Prop} {Q : Op → Prop} {level : Option Tier} (p : Phrase level)

/-- What holds of the leaves and the operators in a text, and is inherited by what `build` makes,
holds of the `row` of the phrase. -/
theorem row_of_forall {build : Row → Expr}
    (hbuild : ∀ row, (∀ x ∈ row.later, Q x.1) → (∀ e ∈ row.operands, P e) → P (build row))
    (hvalue : ∀ n : Nat, P (.value n))
    (hvar : ∀ name ∈ p.chars, name.isAlpha = true → P (.var name))
    (hsign : ∀ op, op = .mul ∨ op.symbol ∈ p.chars → Q op) :
    (∀ x ∈ (p.row build).later, Q x.1) ∧ ∀ e ∈ (p.row build).operands, P e := by
  have hsingle : ∀ e, P e →
      (∀ x ∈ (Row.single e).later, Q x.1) ∧ ∀ a ∈ (Row.single e).operands, P a := by
    intro e he
    simpa [Row.single, Row.operands] using he
  induction p with
  | number first more h => exact hsingle _ (hvalue _)
  | letter name h => exact hsingle _ (hvar name (by simp [chars_letter]) h)
  | parentheses inner ih =>
    have hsub : ∀ c ∈ inner.chars, c ∈ (parentheses inner).chars := by
      intro c hc
      simp [chars_parentheses, hc]
    obtain ⟨hops, hoperands⟩ := ih (fun name hname => hvar name (hsub name hname)) fun op hop =>
      hsign op (hop.imp_right (hsub op.symbol))
    exact hsingle _ (hbuild _ hops hoperands)
  | only operand ih =>
    obtain ⟨hops, hoperands⟩ := ih hvar hsign
    exact hsingle _ (hbuild _ hops hoperands)
  | @link tier operand op h rest ih ihrest =>
    rw [chars_link] at hvar hsign
    simp only [List.mem_append] at hvar hsign
    obtain ⟨hops, hoperands⟩ := ih (fun name hname => hvar name (Or.inl hname)) fun op hop =>
      hsign op (hop.imp_right Or.inl)
    obtain ⟨hops', hoperands'⟩ := ihrest (fun name hname => hvar name (Or.inr (Or.inr hname)))
      fun op hop => hsign op (hop.imp_right fun h => Or.inr (Or.inr h))
    have hop : Q op := by
      refine hsign op ?_
      by_cases htier : tier = .group
      · subst htier
        exact Or.inl (by simpa [Tier.joins] using h)
      · obtain rfl := Tier.eq_tier_of_joins h htier
        simp
    constructor
    · intro x hx
      rcases List.mem_cons.1 hx with rfl | hx
      · exact hop
      · exact hops' x hx
    · intro e he
      rcases List.mem_cons.1 he with rfl | he
      · exact hbuild _ hops hoperands
      · exact hoperands' e he

/-- What holds of the leaves in a text, and is inherited by the operations on two operands, holds of
the `rawTree`. -/
theorem rawTree_of_forall (hop : ∀ op a b, Q op → P a → P b → P (.operation op [a, b]))
    (hvalue : ∀ n : Nat, P (.value n))
    (hvar : ∀ name ∈ p.chars, name.isAlpha = true → P (.var name))
    (hsign : ∀ op, op = .mul ∨ op.symbol ∈ p.chars → Q op) : P p.rawTree := by
  obtain ⟨hops, hoperands⟩ := p.row_of_forall
    (fun _ hops hoperands => Row.rawTree_of_forall hop hops hoperands) hvalue hvar hsign
  exact Row.rawTree_of_forall hop hops hoperands

end Leaves

/-- The operands of the `row` are `Branching` if what `build` makes is. -/
theorem branching_row {build : Row → Expr}
    (hbuild : ∀ row, (∀ e ∈ row.operands, e.Branching) → (build row).Branching)
    {level : Option Tier} (p : Phrase level) : ∀ e ∈ (p.row build).operands, e.Branching :=
  (p.row_of_forall (Q := fun _ => True) (fun row _ => hbuild row)
    (fun n => Expr.everywhere_value n) (fun name _ _ => Expr.everywhere_var name)
    fun _ _ => trivial).2

/-- `rawTree` is `Branching`. -/
theorem branching_rawTree {level : Option Tier} (p : Phrase level) : p.rawTree.Branching :=
  Row.branching_rawTree (p.branching_row fun _ => Row.branching_rawTree)

theorem branching_leftTree {level : Option Tier} (p : Phrase level) : p.leftTree.Branching :=
  Row.branching_leftTree (p.branching_row fun _ => Row.branching_leftTree)

/-! ### From phrases to derivations -/

theorem derives_number {first : Char} {more : List Char}
    (h : ∀ c ∈ first :: more, c.isDigit = true) : Derives .number (first :: more) := by
  induction more generalizing first with
  | nil => exact .digit (h first (by simp))
  | cons d more ih =>
    have hmore : Derives .number (d :: more) := ih fun c hc => h c (List.mem_cons_of_mem first hc)
    exact .digits (h first (by simp)) hmore

/-- A phrase `Derives` its text. -/
theorem derives {level : Option Tier} (p : Phrase level) :
    Derives (Tier.production level) p.chars := by
  induction p with
  | number first more h =>
    rw [chars_number]
    exact .ofAtom (.ofNumber (derives_number h))
  | letter name h => exact .ofAtom (.ofLetter (.letter h))
  | parentheses inner ih =>
    rw [chars_parentheses]
    exact .parentheses ih
  | @only tier operand ih =>
    rw [chars_only]
    cases tier with
    | group => exact .ofTerm ih
    | product => exact .ofGroup ih
    | expression => exact .ofProduct ih
  | @link tier operand op h rest ih ihrest =>
    rw [chars_link]
    cases tier with
    | group => exact .juxtaposition ih ihrest
    | product => exact .factor (by simpa [Tier.joins] using h) ih ihrest
    | expression => exact .summand (by simpa [Tier.joins] using h) ih ihrest

/-! ### From derivations to phrases -/

/-- The lexemes of a text are those of a phrase. -/
def Spells {level : Option Tier} (p : Phrase level) (text : List Char) : Prop :=
  p.lexemes = Reckon.lexemes text

theorem Spells.chars_eq {level : Option Tier} {p : Phrase level} {text : List Char}
    (h : p.Spells text) : p.chars = text := by
  rw [chars, h, flatMap_chars_lexemes]

/-- A term whose `lexemes` begin with a digit is a number. -/
theorem lexemes_tail_eq_nil {p : Phrase none} {l : Lexeme} {ls : List Lexeme}
    (h : p.lexemes = l :: ls) (hl : l.first.isDigit = true) : ls = [] := by
  cases p with
  | number first more hdigits => exact (List.cons.inj h).2.symm
  | letter name hname => exact (List.cons.inj h).2.symm
  | parentheses inner =>
    obtain rfl : Lexeme.ofChar '(' = l := (List.cons.inj h).1
    contradiction

/-- Digits in front of a group that `Spells` a text with a digit at its start join the first number
of the group. -/
theorem exists_spells_digits_append {first : Char} {more t : List Char}
    (hdigits : ∀ c ∈ first :: more, c.isDigit = true) {d : Char} (hd : d.isDigit = true)
    {q : Phrase (some .group)} (hq : q.Spells (d :: t)) :
    ∃ q' : Phrase (some .group), q'.Spells (first :: more ++ d :: t) := by
  obtain ⟨l, ls, hl⟩ := List.exists_cons_of_ne_nil (lexemes_ne_nil (List.cons_ne_nil d t))
  have hlfirst : l.first.isDigit = true := by rw [first_of_lexemes_eq_cons hl, hd]
  have hldigits : ∀ c ∈ l.chars, c.isDigit = true :=
    (wellFormed_of_mem_lexemes (by rw [hl]; simp)).isDigit hlfirst
  have hjoined : ∀ c ∈ first :: (more ++ l.chars), c.isDigit = true := by
    intro c hc
    rw [← List.cons_append, List.mem_append] at hc
    rcases hc with hc | hc
    · exact hdigits c hc
    · exact hldigits c hc
  have htext : Reckon.lexemes (first :: more ++ d :: t) = ⟨first, more ++ l.chars⟩ :: ls :=
    lexemes_digits_append (fun c hc => hdigits c (List.mem_cons_of_mem first hc)) hl hlfirst
      (hdigits first (by simp))
  have hql : q.lexemes = l :: ls := hq.trans hl
  unfold Spells
  rw [htext]
  -- either way the group begins with a number, which the digits are added to
  match q with
  | only operand =>
    obtain rfl := lexemes_tail_eq_nil hql hlfirst
    exact ⟨only (number first (more ++ l.chars) hjoined), rfl⟩
  | link operand op h rest =>
    obtain ⟨l', ls', hoperand, -⟩ := exists_lexemes_eq_cons operand
    rw [lexemes, hoperand, List.cons_append] at hql
    obtain ⟨rfl, rfl⟩ := List.cons.inj hql
    obtain rfl := lexemes_tail_eq_nil hoperand hlfirst
    exact ⟨link (number first (more ++ l'.chars) hjoined) op h rest, rfl⟩

/-- A term in front of a group makes a longer group. -/
theorem exists_spells_append {s t : List Char} {p : Phrase none} (hp : p.Spells s)
    {q : Phrase (some .group)} (hq : q.Spells t) :
    ∃ q' : Phrase (some .group), q'.Spells (s ++ t) := by
  have hs : p.chars = s := hp.chars_eq
  by_cases hcut : ∀ c ∈ s.getLast?, ∀ d ∈ t.head?, (c.isDigit && d.isDigit) = false
  · refine ⟨link p .mul rfl q, ?_⟩
    show p.lexemes ++ q.lexemes = _
    rw [lexemes_append hcut, hp, hq]
  · -- only a number ends in a digit
    match p with
    | number first more hdigits =>
      rw [chars_number] at hs
      subst hs
      push Not at hcut
      obtain ⟨c, -, d, hd, hcd⟩ := hcut
      obtain ⟨t, rfl⟩ : ∃ u, t = d :: u := ⟨t.tail, (List.cons_head?_tail hd).symm⟩
      have hd : d.isDigit = true := by simp_all
      exact exists_spells_digits_append hdigits hd hq
    | letter name hname =>
      refine absurd ?_ hcut
      rw [chars_letter] at hs
      simp [← hs, Token.Kind.isDigit_eq_false_of_isAlpha hname]
    | parentheses inner =>
      refine absurd ?_ hcut
      rw [chars_parentheses] at hs
      intro c hc
      rw [← hs, ← List.cons_append, List.getLast?_concat] at hc
      obtain rfl := Option.some.inj hc
      intro d _
      rfl

theorem Spells.parentheses {s : List Char} {p : Phrase (some .expression)} (hp : p.Spells s) :
    (parentheses p).Spells ('(' :: (s ++ [')'])) := by
  show Lexeme.ofChar '(' :: (p.lexemes ++ [.ofChar ')']) = _
  rw [lexemes_cons_of_not_digit (by decide), lexemes_append_cons (by decide), hp]
  rfl

/-- An operand and an operator in front of a chain make a longer chain. -/
theorem Spells.link {s t : List Char} (op : Op) {p : Phrase op.tier.operand} (hp : p.Spells s)
    {q : Phrase (some op.tier)} (hq : q.Spells t) :
    (link p op op.joins_tier q).Spells (s ++ op.symbol :: t) := by
  show p.lexemes ++ (op.tier.sign op ++ q.lexemes) = _
  rw [lexemes_append_cons (Token.Kind.isDigit_symbol op), op.sign_tier, hp, hq]
  rfl

/-- What is derived from a production, in terms of phrases. -/
def Spelled : Production → List Char → Prop
  | .number, text => text ≠ [] ∧ ∀ c ∈ text, c.isDigit = true
  | .letter, text => ∃ c, c.isAlpha = true ∧ text = [c]
  | .atom, text | .term, text => ∃ p : Phrase none, p.Spells text
  | .group, text => ∃ p : Phrase (some .group), p.Spells text
  | .product, text => ∃ p : Phrase (some .product), p.Spells text
  | .expression, text => ∃ p : Phrase (some .expression), p.Spells text

theorem spelled_of_derives {production : Production} {text : List Char}
    (h : Derives production text) : Spelled production text := by
  induction h with
  | digit hd => exact ⟨by simp, by simpa using hd⟩
  | digits hd _ ih => exact ⟨by simp, by simpa using ⟨hd, ih.2⟩⟩
  | letter hc => exact ⟨_, hc, rfl⟩
  | ofNumber _ ih =>
    obtain ⟨hne, hdigits⟩ := ih
    obtain ⟨d, ds, rfl⟩ := List.exists_cons_of_ne_nil hne
    exact ⟨number d ds hdigits, (lexemes_digits hdigits).symm⟩
  | ofLetter _ ih =>
    obtain ⟨c, hc, rfl⟩ := ih
    exact ⟨letter c hc, rfl⟩
  | ofAtom _ ih => exact ih
  | parentheses _ ih =>
    obtain ⟨p, hp⟩ := ih
    exact ⟨_, hp.parentheses⟩
  | ofTerm _ ih =>
    obtain ⟨p, hp⟩ := ih
    exact ⟨only p, hp⟩
  | juxtaposition _ _ ihs iht =>
    obtain ⟨p, hp⟩ := ihs
    obtain ⟨q, hq⟩ := iht
    exact exists_spells_append hp hq
  | ofGroup _ ih =>
    obtain ⟨p, hp⟩ := ih
    exact ⟨only p, hp⟩
  | factor hop _ _ ihs iht =>
    obtain ⟨p, hp⟩ := ihs
    obtain ⟨q, hq⟩ := iht
    rcases hop with rfl | rfl
    · exact ⟨_, Spells.link .mul hp hq⟩
    · exact ⟨_, Spells.link .div hp hq⟩
  | ofProduct _ ih =>
    obtain ⟨p, hp⟩ := ih
    exact ⟨only p, hp⟩
  | summand hop _ _ ihs iht =>
    obtain ⟨p, hp⟩ := ihs
    obtain ⟨q, hq⟩ := iht
    rcases hop with rfl | rfl
    · exact ⟨_, Spells.link .add hp hq⟩
    · exact ⟨_, Spells.link .sub hp hq⟩

/-- A text is an expression exactly if a phrase `Spells` it. -/
theorem derives_expression_iff {text : List Char} :
    Derives .expression text ↔ ∃ p : Phrase (some .expression), p.Spells text := by
  constructor
  · exact spelled_of_derives
  · rintro ⟨p, hp⟩
    rw [← hp.chars_eq]
    exact p.derives

end Phrase

end Reckon
