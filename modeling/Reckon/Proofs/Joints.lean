import Reckon.Proofs.InOrder
import Reckon.Proofs.Phrase

/-!
# Where the operators of a text stand

An operator is written as a token of its own, or it is a multiplication that stands between two
terms side by side; then its place is the first token of the second one. `Token.operators` finds
these places in the tokens of a text, without taking it for an expression: all there is to know is
where a term ends right before another one begins.

In the text of a phrase they are the places of the operations of its raw tree, in the same order
(`Phrase.forall₂_operators`). For a chain this is stated of any expressions, one for each later
operand, in the place of its own operations (`Phrase.places`), since these are not known before the
whole chain is.
-/

namespace Reckon

namespace Token

/-- Tests whether a term can end with a token of this kind. -/
def Kind.endsTerm : Kind → Bool
  | number | letter | closeParen => true
  | operator _ | openParen | symbol => false

/-- The operator at a token, or in front of it if a term has `ended` there and the token begins
another one. -/
def operator? (ended : Bool) (token : Token) : Option Joint :=
  match token.kind with
  | .operator op => some ⟨op, token.span⟩
  | .number | .letter | .openParen => if ended then some ⟨.mul, token.span⟩ else none
  | .closeParen | .symbol => none

/-- The operators in tokens that follow a term, if one has `ended` before them. -/
def operatorsFrom (ended : Bool) : List Token → List Joint
  | [] => []
  | token :: tokens => (token.operator? ended).toList ++ operatorsFrom token.kind.endsTerm tokens

/-- The operators in tokens, those that are not written included. -/
def operators (tokens : List Token) : List Joint :=
  operatorsFrom false tokens

/-- Where a term has ended, a token that begins another one stands for `.mul`. -/
theorem operatorsFrom_true_of_startsTerm {next : Token} (h : next.kind.startsTerm = true)
    (tokens : List Token) :
    operatorsFrom true (next :: tokens) = ⟨.mul, next.span⟩ :: operators (next :: tokens) := by
  have htrue : next.operator? true = some ⟨.mul, next.span⟩ := by
    unfold operator?
    cases hkind : next.kind <;> simp_all [Kind.startsTerm]
  have hfalse : next.operator? false = none := by
    unfold operator?
    cases hkind : next.kind <;> simp_all [Kind.startsTerm]
  rw [operators, operatorsFrom, operatorsFrom, htrue, hfalse]
  rfl

/-- The `sign` of an operator is a single token, except between terms side by side. -/
theorem exists_sign_eq_singleton {tier : Tier} {op : Op} (hop : tier.joins op = true)
    (htier : tier ≠ .group) {sign : List Token} (hsign : sign.map toLexeme = tier.sign op) :
    tier = op.tier ∧ ∃ token : Token, sign = [token] ∧ token.kind = .operator op := by
  obtain rfl := Tier.eq_tier_of_joins hop htier
  rw [op.sign_tier] at hsign
  obtain ⟨token, rfl, htoken⟩ := List.map_eq_singleton_iff.1 hsign
  exact ⟨rfl, token, rfl, (kind_of_toLexeme_eq htoken).trans (Kind.ofChar_symbol op)⟩

/-- Between an operand and the chain that goes on after it there is one joint. It is at the `sign`
of the operator, or at the token `next` behind it if there is no sign. -/
theorem operatorsFrom_sign {tier : Tier} {op : Op} (hop : tier.joins op = true) {sign : List Token}
    (hsign : sign.map toLexeme = tier.sign op) {next : Token}
    (hnext : next.kind.startsTerm = true) (tokens : List Token) :
    operatorsFrom true (sign ++ next :: tokens) =
      ⟨op, (sign.headD next).span⟩ :: operators (next :: tokens) := by
  by_cases htier : tier = .group
  · subst htier
    obtain rfl : op = .mul := by simpa [Tier.joins] using hop
    obtain rfl : sign = [] := List.map_eq_nil_iff.1 hsign
    exact operatorsFrom_true_of_startsTerm hnext tokens
  · obtain ⟨rfl, token, rfl, hkind⟩ := exists_sign_eq_singleton hop htier hsign
    simp [operatorsFrom, operator?, hkind, Kind.endsTerm, operators]

end Token

namespace Phrase

open Token (operators operatorsFrom)

variable {tokens : List Token}

/-! ### The tokens of a phrase -/

theorem exists_tokens_number {first : Char} {more : List Char}
    (h : ∀ c ∈ first :: more, c.isDigit = true)
    (htokens : tokens.map Token.toLexeme = (number first more h).lexemes) :
    ∃ token : Token, tokens = [token] ∧ token.kind = .number ∧ token.chars = first :: more := by
  obtain ⟨token, rfl, htoken⟩ := List.map_eq_singleton_iff.1 htokens
  have hkind : token.kind = .number :=
    (Token.kind_of_toLexeme_eq htoken).trans (Token.Kind.ofChar_of_isDigit (h first (by simp)))
  exact ⟨token, rfl, hkind, congrArg Lexeme.chars htoken⟩

theorem exists_tokens_letter {name : Char} (h : name.isAlpha = true)
    (htokens : tokens.map Token.toLexeme = (letter name h).lexemes) :
    ∃ token : Token, tokens = [token] ∧ token.kind = .letter ∧ token.first = name := by
  obtain ⟨token, rfl, htoken⟩ := List.map_eq_singleton_iff.1 htokens
  have hkind : token.kind = .letter :=
    (Token.kind_of_toLexeme_eq htoken).trans (Token.Kind.ofChar_of_isAlpha h)
  exact ⟨token, rfl, hkind, congrArg Lexeme.first htoken⟩

theorem exists_tokens_parentheses {inner : Phrase (some .expression)}
    (htokens : tokens.map Token.toLexeme = (parentheses inner).lexemes) :
    ∃ (first last : Token) (ts : List Token), tokens = first :: (ts ++ [last]) ∧
      first.toLexeme = .ofChar '(' ∧ first.kind = .openParen ∧ last.kind = .closeParen ∧
        ts.map Token.toLexeme = inner.lexemes := by
  rw [lexemes] at htokens
  obtain ⟨first, ts, rfl, hfirst, hts⟩ := List.map_eq_cons_iff.1 htokens
  obtain ⟨ts, us, rfl, hinner, hus⟩ := List.map_eq_append_iff.1 hts
  obtain ⟨last, rfl, hlast⟩ := List.map_eq_singleton_iff.1 hus
  exact ⟨first, last, ts, rfl, hfirst,
    (Token.kind_of_toLexeme_eq hfirst).trans Token.Kind.ofChar_openParen,
    (Token.kind_of_toLexeme_eq hlast).trans Token.Kind.ofChar_closeParen, hinner⟩

/-- The tokens of a `link` are those of the operand, those of a `sign`, and those of the chain that
goes on from the token `next`. -/
theorem exists_tokens_link {tier : Tier} {operand : Phrase tier.operand} {op : Op}
    {h : tier.joins op = true} {rest : Phrase (some tier)}
    (htokens : tokens.map Token.toLexeme = (link operand op h rest).lexemes) :
    ∃ (ts sign : List Token) (next : Token) (ts' : List Token),
      tokens = ts ++ (sign ++ next :: ts') ∧ ts.map Token.toLexeme = operand.lexemes ∧
        sign.map Token.toLexeme = tier.sign op ∧ next.kind.startsTerm = true ∧
          (next :: ts').map Token.toLexeme = rest.lexemes := by
  rw [lexemes] at htokens
  obtain ⟨ts, us, rfl, hts, hus⟩ := List.map_eq_append_iff.1 htokens
  obtain ⟨sign, ts', rfl, hsign, hts'⟩ := List.map_eq_append_iff.1 hus
  obtain ⟨l, ls, hl, hstart⟩ := rest.exists_lexemes_eq_cons
  rw [hl] at hts'
  obtain ⟨next, ts', rfl, rfl, hts''⟩ := List.map_eq_cons_iff.1 hts'
  exact ⟨ts, sign, next, ts', rfl, hts, hsign, hstart, hts'.trans hl.symm⟩

/-! ### The operators of a phrase -/

/-- `operatorsFrom` may be cut behind a phrase, where a term has ended. -/
theorem operatorsFrom_append {level : Option Tier} {p : Phrase level}
    (htokens : tokens.map Token.toLexeme = p.lexemes) (ended : Bool) (rest : List Token) :
    operatorsFrom ended (tokens ++ rest) =
      operatorsFrom ended tokens ++ operatorsFrom true rest := by
  induction p generalizing tokens ended rest with
  | number first more h =>
    obtain ⟨token, rfl, hkind, -⟩ := exists_tokens_number h htokens
    simp [operatorsFrom, hkind, Token.Kind.endsTerm]
  | letter name h =>
    obtain ⟨token, rfl, hkind, -⟩ := exists_tokens_letter h htokens
    simp [operatorsFrom, hkind, Token.Kind.endsTerm]
  | parentheses inner ih =>
    obtain ⟨first, last, ts, rfl, -, hfirst, hlast, hts⟩ := exists_tokens_parentheses htokens
    simp [operatorsFrom, ih hts, hfirst, hlast, Token.operator?, Token.Kind.endsTerm]
  | only operand ih => exact ih htokens ended rest
  | link operand op h tail ih ihtail =>
    obtain ⟨ts, sign, next, ts', rfl, hts, hsign, hnext, hts'⟩ := exists_tokens_link htokens
    -- the rest comes behind the chain that goes on after the operand
    have hsplit : ts ++ (sign ++ next :: ts') ++ rest = ts ++ (sign ++ next :: (ts' ++ rest)) := by
      simp
    have htail : operators (next :: (ts' ++ rest)) =
        operators (next :: ts') ++ operatorsFrom true rest := ihtail hts' false rest
    rw [hsplit, ih hts, Token.operatorsFrom_sign h hsign hnext, htail, ih hts,
      Token.operatorsFrom_sign h hsign hnext, List.append_assoc, List.cons_append]

/-- `operators` of an expression in parentheses are those of the expression. -/
theorem operators_parentheses {inner : Phrase (some .expression)} {first last : Token}
    (hfirst : first.kind = .openParen) (hlast : last.kind = .closeParen)
    (hinner : tokens.map Token.toLexeme = inner.lexemes) :
    operators (first :: (tokens ++ [last])) = operators tokens := by
  rw [operators, operatorsFrom, operatorsFrom_append hinner]
  simp [operatorsFrom, operators, Token.operator?, Token.Kind.endsTerm, hfirst, hlast]

/-- `operators` of a `link` are those of the first operand, the one behind it, and those of the
rest. -/
theorem operators_link {tier : Tier} {operand : Phrase tier.operand} {op : Op}
    (hop : tier.joins op = true) {sign : List Token} {next : Token}
    (hoperand : tokens.map Token.toLexeme = operand.lexemes)
    (hsign : sign.map Token.toLexeme = tier.sign op) (hnext : next.kind.startsTerm = true)
    (rest : List Token) :
    operators (tokens ++ (sign ++ next :: rest)) =
      operators tokens ++ ⟨op, (sign.headD next).span⟩ :: operators (next :: rest) := by
  rw [operators, operatorsFrom_append hoperand, Token.operatorsFrom_sign hop hsign hnext]
  rfl

/-- The `operators` of a phrase are those of the operations in its tree, in the same order. It does
not matter which operations `es` stand for those of the chain itself. -/
theorem forall₂_operators {level : Option Tier} {p : Phrase level}
    (htokens : tokens.map Token.toLexeme = p.lexemes) {es : List Expr}
    (hes : List.Forall₂ (fun x e => e.isOperation x.1 = true) (p.row Row.rawTree).later es) :
    List.Forall₂ (fun joint e => e.isOperation joint.op = true) (operators tokens)
      ((p.row Row.rawTree).weave es) := by
  induction p generalizing tokens es with
  | number first more h =>
    obtain ⟨token, rfl, hkind, -⟩ := exists_tokens_number h htokens
    simp [row, operators, operatorsFrom, Token.operator?, hkind, Expr.inOrder]
  | letter name h =>
    obtain ⟨token, rfl, hkind, -⟩ := exists_tokens_letter h htokens
    simp [row, operators, operatorsFrom, Token.operator?, hkind, Expr.inOrder]
  | parentheses inner ih =>
    obtain ⟨first, last, ts, rfl, -, hfirst, hlast, hts⟩ := exists_tokens_parentheses htokens
    rw [operators_parentheses hfirst hlast hts, row, Row.weave_single, Row.inOrder_rawTree]
    exact ih hts (Row.forall₂_operations _)
  | only operand ih =>
    rw [row, Row.weave_single, Row.inOrder_rawTree]
    exact ih htokens (Row.forall₂_operations _)
  | link operand op h rest ih ihrest =>
    obtain ⟨ts, sign, next, ts', rfl, hts, hsign, hnext, hts'⟩ := exists_tokens_link htokens
    obtain ⟨e, es, he, hlater, rfl⟩ := List.forall₂_cons_left_iff.1 hes
    rw [operators_link h hts hsign hnext, row, Row.weave_prepend, Row.inOrder_rawTree]
    exact List.rel_append (ih hts (Row.forall₂_operations _)) (.cons he (ihrest hts' hlater))

/-- The tree of `ab+(c)2` has a multiplication for `b` and one for `2`. -/
example : Token.operators (Token.scan ['a', 'b', '+', '(', 'c', ')', '2']) =
    [⟨.mul, ⟨1, 2⟩⟩, ⟨.add, ⟨2, 3⟩⟩, ⟨.mul, ⟨6, 7⟩⟩] := by decide

/-- There are as many `operators` as operations `inOrder`. -/
theorem length_operators {level : Option Tier} {p : Phrase level}
    (htokens : tokens.map Token.toLexeme = p.lexemes) :
    (operators tokens).length = p.rawTree.inOrder.length := by
  rw [rawTree, Row.inOrder_rawTree]
  exact (forall₂_operators htokens (Row.forall₂_operations _)).length_eq

/-- The operations in the tree of a phrase with their joints in its tokens, if `es` are those of the
chain itself. -/
def places {level : Option Tier} (p : Phrase level) (tokens : List Token) (es : List Expr) :
    List (Joint × Expr) :=
  (operators tokens).zip ((p.row Row.rawTree).weave es)

theorem places_operations {level : Option Tier} (p : Phrase level) (tokens : List Token) :
    p.places tokens (p.row Row.rawTree).operations = (operators tokens).zip p.rawTree.inOrder := by
  rw [rawTree, Row.inOrder_rawTree, places]

theorem places_only {tier : Tier} (operand : Phrase tier.operand) (tokens : List Token)
    (es : List Expr) :
    (only operand).places tokens es = (operators tokens).zip operand.rawTree.inOrder := by
  rw [places, row, Row.weave_single]
  rfl

theorem places_parentheses {inner : Phrase (some .expression)} {first last : Token}
    (hfirst : first.kind = .openParen) (hlast : last.kind = .closeParen)
    (hinner : tokens.map Token.toLexeme = inner.lexemes) :
    (operators (first :: (tokens ++ [last]))).zip (parentheses inner).rawTree.inOrder =
      (operators tokens).zip inner.rawTree.inOrder := by
  rw [operators_parentheses hfirst hlast hinner]
  rfl

/-- In the `places` of a `link`, the operation `e` at the first operator stands between those of the
first operand and those of the rest. -/
theorem places_link {tier : Tier} {operand : Phrase tier.operand} {op : Op}
    (hop : tier.joins op = true) {rest : Phrase (some tier)} {sign : List Token} {next : Token}
    (hoperand : tokens.map Token.toLexeme = operand.lexemes)
    (hsign : sign.map Token.toLexeme = tier.sign op) (hnext : next.kind.startsTerm = true)
    (ts : List Token) (e : Expr) (es : List Expr) :
    (link operand op hop rest).places (tokens ++ (sign ++ next :: ts)) (e :: es) =
      (operators tokens).zip operand.rawTree.inOrder ++
        (⟨op, (sign.headD next).span⟩, e) :: rest.places (next :: ts) es := by
  rw [places, operators_link hop hoperand hsign hnext, row, Row.weave_prepend, List.zip_append]
  · rfl
  · exact length_operators hoperand

end Phrase

end Reckon
