import Reckon.Expr.Line
import Reckon.Proofs.Pieces
import Reckon.Proofs.Regrouping

/-!
# Reading what was written

The line of a flat expression, without its spaces, is read as an expression that flattens to it
again. For this a phrase is built along the line (`Expr.Flat.writtenAs`): the operands that need no
parentheses are chains of the right tier, the others are terms in parentheses, and a chain is
extended operand by operand. In its left tree every operator stands where the line has it, so
flattening it gives the expression back.

A line takes no more parentheses at once than it has, and its tree is no taller than the number of
its operators. That is what the limits on reading it are compared with.

A sign in front of an integer is not part of the grammar. Where integers may be negative, phrases
are built along the line in which each integer is replaced by a natural number that codes it
(`Expr.codedLine`). The parentheses around negative integers stay, and natural numbers can stand for
themselves. `Expr.Everywhere.written_codedLine` does this for expressions of any shape, and for any
relation between what is read and what was written.
-/

namespace Reckon

/-- Tests whether a character is an operator. -/
def isOperator (c : Char) : Bool :=
  (Op.ofChar? c).isSome

/-- The characters of a `Piece` without its spaces, where an integer `n` is written as `code n`. -/
def Piece.codedChars (code : Int → Nat) : Piece → List Char
  | .value n => Text.decimal (code n : Nat)
  | .operator op => [op.symbol]
  | .var name => [name]
  | .openParen => ['(']
  | .closeParen => [')']

/-- `p.Spells text`, where `p.depth` and `p.joints` are no more than the `'('` and the operators
that `text` has. -/
structure Phrase.Writes {level : Option Tier} (p : Phrase level) (text : List Char) : Prop where
  spells : p.Spells text
  depth_le : p.depth ≤ text.count '('
  joints_le : p.joints ≤ text.countP isOperator

/-- `p.concat op _ q` writes `s ++ op.symbol :: t` if `p` writes `s` and `q` writes `t`. -/
theorem Phrase.Writes.concat {op : Op} {p q : Phrase (some op.tier)} {s t : List Char}
    (hp : p.Writes s) (hq : q.Writes t) :
    (p.concat op op.joins_tier q).Writes (s ++ op.symbol :: t) := by
  obtain ⟨hp, hdepth, hjoints⟩ := hp
  obtain ⟨hq, hdepth', hjoints'⟩ := hq
  have hparen : op.symbol ≠ '(' := by cases op <;> decide
  have hoperator : isOperator op.symbol = true := by simp [isOperator]
  refine ⟨?_, ?_, ?_⟩
  · show (p.concat op op.joins_tier q).lexemes = _
    rw [Phrase.lexemes_concat, op.sign_tier, lexemes_append_cons (Token.Kind.isDigit_symbol op), hp,
      hq]
    rfl
  · rw [Phrase.depth_concat, List.count_append, List.count_cons_of_ne hparen]
    omega
  · rw [Phrase.joints_concat, List.countP_append, List.countP_cons_of_pos hoperator]
    omega

/-- `parseRaw` returns `p.rawTree` for a text that `p` writes, if the limits are no less than the
numbers of its `'('` and of its operators. -/
theorem Phrase.Writes.parseRaw_eq_ok {p : Phrase (some .expression)} {text : List Char}
    (h : p.Writes text) {depth height : Nat} (hdepth : text.count '(' ≤ depth)
    (hheight : text.countP isOperator ≤ height) : parseRaw ⟨depth, height⟩ text = .ok p.rawTree :=
  h.spells.parseRaw_eq_ok (h.depth_le.trans hdepth)
    ((p.height_rawTree_le_joints.trans h.joints_le).trans hheight)

namespace Expr

/-- `e.line` without its spaces. -/
def bareLine (e : Expr) : List Char :=
  e.line.filter (· ≠ ' ')

/-- `e` with every integer `n` replaced by `code n`. -/
def encode (code : Int → Nat) : Expr → Expr :=
  fold (fun n => .value (code n)) .var .operation

/-- `e.bareLine` with every integer `n` written as `code n`. -/
def codedLine (code : Int → Nat) (e : Expr) : List Char :=
  e.pieces.flatMap (Piece.codedChars code)

/-- Every leaf of `e` is a `term` of the grammar: an integer without a sign, or a letter. -/
structure Writable (e : Expr) : Prop where
  value : ∀ n, .value n ∈ e.postOrder → 0 ≤ n
  var : ∀ name, .var name ∈ e.postOrder → name.isAlpha = true

/-- `e` needs no parentheses to be a `Phrase level`. A leaf never does, and an operation does not if
`level` is `op.tier` or an expression. -/
def FitsIn (level : Option Tier) : Expr → Prop
  | .operation op _ => level = some op.tier ∨ level = some .expression
  | .value _ | .var _ => True

/-- `text` is written by a `Phrase level` with `P` for its left tree. -/
def Written (text : List Char) (level : Option Tier) (P : Expr → Prop) : Prop :=
  ∃ p : Phrase level, p.Writes text ∧ P p.leftTree

/-- `text` is written by a `Phrase level` whose left tree flattens to `e`
(`writtenAs_iff_written`). -/
def WrittenAs (text : List Char) (level : Option Tier) (e : Expr) : Prop :=
  ∃ p : Phrase level, p.Spells text ∧ p.leftTree.flatten = e ∧ p.depth ≤ text.count '(' ∧
    p.joints ≤ text.countP isOperator

/-! ### Lines without spaces -/

/-- `text.filter (· ≠ ' ')` is `text`, if all its characters are of a kind that `' '` is not of. -/
theorem filter_ne_blank (kind : Char → Bool) (hblank : kind ' ' = false) {text : List Char}
    (h : ∀ c ∈ text, kind c = true) : text.filter (· ≠ ' ') = text := by
  rw [List.filter_eq_self]
  intro c hc
  simp only [decide_eq_true_eq]
  rintro rfl
  exact Bool.false_ne_true (hblank.symm.trans (h ' ' hc))

theorem count_openParen_bareLine (e : Expr) : e.bareLine.count '(' = e.line.count '(' := by
  rw [bareLine, List.count_filter]
  decide

theorem countP_isOperator_bareLine (e : Expr) :
    e.bareLine.countP isOperator = e.line.countP isOperator := by
  rw [bareLine, List.countP_filter]
  refine List.countP_congr ?_
  intro c _
  simp only [Bool.and_eq_true, decide_eq_true_eq, and_iff_left_iff_imp]
  rintro hc rfl
  contradiction

/-! ### Coded integers -/

section Code

variable (code : Int → Nat)

@[simp]
theorem encode_value (n : Int) : encode code (.value n) = .value (code n) := rfl

@[simp]
theorem encode_var (name : Char) : encode code (.var name) = .var name := rfl

@[simp]
theorem encode_operation (op : Op) (operands : List Expr) :
    encode code (.operation op operands) = .operation op (operands.map (encode code)) := by
  simp [encode]

@[simp]
theorem isOperation_encode (op : Op) (e : Expr) :
    (e.encode code).isOperation op = e.isOperation op := by
  cases e with
  | value n => rfl
  | var name => rfl
  | operation op' operands => simp [isOperation]

theorem codedLine_value (n : Int) : codedLine code (.value n) = Text.decimal (code n : Nat) := by
  simp [codedLine, Piece.codedChars]

theorem codedLine_var (name : Char) : codedLine code (.var name) = [name] := rfl

/-- `codedLine` of an operation: the first operand, and each later one behind `op.symbol`, in a
`bracket` where it needs one. -/
theorem codedLine_operation_cons (op : Op) (e : Expr) (es : List Expr) :
    codedLine code (.operation op (e :: es)) =
      bracket (e.bracketedFirst op) (e.codedLine code) ++
        es.flatMap fun x => op.symbol :: bracket (x.bracketedLater op) (x.codedLine code) :=
  flatMap_pieces_operation_cons rfl rfl op e es

end Code

/-- `encode Int.toNat` changes nothing if no integer is negative. -/
theorem encode_toNat {e : Expr} (h : ∀ n, .value n ∈ e.postOrder → 0 ≤ n) :
    e.encode Int.toNat = e := by
  induction e with
  | value n =>
    have hn : 0 ≤ n := h n (by simp [postOrder])
    rw [encode_value, Int.toNat_of_nonneg hn]
  | var name => rfl
  | operation op operands ih =>
    have hoperands : ∀ e ∈ operands, e.encode Int.toNat = e := fun e he =>
      ih e he fun n hn => h n (mem_postOrder_operation_of_mem he hn)
    rw [encode_operation, List.map_congr_left hoperands, List.map_id']

/-- `codedLine Int.toNat` is `bareLine` if no integer is negative. -/
theorem Writable.codedLine_toNat {e : Expr} (h : e.Writable) :
    e.codedLine Int.toNat = e.bareLine := by
  have hpieces : ∀ p ∈ e.pieces, p.codedChars Int.toNat = p.chars.filter (· ≠ ' ') := by
    refine forall_mem_pieces ?_ ?_ ?_ ?_ ?_
    · rfl
    · rfl
    · intro op
      cases op <;> rfl
    · intro n hn
      obtain ⟨m, rfl⟩ := Int.eq_ofNat_of_zero_le (h.value n hn)
      exact (filter_ne_blank Char.isDigit rfl fun c => Text.isDigit_of_mem_decimal).symm
    · intro name hname
      have hletter : ∀ c ∈ [name], c.isAlpha = true := by simpa using h.var name hname
      exact (filter_ne_blank Char.isAlpha rfl hletter).symm
  rw [codedLine, bareLine, line_eq_flatMap_chars, List.filter_flatMap, List.flatMap_congr hpieces]

/-! ### Texts that are written -/

theorem writtenAs_iff_written {text : List Char} {level : Option Tier} {e : Expr} :
    WrittenAs text level e ↔ Written text level fun t => t.flatten = e :=
  ⟨fun ⟨p, hp, he, hdepth, hjoints⟩ => ⟨p, ⟨hp, hdepth, hjoints⟩, he⟩,
    fun ⟨p, ⟨hp, hdepth, hjoints⟩, he⟩ => ⟨p, hp, he, hdepth, hjoints⟩⟩

namespace Written

variable {P Q R : Expr → Prop}

theorem number {digits : List Char} (hne : digits ≠ []) (h : ∀ c ∈ digits, c.isDigit = true)
    (hP : P (.value (Text.ofDigits digits))) : Written digits none P := by
  obtain ⟨d, ds, rfl⟩ := List.exists_cons_of_ne_nil hne
  exact ⟨.number d ds h, ⟨(lexemes_digits h).symm, Nat.zero_le _, Nat.zero_le _⟩, hP⟩

/-- `Text.decimal n` is a `Phrase.number` for a natural number `n`. -/
theorem decimal {n : Nat} (hP : P (.value n)) : Written (Text.decimal n) none P := by
  refine number (Text.decimal_ne_nil n) (fun c => Text.isDigit_of_mem_decimal) ?_
  rwa [Text.ofDigits_decimal]

theorem letter {name : Char} (h : name.isAlpha = true) (hP : P (.var name)) :
    Written [name] none P :=
  ⟨.letter name h, ⟨rfl, Nat.zero_le _, Nat.zero_le _⟩, hP⟩

/-- A term is `Written` as such on any level (`Phrase.ofTerm`). -/
theorem ofTerm {text : List Char} (h : Written text none P) (level : Option Tier) :
    Written text level P := by
  obtain ⟨p, ⟨hp, hdepth, hjoints⟩, htree⟩ := h
  refine ⟨.ofTerm p level, ⟨?_, ?_, ?_⟩, ?_⟩
  · show (Phrase.ofTerm p level).lexemes = _
    rw [Phrase.lexemes_ofTerm, hp]
  · rw [Phrase.depth_ofTerm]
    exact hdepth
  · rw [Phrase.joints_ofTerm]
    exact hjoints
  · rw [Phrase.leftTree_ofTerm]
    exact htree

/-- `'(' :: (text ++ [')'])` is a term if `text` is an expression (`Phrase.parentheses`). -/
theorem parentheses {text : List Char} (h : Written text (some .expression) P) :
    Written ('(' :: (text ++ [')'])) none P := by
  obtain ⟨p, ⟨hp, hdepth, hjoints⟩, htree⟩ := h
  refine ⟨.parentheses p, ⟨hp.parentheses, ?_, ?_⟩, htree⟩
  · show p.depth + 1 ≤ _
    rw [List.count_cons_self, List.count_append]
    omega
  · show p.joints ≤ _
    rw [List.countP_cons_of_neg (by decide), List.countP_append]
    omega

/-- A `bracket` with parentheses is an operand of any level, and one without is if its text is. -/
theorem bracket {needed : Bool} {text : List Char} {level : Option Tier}
    (h : Written text (some .expression) P) (hbare : needed = false → Written text level P) :
    Written (Expr.bracket needed text) level P := by
  cases needed with
  | false => exact hbare rfl
  | true => exact h.parentheses.ofTerm level

/-- A chain of `op.tier` is an expression too. -/
theorem fits {text : List Char} {op : Op} {level : Option Tier}
    (h : Written text (some op.tier) P)
    (hlevel : level = some op.tier ∨ level = some .expression) : Written text level P := by
  have hwiden : Written text (some .product) P → Written text (some .expression) P :=
    fun ⟨p, ⟨hp, hdepth, hjoints⟩, htree⟩ =>
      ⟨@Phrase.only .expression p, ⟨hp, hdepth, hjoints⟩, htree⟩
  rcases hlevel with rfl | rfl
  · exact h
  · cases op with
    | add => exact h
    | sub => exact h
    | mul => exact hwiden h
    | div => exact hwiden h

/-- A chain of `op.tier` goes on with another one (`Phrase.concat`). -/
theorem concat {text text' : List Char} {op : Op} (h : Written text (some op.tier) P)
    (h' : Written text' (some op.tier) Q)
    (htrees : ∀ p q : Phrase (some op.tier), P p.leftTree → Q q.leftTree →
      R (p.concat op op.joins_tier q).leftTree) :
    Written (text ++ op.symbol :: text') (some op.tier) R := by
  obtain ⟨p, hp, hptree⟩ := h
  obtain ⟨q, hq, hqtree⟩ := h'
  exact ⟨p.concat op op.joins_tier q, hp.concat hq, htrees p q hptree hqtree⟩

/-- A chain of `op.tier` goes on with an operand (`Phrase.snoc`). -/
theorem snoc {text text' : List Char} {op : Op} (h : Written text (some op.tier) P)
    (h' : Written text' op.tier.operand Q)
    (htrees : ∀ a b : Expr, a.Branching → b.Branching → P a → Q b → R (.operation op [a, b])) :
    Written (text ++ op.symbol :: text') (some op.tier) R := by
  obtain ⟨p, hp, hptree⟩ := h
  obtain ⟨q, ⟨hq, hdepth, hjoints⟩, hqtree⟩ := h'
  refine ⟨p.snoc op op.joins_tier q, ?_, ?_⟩
  · rw [Phrase.snoc_eq_concat]
    exact hp.concat ⟨hq, hdepth, hjoints⟩
  · rw [Phrase.leftTree_snoc]
    exact htrees _ _ p.branching_leftTree q.branching_leftTree hptree hqtree

/-- If `text` is written by a chain that flattens to `e`, the later operands `es` extend it to one
that flattens to `es.foldl (merge op) e`, up to how `write` and `read` treat an operand. -/
theorem later {op : Op} {text : List Char} {e : Expr} {es : List Expr} {write : Expr → List Char}
    {read : Expr → Expr} (h : Written text (some op.tier) fun t => t.flatten = e)
    (hes : ∀ x ∈ es, Written (write x) op.tier.operand fun t => t.flatten = read x) :
    Written (text ++ es.flatMap fun x => op.symbol :: write x) (some op.tier) fun t =>
      t.flatten = (es.map read).foldl (merge op) e := by
  induction es generalizing text e with
  | nil => simpa using h
  | cons x es ih =>
    have hsnoc : Written (text ++ op.symbol :: write x) (some op.tier) fun t =>
        t.flatten = merge op e (read x) := by
      refine h.snoc (hes x (by simp)) ?_
      rintro a b ha hb rfl hread
      rw [flatten_binary op ha hb, hread]
    have hstep := ih hsnoc fun y hy => hes y (List.mem_cons_of_mem x hy)
    rw [List.flatMap_cons, List.map_cons, List.foldl_cons]
    simpa using hstep

end Written

/-! ### Operands of flat expressions -/

theorem fitsIn_expression (e : Expr) : e.FitsIn (some .expression) := by
  cases e with
  | value n => trivial
  | var name => trivial
  | operation op operands => exact Or.inr rfl

/-- A first operand that `bracketedFirst op` leaves bare is a chain of `op.tier`. -/
theorem fitsIn_of_bracketedFirst {op : Op} {e : Expr} (h : e.bracketedFirst op = false) :
    e.FitsIn (some op.tier) := by
  cases e with
  | value n => trivial
  | var name => trivial
  | operation op' operands =>
    have hprecedence : ¬ op'.precedence < op.precedence := by simpa [bracketedFirst] using h
    -- an operator binds no less tightly exactly if its tier is the same or a lower one
    have htier : op.tier = op'.tier ∨ op.tier = .expression := by
      revert hprecedence
      cases op <;> cases op' <;> decide
    rcases htier with htier | htier
    · exact Or.inl (congrArg some htier)
    · exact Or.inr (congrArg some htier)

/-- A later operand that `bracketedLater op` leaves bare is an operand of `op.tier`, unless it is an
operation of the associative operator `op` itself. -/
theorem fitsIn_of_bracketedLater {op : Op} {e : Expr} (h : e.bracketedLater op = false)
    (hflat : op.isAssociative = true → e.isOperation op = false) : e.FitsIn op.tier.operand := by
  cases e with
  | value n => trivial
  | var name => trivial
  | operation op' operands =>
    have hne : op.isAssociative = true → op' ≠ op := by simpa [isOperation] using hflat
    have htier : op.tier.operand = some op'.tier := by
      revert h hne
      cases op <;> cases op' <;> simp [bracketedLater, Op.precedence, Op.isAssociative] <;> rfl
    exact Or.inl htier

/-- `bracket needed text` is `Written` on `level`, if `text` is on every level that `e` fits in and
`e` fits in `level` where it is bare. -/
theorem Written.bracket_of_fitsIn {text : List Char} {e : Expr} {needed : Bool}
    {level : Option Tier} {P : Expr → Prop} (h : ∀ level, e.FitsIn level → Written text level P)
    (hbare : needed = false → e.FitsIn level) : Written (Expr.bracket needed text) level P :=
  (h _ e.fitsIn_expression).bracket fun hneeded => h level (hbare hneeded)

/-- `merge op a x` appends `x` to `a.operandsUnder op`, unless `op` is associative and the operator
of `x`. -/
theorem merge_of_flat {op : Op} {x : Expr} (h : op.isAssociative = true → x.isOperation op = false)
    (a : Expr) : merge op a x = .operation op (a.operandsUnder op ++ [x]) := by
  rw [merge]
  split
  · rename_i hop
    rw [operandsUnder_of_isOperation_eq_false (h hop)]
  · rfl

/-- `es.foldl (merge op) e` is the operation on `e :: es`, if none of them is merged. -/
theorem foldl_merge {op : Op} {e : Expr} {es : List Expr} (hne : es ≠ [])
    (he : e.isOperation op = false)
    (hes : ∀ x ∈ es, op.isAssociative = true → x.isOperation op = false) :
    es.foldl (merge op) e = .operation op (e :: es) := by
  have hfold : ∀ es : List Expr, (∀ x ∈ es, op.isAssociative = true → x.isOperation op = false) →
      ∀ before, es.foldl (merge op) (.operation op before) = .operation op (before ++ es) := by
    intro es
    induction es with
    | nil => simp
    | cons x es ih =>
      intro hes before
      have ih := ih fun y hy => hes y (List.mem_cons_of_mem x hy)
      rw [List.foldl_cons, merge_of_flat (hes x (by simp)), operandsUnder_operation_self, ih]
      simp
  obtain ⟨x, es, rfl⟩ := List.exists_cons_of_ne_nil hne
  rw [List.foldl_cons, merge_of_flat (hes x (by simp)), operandsUnder_of_isOperation_eq_false he,
    hfold es fun y hy => hes y (List.mem_cons_of_mem x hy)]
  rfl

/-- `e.codedLine code` is `Written`, on every level that `e` fits in, by a phrase whose left tree
`Means` `e.encode code`. It is enough to show this for an operation (`hoperation`): that `text`,
written by a chain for the first operand `e`, is extended by the later operands `es`. -/
theorem Everywhere.written_codedLine {Q : Op → List Expr → Prop} {Means : Expr → Expr → Prop}
    {code : Int → Nat} (hne : ∀ op operands, Q op operands → operands ≠ [])
    (hvalue : ∀ n : Nat, Means (.value n) (.value n)) (hvar : ∀ name, Means (.var name) (.var name))
    (hoperation : ∀ op e es text, Q op (e :: es) →
      Written text (some op.tier) (fun t => Means t (e.encode code)) →
      (∀ x ∈ es, ∀ level, x.FitsIn level →
        Written (x.codedLine code) level fun t => Means t (x.encode code)) →
      Written (text ++ es.flatMap fun x =>
          op.symbol :: Expr.bracket (x.bracketedLater op) (x.codedLine code)) (some op.tier)
        fun t => Means t (.operation op (e.encode code :: es.map (encode code))))
    {e : Expr} (h : Everywhere Q e)
    (hvars : ∀ name, .var name ∈ e.postOrder → name.isAlpha = true) {level : Option Tier}
    (hlevel : e.FitsIn level) :
    Written (e.codedLine code) level fun t => Means t (e.encode code) := by
  induction e generalizing level with
  | value n =>
    have hnumber : Written (codedLine code (.value n)) none fun t =>
        Means t (encode code (.value n)) := by
      rw [codedLine_value]
      exact Written.decimal (hvalue (code n))
    exact hnumber.ofTerm level
  | var name =>
    have hletter : name.isAlpha = true := hvars name (by simp [postOrder])
    have hname : Written (codedLine code (.var name)) none fun t =>
        Means t (encode code (.var name)) := by
      rw [codedLine_var]
      exact Written.letter hletter (hvar name)
    exact hname.ofTerm level
  | operation op operands ih =>
    obtain ⟨hop, hoperands⟩ := (everywhere_operation ..).1 h
    have ih : ∀ x ∈ operands, ∀ level, x.FitsIn level →
        Written (x.codedLine code) level fun t => Means t (x.encode code) := by
      intro x hx level
      refine @ih x hx (hoperands x hx) (fun name hname => hvars name ?_) level
      exact mem_postOrder_operation_of_mem hx hname
    obtain ⟨e, es, rfl⟩ := List.exists_cons_of_ne_nil (hne op operands hop)
    have hfirst : Written (Expr.bracket (e.bracketedFirst op) (e.codedLine code)) (some op.tier)
        fun t => Means t (e.encode code) :=
      Written.bracket_of_fitsIn (ih e (by simp)) fitsIn_of_bracketedFirst
    have hchain := hoperation op e es _ hop hfirst fun x hx => ih x (List.mem_cons_of_mem e hx)
    rw [← codedLine_operation_cons, ← List.map_cons, ← encode_operation] at hchain
    exact hchain.fits hlevel

/-- `e.codedLine code` is `Written` by a phrase whose left tree flattens to `e.encode code`, if `e`
is `Flat`. -/
theorem Flat.written_codedLine {e : Expr} (hflat : e.Flat) (code : Int → Nat)
    (hvars : ∀ name, .var name ∈ e.postOrder → name.isAlpha = true) {level : Option Tier}
    (hlevel : e.FitsIn level) :
    Written (e.codedLine code) level fun t => t.flatten = e.encode code := by
  refine Everywhere.written_codedLine ?_ ?_ ?_ ?_ hflat hvars hlevel
  · rintro op operands ⟨hlen, -⟩
    exact List.ne_nil_of_length_pos (by omega)
  · intro n
    rfl
  · intro name
    rfl
  · rintro op e es text ⟨hlen, hmergeable⟩ hfirst hwritten
    have hes : es ≠ [] := by
      rintro rfl
      simp at hlen
    have he : e.isOperation op = false := hmergeable e (by simp [mergeable]; split <;> simp)
    have hlater : ∀ x ∈ es, op.isAssociative = true → x.isOperation op = false := by
      intro x hx hop
      refine hmergeable x ?_
      rw [mergeable, if_pos hop]
      exact List.mem_cons_of_mem e hx
    -- no later operand could have been merged, so each of them is an operand of the chain
    have hrest : ∀ x ∈ es, Written (Expr.bracket (x.bracketedLater op) (x.codedLine code))
        op.tier.operand fun t => t.flatten = x.encode code := fun x hx =>
      Written.bracket_of_fitsIn (hwritten x hx) fun h => fitsIn_of_bracketedLater h (hlater x hx)
    have hchain := hfirst.later hrest
    rwa [foldl_merge (by simpa using hes) (by simpa using he) (by simpa using hlater)] at hchain

/-- `e.bareLine` is `WrittenAs` `e`, on every level that `e` fits in, if `e` is `Flat`. -/
theorem Flat.writtenAs {e : Expr} (hflat : e.Flat) (hleaves : e.Writable) {level : Option Tier}
    (hlevel : e.FitsIn level) : WrittenAs e.bareLine level e := by
  have hcoded := hflat.written_codedLine Int.toNat hleaves.var hlevel
  rw [hleaves.codedLine_toNat, encode_toNat hleaves.value] at hcoded
  exact writtenAs_iff_written.2 hcoded

end Expr

/-- `parseRaw` of the line of a `Flat` expression `e`, without its spaces, flattens to `e`, if the
limits are no less than the numbers of `'('` and of operators in the line. -/
theorem flatten_parseRaw_bareLine {e : Expr} (hflat : e.Flat)
    (hvalues : ∀ n, .value n ∈ e.postOrder → 0 ≤ n)
    (hvars : ∀ name, .var name ∈ e.postOrder → name.isAlpha = true) {depth height : Nat}
    (hdepth : e.line.count '(' ≤ depth) (hheight : e.line.countP isOperator ≤ height) :
    ∃ r, parseRaw ⟨depth, height⟩ (e.line.filter (· ≠ ' ')) = .ok r ∧ r.flatten = e := by
  obtain ⟨p, hp, he, hpdepth, hpjoints⟩ := hflat.writtenAs ⟨hvalues, hvars⟩ e.fitsIn_expression
  have hwrites : p.Writes e.bareLine := ⟨hp, hpdepth, hpjoints⟩
  rw [← Expr.count_openParen_bareLine] at hdepth
  rw [← Expr.countP_isOperator_bareLine] at hheight
  refine ⟨p.rawTree, hwrites.parseRaw_eq_ok hdepth hheight, ?_⟩
  rw [p.flatten_rawTree, he]

/-- The expression `a - b + 2 * (c + 1)`. -/
def sumOfProducts : Expr :=
  .operation .add [.operation .sub [.var 'a', .var 'b'],
    .operation .mul [.value 2, .operation .add [.var 'c', .value 1]]]

theorem parseRaw_sumOfProducts :
    ∃ r, parseRaw ⟨1, 4⟩ ['a', '-', 'b', '+', '2', '*', '(', 'c', '+', '1', ')'] = .ok r ∧
      r.flatten = sumOfProducts := by
  have hflat : sumOfProducts.Flat := by
    simp [sumOfProducts, Expr.Flat, Expr.mergeable, Expr.isOperation, Op.isAssociative]
  have hvalues : ∀ n, .value n ∈ sumOfProducts.postOrder → 0 ≤ n := by
    simp [sumOfProducts, Expr.postOrder, Expr.postOrderEach]
  have hvars : ∀ name, .var name ∈ sumOfProducts.postOrder → name.isAlpha = true := by
    simp [sumOfProducts, Expr.postOrder, Expr.postOrderEach]
  exact flatten_parseRaw_bareLine hflat hvalues hvars (by decide) (by decide)

end Reckon
