import Mathlib.Data.List.Basic
import Mathlib.Data.List.Chain
import Reckon.Expr.Line
import Reckon.Expr.PostOrder
import Reckon.Proofs.Lexeme

/-!
# The pieces of a line

The line of an expression is put together from pieces: integers with their sign, names, operators
with a space on each side, and parentheses (`line_eq_flatMap_chars`). Unlike the lexemes of a text,
pieces tell the sign of an integer from an operator.

No piece is the beginning of another one, except for integers, and two integers are never next to
each other. So a line can be taken apart into its pieces in one way only (`pieces_eq_of_line_eq`).
-/

namespace Reckon

/-- A piece of a line. -/
inductive Piece where
  | value (n : Int)
  | var (name : Char)
  | operator (op : Op)
  | openParen
  | closeParen
  deriving DecidableEq

namespace Piece

/-- The characters of a piece. -/
def chars : Piece → List Char
  | value n => Text.decimal n
  | var name => [name]
  | operator op => [' ', op.symbol, ' ']
  | openParen => ['(']
  | closeParen => [')']

/-- Tests whether a piece is an integer. -/
def isValue : Piece → Bool
  | value _ => true
  | _ => false

/-- Puts pieces in parentheses if asked to. -/
def bracket (needed : Bool) (pieces : List Piece) : List Piece :=
  if needed then openParen :: (pieces ++ [closeParen]) else pieces

end Piece

namespace Expr

mutual

/-- The pieces of the line of an expression. -/
def pieces : Expr → List Piece
  | .value n => [.value n]
  | .var name => [.var name]
  | .operation op operands => firstPieces op operands
termination_by structural e => e

/-- The pieces of the operands of `op`, from the first one on. -/
def firstPieces (op : Op) : List Expr → List Piece
  | [] => []
  | e :: es => Piece.bracket (e.bracketedFirst op) e.pieces ++ laterPieces op es
termination_by structural es => es

/-- The pieces of operands of `op` after the first one. -/
def laterPieces (op : Op) : List Expr → List Piece
  | [] => []
  | e :: es =>
    .operator op :: (Piece.bracket (e.bracketedLater op) e.pieces ++ laterPieces op es)
termination_by structural es => es

end

@[simp]
theorem pieces_value (n : Int) : pieces (.value n) = [.value n] := rfl

@[simp]
theorem pieces_var (name : Char) : pieces (.var name) = [.var name] := rfl

@[simp]
theorem pieces_operation_nil (op : Op) : pieces (.operation op []) = [] := rfl

theorem laterPieces_eq_flatMap (op : Op) (es : List Expr) :
    laterPieces op es =
      es.flatMap fun x => .operator op :: Piece.bracket (x.bracketedLater op) x.pieces := by
  induction es with
  | nil => rfl
  | cons e es ih => rw [laterPieces, ih, List.flatMap_cons, List.cons_append]

/-- `pieces` of an operation are those of the first operand and then the `laterPieces`. -/
theorem pieces_operation_cons (op : Op) (e : Expr) (es : List Expr) :
    pieces (.operation op (e :: es)) =
      Piece.bracket (e.bracketedFirst op) e.pieces ++ laterPieces op es := rfl

/-! ### What is written for the pieces -/

section Written

variable {write : Piece → List Char} (hopen : write .openParen = ['('])
  (hclose : write .closeParen = [')'])

include hopen hclose

theorem flatMap_bracket (needed : Bool) (ps : List Piece) :
    (Piece.bracket needed ps).flatMap write = bracket needed (ps.flatMap write) := by
  cases needed with
  | false => rfl
  | true => simp [Piece.bracket, bracket, hopen, hclose]

/-- What is written for the `pieces` of an operation begins with the first operand, and each later
one follows an operator. -/
theorem flatMap_pieces_operation_cons (op : Op) (e : Expr) (es : List Expr) :
    (pieces (.operation op (e :: es))).flatMap write =
      bracket (e.bracketedFirst op) (e.pieces.flatMap write) ++ es.flatMap fun x =>
        write (.operator op) ++ bracket (x.bracketedLater op) (x.pieces.flatMap write) := by
  rw [pieces_operation_cons, laterPieces_eq_flatMap, List.flatMap_append,
    flatMap_bracket hopen hclose, List.flatMap_assoc]
  simp only [List.flatMap_cons, flatMap_bracket hopen hclose]

end Written

/-- `line` is put together from the `pieces`. -/
theorem line_eq_flatMap_chars (e : Expr) : e.line = e.pieces.flatMap Piece.chars := by
  induction e with
  | value n => simp [Piece.chars]
  | var name => simp [Piece.chars]
  | operation op operands ih =>
    cases operands with
    | nil => rfl
    | cons e es =>
      have hlater : ∀ x ∈ es, lineLater op x = Piece.chars (.operator op) ++
          bracket (x.bracketedLater op) (x.pieces.flatMap Piece.chars) := by
        intro x hx
        rw [lineLater, ih x (List.mem_cons_of_mem e hx)]
        rfl
      rw [line_operation_cons, flatMap_pieces_operation_cons rfl rfl, ih e (by simp),
        List.flatMap_congr hlater]

end Expr

/-! ### Pieces next to each other -/

namespace Piece

/-- No two integers are next to each other. -/
def Separated : List Piece → Prop :=
  List.IsChain fun a b => a.isValue = true → b.isValue = false

/-- `Separated` pieces may follow any others if they do not begin with an integer. -/
theorem Separated.append {ps qs : List Piece} (hps : Separated ps) (hqs : Separated qs)
    (hhead : ∀ q ∈ qs.head?, q.isValue = false) : Separated (ps ++ qs) :=
  List.isChain_append.2 ⟨hps, hqs, fun _ _ q hq _ => hhead q hq⟩

/-- Any `Separated` pieces may follow one that is no integer. -/
theorem Separated.cons {p : Piece} {ps : List Piece} (hp : p.isValue = false)
    (hps : Separated ps) : Separated (p :: ps) :=
  List.isChain_cons.2 ⟨fun _ _ h => absurd h (by simp [hp]), hps⟩

theorem Separated.bracket {ps : List Piece} (h : Separated ps) (needed : Bool) :
    Separated (Piece.bracket needed ps) := by
  cases needed with
  | false => exact h
  | true => exact .cons rfl (h.append (List.isChain_singleton _) (by simp [isValue]))

end Piece

namespace Expr

open Piece (Separated)

theorem separated_laterPieces (op : Op) {es : List Expr} (h : ∀ e ∈ es, Separated e.pieces) :
    Separated (laterPieces op es) ∧ ∀ p ∈ (laterPieces op es).head?, p.isValue = false := by
  induction es with
  | nil => exact ⟨List.isChain_nil, by simp [laterPieces]⟩
  | cons e es ih =>
    obtain ⟨hes, hhead⟩ := ih fun a ha => h a (List.mem_cons_of_mem e ha)
    exact ⟨.cons rfl (((h e (by simp)).bracket _).append hes hhead),
      by simp [laterPieces, Piece.isValue]⟩

/-- `pieces` of an expression are `Separated`. -/
theorem separated_pieces (e : Expr) : Separated e.pieces := by
  induction e with
  | value n => exact List.isChain_singleton _
  | var name => exact List.isChain_singleton _
  | operation op operands ih =>
    cases operands with
    | nil => exact List.isChain_nil
    | cons e es =>
      obtain ⟨hes, hhead⟩ := separated_laterPieces op fun a ha => ih a (List.mem_cons_of_mem e ha)
      exact ((ih e (by simp)).bracket _).append hes hhead

end Expr

/-! ### Taking a line apart -/

theorem Op.symbol_injective : Function.Injective Op.symbol := by
  intro op op' h
  have hsome : some op = some op' := by rw [← op.ofChar?_symbol, h, op'.ofChar?_symbol]
  exact Option.some.inj hsome

namespace Text

/-- The text does not go on with a numeral in front of it. -/
def NoDigitFirst (text : List Char) : Prop :=
  ∀ c ∈ text.head?, c.isDigit = false

/-- `decimal` of a natural number ends where the digits end. -/
theorem decimal_natCast_append_inj {m n : Nat} {s t : List Char} (hs : NoDigitFirst s)
    (ht : NoDigitFirst t) (h : decimal m ++ s = decimal n ++ t) : m = n ∧ s = t := by
  have htake : ∀ (k : Nat) (u : List Char), NoDigitFirst u →
      (decimal k ++ u).takeWhile Char.isDigit = decimal k := by
    intro k u hu
    rw [List.takeWhile_append_of_pos fun c hc => isDigit_of_mem_decimal hc]
    cases u with
    | nil => simp
    | cons c u =>
      have hc : c.isDigit = false := hu c rfl
      simp [hc]
  have hdigits : decimal m = decimal n := by rw [← htake m s hs, h, htake n t ht]
  rw [hdigits] at h
  refine ⟨?_, List.append_cancel_left h⟩
  rw [← ofDigits_decimal m, hdigits, ofDigits_decimal]

/-- `decimal` of a natural number begins with a digit. -/
theorem exists_decimal_natCast_eq_cons (n : Nat) :
    ∃ d ds, decimal n = d :: ds ∧ d.isDigit = true := by
  obtain ⟨d, ds, hd⟩ := List.exists_cons_of_ne_nil (decimal_ne_nil n)
  exact ⟨d, ds, hd, @isDigit_of_mem_decimal n d (by simp [hd])⟩

theorem decimal_natCast_append_ne {n : Nat} {c : Char} (hc : c.isDigit = false)
    (s t : List Char) : decimal n ++ s ≠ c :: t := by
  obtain ⟨d, ds, hd, hdigit⟩ := exists_decimal_natCast_eq_cons n
  rw [hd, List.cons_append]
  rintro h
  obtain ⟨rfl, -⟩ := List.cons.inj h
  simp [hc] at hdigit

/-- `decimal` of a negative integer is that of its opposite, behind a minus sign. -/
theorem decimal_negSucc_eq (n : Nat) : decimal (.negSucc n) = '-' :: decimal (n + 1 : Nat) := by
  rw [decimal_negSucc, decimal_natCast]

/-- `decimal` ends where the digits end. -/
theorem decimal_append_inj {m n : Int} {s t : List Char} (hs : NoDigitFirst s)
    (ht : NoDigitFirst t) (h : decimal m ++ s = decimal n ++ t) : m = n ∧ s = t := by
  cases m with
  | ofNat m =>
    cases n with
    | ofNat n =>
      obtain ⟨rfl, rfl⟩ := decimal_natCast_append_inj hs ht h
      exact ⟨rfl, rfl⟩
    | negSucc n =>
      rw [decimal_negSucc_eq] at h
      exact absurd h (decimal_natCast_append_ne (by decide) s _)
  | negSucc m =>
    rw [decimal_negSucc_eq] at h
    cases n with
    | ofNat n => exact absurd h.symm (decimal_natCast_append_ne (by decide) t _)
    | negSucc n =>
      rw [decimal_negSucc_eq] at h
      obtain ⟨hmn, rfl⟩ := decimal_natCast_append_inj hs ht (List.cons.inj h).2
      exact ⟨by rw [Nat.add_right_cancel hmn], rfl⟩

end Text

namespace Piece

/-- A piece that is a name is a letter. -/
def Legible (p : Piece) : Prop :=
  ∀ name, p = var name → name.isAlpha = true

/-- Only an integer begins with a digit or a minus sign, if the piece is `Legible`. -/
theorem Legible.exists_chars_eq_cons {p : Piece} (h : p.Legible) :
    ∃ c cs, p.chars = c :: cs ∧ p.isValue = (c == '-' || c.isDigit) := by
  cases p with
  | value n =>
    cases n with
    | ofNat n =>
      obtain ⟨d, ds, hd, hdigit⟩ := Text.exists_decimal_natCast_eq_cons n
      exact ⟨d, ds, hd, by simp [isValue, hdigit]⟩
    | negSucc n => exact ⟨_, _, Text.decimal_negSucc_eq n, rfl⟩
  | var name =>
    have hname : name.isAlpha = true := h name rfl
    refine ⟨name, [], rfl, ?_⟩
    have hminus : (name == '-') = false := by
      rw [beq_eq_false_iff_ne]
      rintro rfl
      contradiction
    rw [hminus, Token.Kind.isDigit_eq_false_of_isAlpha hname]
    rfl
  | operator op => exact ⟨' ', _, rfl, rfl⟩
  | openParen => exact ⟨'(', _, rfl, rfl⟩
  | closeParen => exact ⟨')', _, rfl, rfl⟩

/-- `Legible` pieces in front of two texts are the same if this gives the same text. An integer must
not be followed by a digit, since it would go on then. -/
theorem chars_append_inj {p q : Piece} (hp : p.Legible) (hq : q.Legible) {s t : List Char}
    (hs : p.isValue = true → Text.NoDigitFirst s) (ht : q.isValue = true → Text.NoDigitFirst t)
    (h : p.chars ++ s = q.chars ++ t) : p = q ∧ s = t := by
  obtain ⟨c, cs, hc, hpvalue⟩ := hp.exists_chars_eq_cons
  obtain ⟨d, ds, hd, hqvalue⟩ := hq.exists_chars_eq_cons
  have hcd : c = d := by
    rw [hc, hd] at h
    exact (List.cons.inj h).1
  have hvalue : p.isValue = q.isValue := by rw [hpvalue, hqvalue, hcd]
  -- the other pieces begin with a letter, a blank or a parenthesis
  cases p with
  | value m =>
    cases q with
    | value n =>
      obtain ⟨rfl, rfl⟩ := Text.decimal_append_inj (hs rfl) (ht rfl) h
      exact ⟨rfl, rfl⟩
    | var | operator | openParen | closeParen => simp [isValue] at hvalue
  | var name =>
    have hname : name.isAlpha = true := hp name rfl
    cases q with
    | value n => simp [isValue] at hvalue
    | var name' => simpa [chars] using h
    | operator | openParen | closeParen =>
      obtain ⟨rfl, -⟩ := List.cons.inj h
      contradiction
  | operator op =>
    cases q with
    | value n => simp [isValue] at hvalue
    | var name =>
      obtain ⟨rfl, -⟩ := List.cons.inj h
      exact absurd (hq _ rfl) (by decide)
    | operator op' =>
      have hsymbol : op.symbol = op'.symbol ∧ s = t := by simpa [chars] using h
      exact ⟨congrArg _ (Op.symbol_injective hsymbol.1), hsymbol.2⟩
    | openParen | closeParen => simp [chars] at h
  | openParen =>
    cases q with
    | value n => simp [isValue] at hvalue
    | var name =>
      obtain ⟨rfl, -⟩ := List.cons.inj h
      exact absurd (hq _ rfl) (by decide)
    | openParen => simpa [chars] using h
    | operator | closeParen => simp [chars] at h
  | closeParen =>
    cases q with
    | value n => simp [isValue] at hvalue
    | var name =>
      obtain ⟨rfl, -⟩ := List.cons.inj h
      exact absurd (hq _ rfl) (by decide)
    | closeParen => simpa [chars] using h
    | operator | openParen => simp [chars] at h

/-- What is written for `Legible` pieces begins with a digit only if the first piece is an
integer. -/
theorem noDigitFirst_flatMap_chars {ps : List Piece} (hlegible : ∀ p ∈ ps, p.Legible)
    (hhead : ∀ p ∈ ps.head?, p.isValue = false) : Text.NoDigitFirst (ps.flatMap chars) := by
  cases ps with
  | nil => simp [Text.NoDigitFirst]
  | cons p ps =>
    obtain ⟨c, cs, hc, hvalue⟩ := (hlegible p (by simp)).exists_chars_eq_cons
    rw [hhead p rfl] at hvalue
    intro c' hc'
    rw [List.flatMap_cons, hc, List.cons_append, List.head?_cons] at hc'
    obtain rfl := Option.some.inj hc'
    simp_all

/-- There is only one way to take apart what is written for pieces that are `Legible` and
`Separated`. -/
theorem eq_of_flatMap_chars_eq {ps qs : List Piece} (hps : Separated ps) (hqs : Separated qs)
    (hplegible : ∀ p ∈ ps, p.Legible) (hqlegible : ∀ q ∈ qs, q.Legible)
    (h : ps.flatMap chars = qs.flatMap chars) : ps = qs := by
  induction ps generalizing qs with
  | nil =>
    cases qs with
    | nil => rfl
    | cons q qs =>
      obtain ⟨c, cs, hc, -⟩ := (hqlegible q (by simp)).exists_chars_eq_cons
      simp [hc] at h
  | cons p ps ih =>
    cases qs with
    | nil =>
      obtain ⟨c, cs, hc, -⟩ := (hplegible p (by simp)).exists_chars_eq_cons
      simp [hc] at h
    | cons q qs =>
      obtain ⟨hp, hpchain⟩ := List.isChain_cons.1 hps
      obtain ⟨hq, hqchain⟩ := List.isChain_cons.1 hqs
      have hplater := fun a ha => hplegible a (List.mem_cons_of_mem p ha)
      have hqlater := fun a ha => hqlegible a (List.mem_cons_of_mem q ha)
      obtain ⟨rfl, hrest⟩ := chars_append_inj (hplegible p (by simp)) (hqlegible q (by simp))
        (fun hvalue => noDigitFirst_flatMap_chars hplater fun a ha => hp a ha hvalue)
        (fun hvalue => noDigitFirst_flatMap_chars hqlater fun a ha => hq a ha hvalue) h
      rw [ih hpchain hqchain hplater hqlater hrest]

end Piece

/-! ### Lines -/

namespace Expr

theorem forall_mem_bracket {P : Piece → Prop} (hopen : P .openParen) (hclose : P .closeParen)
    (needed : Bool) {ps : List Piece} (h : ∀ p ∈ ps, P p) : ∀ p ∈ Piece.bracket needed ps, P p := by
  cases needed with
  | false => exact h
  | true =>
    simp only [Piece.bracket, ↓reduceIte, List.mem_cons, List.mem_append, List.not_mem_nil,
      or_false]
    rintro p (rfl | hp | rfl)
    · exact hopen
    · exact h p hp
    · exact hclose

/-- What holds of parentheses, of operators and of the leaves of an expression holds of all its
`pieces`. -/
theorem forall_mem_pieces {P : Piece → Prop} (hopen : P .openParen) (hclose : P .closeParen)
    (hoperator : ∀ op, P (.operator op)) {e : Expr}
    (hvalue : ∀ n, .value n ∈ e.postOrder → P (.value n))
    (hvar : ∀ name, .var name ∈ e.postOrder → P (.var name)) : ∀ p ∈ e.pieces, P p := by
  induction e with
  | value n => simpa [postOrder] using hvalue
  | var name => simpa [postOrder] using hvar
  | operation op operands ih =>
    have hoperands : ∀ e ∈ operands, ∀ p ∈ e.pieces, P p := fun e he =>
      ih e he (fun n hn => hvalue n (mem_postOrder_operation_of_mem he hn))
        fun name hname => hvar name (mem_postOrder_operation_of_mem he hname)
    cases operands with
    | nil => simp
    | cons e es =>
      rw [pieces_operation_cons, laterPieces_eq_flatMap]
      intro p hp
      rcases List.mem_append.1 hp with hp | hp
      · exact forall_mem_bracket hopen hclose _ (hoperands e (by simp)) p hp
      · obtain ⟨x, hx, hp⟩ := List.mem_flatMap.1 hp
        rcases List.mem_cons.1 hp with rfl | hp
        · exact hoperator op
        · exact forall_mem_bracket hopen hclose _ (hoperands x (List.mem_cons_of_mem e hx)) p hp

/-- All `pieces` are `Legible` if the variables are letters. -/
theorem legible_of_mem_pieces {e : Expr}
    (h : ∀ name, .var name ∈ e.postOrder → name.isAlpha = true) : ∀ p ∈ e.pieces, p.Legible := by
  refine forall_mem_pieces ?_ ?_ ?_ ?_ ?_
  · simp [Piece.Legible]
  · simp [Piece.Legible]
  · simp [Piece.Legible]
  · simp [Piece.Legible]
  · simpa [Piece.Legible] using h

/-- Expressions with the same `line` have the same `pieces`, if their variables are letters. -/
theorem pieces_eq_of_line_eq {a b : Expr}
    (ha : ∀ name, .var name ∈ a.postOrder → name.isAlpha = true)
    (hb : ∀ name, .var name ∈ b.postOrder → name.isAlpha = true) (h : a.line = b.line) :
    a.pieces = b.pieces := by
  rw [line_eq_flatMap_chars, line_eq_flatMap_chars] at h
  exact Piece.eq_of_flatMap_chars_eq a.separated_pieces b.separated_pieces
    (legible_of_mem_pieces ha) (legible_of_mem_pieces hb) h

end Expr

end Reckon
