import Mathlib.Data.List.Basic
import Reckon.Expr.PostOrder

/-!
# The traversal in post-order

The traversal of an expression visits what the recursion lists, in the same order, and nothing else
(`walk_yields`). What is compared are places, not expressions: an expression may occur in many
places, and every one of them is visited once.

The stack alone does not say what a traversal has left. An operation on it may have its operands
ahead or behind, and the place visited last decides. `Left last stack places` says that `places` are
left if `stack` is reached with `last` as the place visited last. It is true at the start, and every
step takes the first of the places away (`Left.next`). An operation is found on top with its last
operand visited last only if its operands were put on the stack before, because until then nothing
inside of it was visited (`Outside`).
-/

namespace Reckon

/-! ### Places in post-order -/

namespace Expr

mutual

/-- The places of an expression at `path` and of all expressions inside it, in post-order. -/
def placesAt (path : List Nat) : Expr → List Place
  | .value n => [⟨path, .value n⟩]
  | .var name => [⟨path, .var name⟩]
  | .operation op operands => placesFrom path 0 operands ++ [⟨path, .operation op operands⟩]

/-- The places in operands of the operation at `path`, the first of which has position `i`. -/
def placesFrom (path : List Nat) (i : Nat) : List Expr → List Place
  | [] => []
  | e :: es => placesAt (i :: path) e ++ placesFrom path (i + 1) es

end

/-- The places of an expression and of all expressions inside it, in post-order. -/
def places (e : Expr) : List Place :=
  e.placesAt []

/-- The operands of an operation. A leaf has none. -/
def operands : Expr → List Expr
  | .operation _ operands => operands
  | .value _ | .var _ => []

/-- The expression that a path leads to. -/
def inside? (e : Expr) : List Nat → Option Expr
  | [] => some e
  | i :: path => (e.inside? path).bind fun outer => outer.operands[i]?

end Expr

/-- Of two paths, the first one comes before the second in post-order: it goes on where the second
one ends, or turns off to an operand further left. -/
inductive Precedes : List Nat → List Nat → Prop where
  | inside (inner : List Nat) (i : Nat) (path : List Nat) : Precedes (inner ++ i :: path) path
  | left {i j : Nat} (h : i < j) (inner inner' path : List Nat) :
      Precedes (inner ++ i :: path) (inner' ++ j :: path)

theorem Precedes.ne {p q : List Nat} (h : Precedes p q) : p ≠ q := by
  intro heq
  cases h with
  | inside inner i =>
    have hlen := congrArg List.length heq
    simp only [List.length_append, List.length_cons] at hlen
    omega
  | left h inner inner' path =>
    have hlen := congrArg List.length heq
    simp only [List.length_append, List.length_cons] at hlen
    obtain ⟨-, htail⟩ := List.append_inj heq (by omega)
    have hij := (List.cons.inj htail).1
    omega

namespace Expr

theorem length_postOrder (e : Expr) : e.postOrder.length = e.size := by
  induction e with
  | value n => rfl
  | var name => rfl
  | operation op operands ih =>
    have hsum : ∀ es : List Expr, (∀ e ∈ es, e.postOrder.length = e.size) →
        (es.flatMap postOrder).length + 1 = (es.map size).foldr (· + ·) 1 := by
      intro es
      induction es with
      | nil => exact fun _ => rfl
      | cons e es ihes =>
        intro hes
        have hlater := ihes fun x hx => hes x (List.mem_cons_of_mem e hx)
        rw [List.flatMap_cons, List.length_append, hes e (by simp), List.map_cons, List.foldr_cons,
          ← hlater, Nat.add_assoc]
    rw [postOrder_operation, List.length_append, List.length_singleton, hsum operands ih,
      size_operation]

/-- `placesAt` lists the expressions in `postOrder`. -/
theorem map_expr_placesAt (path : List Nat) (e : Expr) :
    (e.placesAt path).map Place.expr = e.postOrder := by
  induction e generalizing path with
  | value n => rfl
  | var name => rfl
  | operation op operands ih =>
    have hfrom : ∀ (i : Nat) (es : List Expr), (∀ e ∈ es, e ∈ operands) →
        (placesFrom path i es).map Place.expr = es.flatMap postOrder := by
      intro i es
      induction es generalizing i with
      | nil => exact fun _ => rfl
      | cons e es ihes =>
        intro hes
        rw [placesFrom, List.map_append, ih e (hes e (by simp)), List.flatMap_cons,
          ihes (i + 1) fun x hx => hes x (List.mem_cons_of_mem e hx)]
    rw [placesAt, List.map_append, hfrom 0 operands fun e he => he, postOrder_operation]
    rfl

theorem mem_placesFrom_iff {path : List Nat} {i : Nat} {es : List Expr} {place : Place} :
    place ∈ placesFrom path i es ↔
      ∃ (k : Nat) (e : Expr), es[k]? = some e ∧ place ∈ e.placesAt ((i + k) :: path) := by
  induction es generalizing i with
  | nil => simp [placesFrom]
  | cons e es ih =>
    rw [placesFrom, List.mem_append, ih]
    constructor
    · rintro (h | ⟨k, e', he', h⟩)
      · exact ⟨0, e, rfl, h⟩
      · exact ⟨k + 1, e', he', by rwa [Nat.add_right_comm] at h⟩
    · rintro ⟨_ | k, e', he', h⟩
      · obtain rfl := Option.some.inj he'
        exact Or.inl h
      · exact Or.inr ⟨k, e', he', by rwa [Nat.add_right_comm]⟩

theorem inside?_concat (e : Expr) (inner : List Nat) (i : Nat) :
    e.inside? (inner ++ [i]) = e.operands[i]?.bind fun operand => operand.inside? inner := by
  induction inner with
  | nil => simp [inside?]
  | cons j inner ih => rw [List.cons_append, inside?, ih, Option.bind_assoc]; rfl

/-- `inside?` leads to the expression itself, or through one of its operands. -/
theorem exists_inside?_iff {e x : Expr} {path q : List Nat} :
    (∃ inner, q = inner ++ path ∧ e.inside? inner = some x) ↔
      (∃ i operand, e.operands[i]? = some operand ∧
        ∃ inner, q = inner ++ i :: path ∧ operand.inside? inner = some x) ∨ (q = path ∧ x = e) := by
  constructor
  · rintro ⟨inner, rfl, h⟩
    rcases List.eq_nil_or_concat' inner with rfl | ⟨inner, i, rfl⟩
    · exact Or.inr ⟨rfl, (Option.some.inj h).symm⟩
    · rw [inside?_concat, Option.bind_eq_some_iff] at h
      obtain ⟨operand, hoperand, h⟩ := h
      exact Or.inl ⟨i, operand, hoperand, inner, by simp, h⟩
  · rintro (⟨i, operand, hoperand, inner, rfl, h⟩ | ⟨rfl, rfl⟩)
    · refine ⟨inner ++ [i], by simp, ?_⟩
      rw [inside?_concat, hoperand]
      exact h
    · exact ⟨[], rfl, rfl⟩

/-- `placesAt` lists what `inside?` leads to. -/
theorem mem_placesAt_iff {e x : Expr} {path q : List Nat} :
    ⟨q, x⟩ ∈ e.placesAt path ↔ ∃ inner, q = inner ++ path ∧ e.inside? inner = some x := by
  induction e generalizing path with
  | value n => rw [exists_inside?_iff]; simp [placesAt, operands]
  | var name => rw [exists_inside?_iff]; simp [placesAt, operands]
  | operation op es ih =>
    have hoperand : ∀ k e, es[k]? = some e →
        (⟨q, x⟩ ∈ e.placesAt (k :: path) ↔
          ∃ inner, q = inner ++ k :: path ∧ e.inside? inner = some x) :=
      fun k e he => ih e (List.mem_of_getElem? he)
    rw [exists_inside?_iff, placesAt, List.mem_append, mem_placesFrom_iff, List.mem_singleton]
    refine or_congr ?_ (by simp)
    constructor
    · rintro ⟨k, e, he, h⟩
      rw [Nat.zero_add] at h
      exact ⟨k, e, he, (hoperand k e he).1 h⟩
    · rintro ⟨k, e, he, h⟩
      refine ⟨k, e, he, ?_⟩
      rw [Nat.zero_add]
      exact (hoperand k e he).2 h

/-- A place in `placesAt` `Precedes` those behind it. -/
theorem pairwise_precedes_placesAt (path : List Nat) (e : Expr) :
    (e.placesAt path).Pairwise fun a b => Precedes a.path b.path := by
  induction e generalizing path with
  | value n => exact List.pairwise_singleton _ _
  | var name => exact List.pairwise_singleton _ _
  | operation op operands ih =>
    have hfrom : ∀ (i : Nat) (es : List Expr), (∀ e ∈ es, e ∈ operands) →
        (placesFrom path i es).Pairwise fun a b => Precedes a.path b.path := by
      intro i es
      induction es generalizing i with
      | nil => exact fun _ => .nil
      | cons e es ihes =>
        intro hes
        rw [placesFrom, List.pairwise_append]
        refine ⟨ih e (hes e (by simp)) _,
          ihes (i + 1) fun x hx => hes x (List.mem_cons_of_mem e hx), ?_⟩
        rintro ⟨p, x⟩ hx ⟨q, y⟩ hy
        obtain ⟨inner, rfl, -⟩ := mem_placesAt_iff.1 hx
        obtain ⟨k, e', -, hy⟩ := mem_placesFrom_iff.1 hy
        obtain ⟨inner', rfl, -⟩ := mem_placesAt_iff.1 hy
        exact .left (by omega) inner inner' path
    rw [placesAt, List.pairwise_append]
    refine ⟨hfrom 0 operands fun e he => he, List.pairwise_singleton _ _, ?_⟩
    rintro ⟨p, x⟩ hx place hplace
    obtain ⟨k, e, -, hx⟩ := mem_placesFrom_iff.1 hx
    obtain ⟨inner, rfl, -⟩ := mem_placesAt_iff.1 hx
    rw [List.mem_singleton] at hplace
    subst hplace
    exact .inside inner _ path

/-- No path is in `placesAt` twice. -/
theorem nodup_map_path_placesAt (path : List Nat) (e : Expr) :
    ((e.placesAt path).map Place.path).Nodup := by
  rw [List.Nodup, List.pairwise_map]
  exact (pairwise_precedes_placesAt path e).imp Precedes.ne

end Expr

/-! ### What a traversal has left -/

/-- What was visited last is not inside of the expression at `path`. -/
def Outside (path : List Nat) (last : Option (List Nat)) : Prop :=
  ∀ inner i, last ≠ some (inner ++ i :: path)

theorem outside_none (path : List Nat) : Outside path none := by
  intro inner i h
  contradiction

/-- What is `Outside` an operation is `Outside` its operands. -/
theorem Outside.operand {path : List Nat} {last : Option (List Nat)} (h : Outside path last)
    (k : Nat) : Outside (k :: path) last := by
  intro inner i hlast
  refine h (inner ++ [i]) k ?_
  rw [hlast, List.append_assoc]
  rfl

/-- An operand is `Outside` another one. -/
theorem outside_sibling (path : List Nat) (i j : Nat) : Outside (j :: path) (some (i :: path)) := by
  intro inner k h
  have hlen := congrArg List.length (Option.some.inj h)
  simp only [List.length_append, List.length_cons] at hlen
  omega

namespace Walk

open Reckon.Expr (placesAt placesFrom)

/-- A traversal that comes to `stack` when `last` was visited last has `places` left. -/
inductive Left : Option (List Nat) → List Place → List Place → Prop where
  | finished (last : Option (List Nat)) : Left last [] []
  /-- An expression with all that is inside of it is ahead. -/
  | ahead {last : Option (List Nat)} {path : List Nat} {e : Expr} {below places : List Place}
      (h : Outside path last) (hbelow : Left (some path) below places) :
      Left last (⟨path, e⟩ :: below) (e.placesAt path ++ places)
  /-- The operands of an operation were visited. -/
  | entered {path : List Nat} {op : Op} {e : Expr} {es : List Expr} {below places : List Place}
      (hbelow : Left (some path) below places) :
      Left (some (es.length :: path)) (⟨path, .operation op (e :: es)⟩ :: below)
        (⟨path, .operation op (e :: es)⟩ :: places)

theorem operandsFrom_cons (path : List Nat) (i : Nat) (e : Expr) (es : List Expr) :
    Place.operandsFrom path i (e :: es) = ⟨i :: path, e⟩ :: Place.operandsFrom path (i + 1) es := by
  have hshift : (fun k x => (⟨(i + (k + 1)) :: path, x⟩ : Place)) =
      fun k x => ⟨(i + 1 + k) :: path, x⟩ := by
    funext k x
    rw [Nat.add_comm k 1, Nat.add_assoc]
  rw [Place.operandsFrom, List.mapIdx_cons, hshift]
  rfl

/-- Behind the operand at `i`, the later ones are left, and then the operation. -/
theorem Left.operandsFrom {path : List Nat} {op : Op} {e : Expr} {es : List Expr}
    {below places : List Place} (h : Left (some path) below places) {i : Nat} {later : List Expr}
    (hlen : es.length = i + later.length) :
    Left (some (i :: path))
      (Place.operandsFrom path (i + 1) later ++ ⟨path, .operation op (e :: es)⟩ :: below)
      (placesFrom path (i + 1) later ++ ⟨path, .operation op (e :: es)⟩ :: places) := by
  induction later generalizing i with
  | nil =>
    obtain rfl : es.length = i := hlen
    exact .entered h
  | cons operand later ih =>
    rw [List.length_cons] at hlen
    rw [operandsFrom_cons, placesFrom, List.cons_append, List.append_assoc]
    exact .ahead (outside_sibling path i (i + 1)) (ih (by omega))

/-- `descend` into an expression that is ahead leads to the first of the places that are left. -/
theorem Left.descend {last : Option (List Nat)} {path : List Nat} {e : Expr}
    {below places : List Place} (h : Outside path last) (hbelow : Left (some path) below places) :
    ∃ later, e.placesAt path ++ places = (Walk.descend last path e below).1 :: later ∧
      Left (some (Walk.descend last path e below).1.path) (Walk.descend last path e below).2
        later := by
  induction e generalizing path below places with
  | value n => exact ⟨places, rfl, hbelow⟩
  | var name => exact ⟨places, rfl, hbelow⟩
  | operation op operands ih =>
    cases operands with
    | nil => exact ⟨places, rfl, hbelow⟩
    | cons e es =>
      have hlast : last ≠ some (es.length :: path) := h [] es.length
      have hoperands : Left (some (0 :: path))
          (Place.operandsFrom path 1 es ++ ⟨path, .operation op (e :: es)⟩ :: below)
          (placesFrom path 1 es ++ ⟨path, .operation op (e :: es)⟩ :: places) :=
        hbelow.operandsFrom (by omega)
      obtain ⟨later, hlater, hleft⟩ := ih e (by simp) (h.operand 0) hoperands
      rw [Walk.descend, if_neg hlast]
      refine ⟨later, ?_, hleft⟩
      rw [← hlater, placesAt, placesFrom]
      simp

/-- `next` takes the first of the places that are left. -/
theorem Left.next {w : Walk} {places : List Place} (h : Left w.last w.stack places) :
    w.next.1 = places.head? ∧ Left w.next.2.last w.next.2.stack places.tail := by
  obtain ⟨stack, last⟩ := w
  cases h with
  | finished => exact ⟨rfl, .finished last⟩
  | ahead h hbelow =>
    obtain ⟨later, hlater, hleft⟩ := Left.descend h hbelow
    rw [next_cons, hlater]
    exact ⟨rfl, hleft⟩
  | @entered path op e es below places hbelow =>
    have hvisit : Walk.descend (some (es.length :: path)) path (.operation op (e :: es)) below =
        (⟨path, .operation op (e :: es)⟩, below) := by
      rw [Walk.descend, if_pos rfl]
    rw [next_cons, hvisit]
    exact ⟨rfl, hbelow⟩

/-- What a traversal yields at the step number `n`, counted from zero. -/
def yields : Nat → Walk → Option Place
  | 0, w => w.next.1
  | n + 1, w => yields n w.next.2

/-- `yields` are the places that are left, step by step, and after that nothing any more. -/
theorem Left.yields_eq {w : Walk} {places : List Place} (h : Left w.last w.stack places) (n : Nat) :
    w.yields n = places[n]? := by
  induction n generalizing w places with
  | zero => rw [yields, h.next.1, List.head?_eq_getElem?]
  | succ n ih => rw [yields, ih h.next.2, List.getElem?_tail]

theorem Left.take_eq {w : Walk} {places : List Place} (h : Left w.last w.stack places) (n : Nat) :
    w.take n = places.take n := by
  induction n generalizing w places with
  | zero => rw [List.take_zero, take]
  | succ n ih =>
    obtain ⟨hfirst, hlater⟩ := h.next
    rw [take]
    cases hnext : w.next with
    | mk first rest =>
      rw [hnext] at hfirst hlater
      cases places with
      | nil =>
        obtain rfl : first = none := hfirst
        rfl
      | cons place places =>
        obtain rfl : first = some place := hfirst
        have htake : rest.take n = places.take n := ih hlater
        rw [List.take_succ_cons, ← htake]

end Walk

/-! ### Traversals from their start -/

namespace Expr

theorem left_walk (e : Expr) : Walk.Left e.walk.last e.walk.stack e.places := by
  have hleft := Walk.Left.ahead (e := e) (outside_none []) (.finished (some []))
  rwa [List.append_nil] at hleft

/-- `toList` of a `walk` is the `postOrder`. -/
theorem toList_walk (e : Expr) : e.walk.toList = e.postOrder := by
  have hlen : e.places.length = e.size := by
    rw [← length_postOrder, ← map_expr_placesAt [], List.length_map, places]
  have hsize : (e.walk.stack.map fun place => place.expr.size).foldr (· + ·) 0 = e.size := rfl
  rw [Walk.toList, e.left_walk.take_eq, hsize, ← hlen, List.take_length, places, map_expr_placesAt]

/-- A `walk` `yields` at every step the next of the `places` that the recursion lists, and nothing
once there are no more. These are what the paths lead to, each of them once, what is inside of an
operation before it and its operands from left to right. -/
theorem walk_yields (e : Expr) :
    (∀ n, e.walk.yields n = e.places[n]?) ∧
    (∀ path x, ⟨path, x⟩ ∈ e.places ↔ e.inside? path = some x) ∧
    (e.places.map Place.path).Nodup ∧
    (e.places.Pairwise fun a b => Precedes a.path b.path) ∧
    e.places.map Place.expr = e.postOrder ∧ e.walk.toList = e.postOrder := by
  refine ⟨e.left_walk.yields_eq, ?_, nodup_map_path_placesAt [] e, pairwise_precedes_placesAt [] e,
    map_expr_placesAt [] e, e.toList_walk⟩
  intro path x
  rw [places, mem_placesAt_iff]
  simp

/-- In `x + x` the variable is visited twice, in two places. -/
example : (operation .add [.var 'x', .var 'x']).walk.take 4 =
    [⟨[0], .var 'x'⟩, ⟨[1], .var 'x'⟩, ⟨[], .operation .add [.var 'x', .var 'x']⟩] := by
  decide

end Expr

end Reckon
