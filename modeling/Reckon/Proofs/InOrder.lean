import Reckon.Proofs.Chain

/-!
# Operations in order

The operations of an expression are listed in the order in which their operators are written, each
between what stands on its left and what stands on its right (`Expr.inOrder`). A row has an
operation for each later operand (`Row.operations`), and with those of the operands between them
these are the operations of its tree (`Row.inOrder_rawTree`).

This tells where an operation stands: the links of a chain belong to the operations of its row, one
by one. If a chain cannot be closed, the error is at the link of an operation that is one too tall
(`Chain.tooTall_of_close_eq_error`).
-/

namespace Reckon

/-- A place where an operator joins two operands. -/
structure Joint where
  op : Op
  /-- Where the operator stands. Side by side terms have none; then it is where the next one
  begins. -/
  span : Span
  deriving DecidableEq, Repr

/-- Where a link is joined to what follows it. -/
def Chain.Link.joint (link : Chain.Link) : Joint := ⟨link.op, link.span⟩

namespace Expr

mutual

/-- The operations in an expression, each behind its first operand and before the later ones. -/
def inOrder : Expr → List Expr
  | .value _ | .var _ => []
  | .operation op [] => [.operation op []]
  | .operation op (e :: es) => inOrder e ++ .operation op (e :: es) :: inOrderEach es

/-- The operations in the expressions of a list, one after the other. -/
def inOrderEach : List Expr → List Expr
  | [] => []
  | e :: es => inOrder e ++ inOrderEach es

end

/-- In `inOrder`, an operation of two operands stands between those in `a` and those in `b`. -/
theorem inOrder_binary (op : Op) (a b : Expr) :
    inOrder (.operation op [a, b]) = a.inOrder ++ .operation op [a, b] :: b.inOrder := by
  simp [inOrder, inOrderEach]

end Expr

namespace Row

/-- The operations that `nestRight` builds, one for each later operand. -/
def nestOperations (first : Expr) : List (Op × Expr) → List Expr
  | [] => []
  | (op, e) :: later => .operation op [first, nestRight e later] :: nestOperations e later

/-- The operations that are built when runs are grouped from the left, each of them as by
`nestRight`. -/
def foldOperations (first : Expr) : List (List (Op × Expr)) → List Expr
  | [] => []
  | run :: runs => nestOperations first run ++ foldOperations (nestRight first run) runs

/-- The operations of `row.rawTree` that are not in an operand, one for each later operand. -/
def operations (row : Row) : List Expr :=
  foldOperations row.first row.runs

/-- The operations in the operands, with the expressions `es` between them. -/
def weave (row : Row) (es : List Expr) : List Expr :=
  row.first.inOrder ++ (es.zip row.later).flatMap fun x => x.1 :: x.2.2.inOrder

@[simp]
theorem weave_single (e : Expr) (es : List Expr) : (single e).weave es = e.inOrder := by
  simp [weave, single]

@[simp]
theorem weave_prepend (e : Expr) (op : Op) (row : Row) (e' : Expr) (es : List Expr) :
    (row.prepend e op).weave (e' :: es) = e.inOrder ++ e' :: row.weave es := by
  simp [weave, prepend]

/-! ### One operation for each later operand -/

/-- Each of the `nestOperations` has the operator in front of its later operand. -/
theorem forall₂_nestOperations (first : Expr) (later : List (Op × Expr)) :
    List.Forall₂ (fun x e => e.isOperation x.1 = true) later (nestOperations first later) := by
  induction later generalizing first with
  | nil => exact .nil
  | cons x later ih => exact .cons (by simp [Expr.isOperation]) (ih x.2)

theorem forall₂_foldOperations (first : Expr) (runs : List (List (Op × Expr))) :
    List.Forall₂ (fun x e => e.isOperation x.1 = true) runs.flatten
      (foldOperations first runs) := by
  induction runs generalizing first with
  | nil => exact .nil
  | cons run runs ih => exact List.rel_append (forall₂_nestOperations first run) (ih _)

theorem forall₂_operations (row : Row) :
    List.Forall₂ (fun x e => e.isOperation x.1 = true) row.later row.operations := by
  have h := forall₂_foldOperations row.first row.runs
  rwa [runs, List.flatten_splitBy] at h

theorem length_nestOperations (first : Expr) (later : List (Op × Expr)) :
    (nestOperations first later).length = later.length :=
  (forall₂_nestOperations first later).length_eq.symm

/-- `inOrder` of `nestRight` is the `weave` of the `nestOperations`. -/
theorem inOrder_nestRight (first : Expr) (later : List (Op × Expr)) :
    (nestRight first later).inOrder = weave ⟨first, later⟩ (nestOperations first later) := by
  induction later generalizing first with
  | nil => simp [weave, nestRight]
  | cons x later ih =>
    rw [nestRight, Expr.inOrder_binary, ih, nestOperations]
    simp [weave]

/-- `inOrder` of `row.rawTree` is the `weave` of the `operations`. -/
theorem inOrder_rawTree (row : Row) : row.rawTree.inOrder = row.weave row.operations := by
  have hfold : ∀ (runs : List (List (Op × Expr))) (first : Expr),
      (runs.foldl nestRight first).inOrder =
        weave ⟨first, runs.flatten⟩ (foldOperations first runs) := by
    intro runs
    induction runs with
    | nil => simp [weave]
    | cons run runs ih =>
      intro first
      -- the finished run is the first operand, and its operations come before all others
      have hnest := inOrder_nestRight first run
      simp only [weave] at hnest ih ⊢
      rw [List.foldl_cons, ih, hnest, foldOperations, List.flatten_cons,
        List.zip_append (length_nestOperations first run), List.flatMap_append, List.append_assoc]
  have h := hfold row.runs row.first
  rw [runs, List.flatten_splitBy] at h
  exact h

/-! ### Groupings -/

theorem foldOperations_append (first : Expr) (xs ys : List (List (Op × Expr))) :
    foldOperations first (xs ++ ys) =
      foldOperations first xs ++ foldOperations (xs.foldl nestRight first) ys := by
  induction xs generalizing first with
  | nil => rfl
  | cons run xs ih =>
    rw [List.cons_append, foldOperations, ih, foldOperations, List.append_assoc, List.foldl_cons]

/-- If no run goes over from `xs` to `ys`, the `operations` of both are those of `xs` and then those
of `ys` with the `rawTree` of what comes before as the first operand. -/
theorem operations_append {first : Expr} {xs ys : List (Op × Expr)}
    (h : ∀ x ∈ xs.getLast?, ∀ y ∈ ys.head?, Chain.sameRun x.1 y.1 = false) :
    operations ⟨first, xs ++ ys⟩ =
      operations ⟨first, xs⟩ ++ operations ⟨rawTree ⟨first, xs⟩, ys⟩ := by
  rw [operations, runs, List.splitBy_append h, foldOperations_append]
  rfl

theorem operations_of_isChain {row : Row}
    (h : row.later.IsChain fun x y => Chain.sameRun x.1 y.1 = true) :
    row.operations = nestOperations row.first row.later := by
  by_cases hne : row.later = []
  · rw [operations, runs, hne]
    rfl
  · rw [operations, runs, List.splitBy_of_isChain hne h, foldOperations, foldOperations,
      List.append_nil]

end Row

namespace Chain

/-! ### The operations of a chain -/

/-- The operations of `nested links last`. -/
def nestedOperations (links : List Link) (last : Expr) : List Expr :=
  match links with
  | [] => []
  | link :: links =>
    let joined := .operation link.op [link.operand.expr, last]
    nestedOperations links joined ++ [joined]

theorem nestOperations_row (links : List Link) (last : Row) :
    Row.nestOperations (row links last).first (row links last).later =
      nestedOperations links (Row.nestRight last.first last.later) ++
        Row.nestOperations last.first last.later := by
  induction links generalizing last with
  | nil => rfl
  | cons link links ih =>
    rw [row_cons, ih, nestedOperations, List.append_assoc]
    rfl

theorem length_nestedOperations (links : List Link) (last : Expr) :
    (nestedOperations links last).length = links.length := by
  induction links generalizing last with
  | nil => rfl
  | cons link links ih => simp [nestedOperations, ih]

theorem operations_row_of_oneRun {links : List Link} (h : OneRun links) (e : Expr) :
    (row links (.single e)).operations = nestedOperations links e := by
  rw [Row.operations_of_isChain (isChain_later_row h e), nestOperations_row]
  exact List.append_nil _

/-- A finished run has its `nestedOperations`, and counts as the first operand of the next one. -/
theorem operations_row_run {before link : Link} {run links : List Link}
    (hrun : OneRun (before :: run)) (hnext : sameRun before.op link.op = false) {left : Measured}
    (hleft : left.expr = nested (before :: run) link.operand.expr) (e : Expr) :
    (row (links ++ link :: before :: run) (.single e)).operations =
      nestedOperations (before :: run) link.operand.expr ++
        (row (links ++ [{ link with operand := left }]) (.single e)).operations := by
  obtain ⟨first, xs, ys, hsplit, hfirst, hrest, hcut⟩ := row_run run links hnext e
  rw [hsplit, Row.operations_append hcut, hrest, ← hfirst, operations_row_of_oneRun hrun,
    rawTree_row_of_oneRun hrun, hleft]

/-- The `operations` of a chain with their joints: `last` is the operand after all the links, and
the last link comes first. -/
def places (links : List Link) (last : Expr) : List (Joint × Expr) :=
  (links.reverse.map Link.joint).zip (row links (.single last)).operations

/-- In `places`, the operations of a finished run come before those that are built with it. -/
theorem places_run {before link : Link} {run links : List Link} (hrun : OneRun (before :: run))
    (hnext : sameRun before.op link.op = false) {left : Measured}
    (hleft : left.expr = nested (before :: run) link.operand.expr) (e : Expr) :
    places (links ++ link :: before :: run) e =
      ((before :: run).reverse.map Link.joint).zip
          (nestedOperations (before :: run) link.operand.expr) ++
        places (links ++ [{ link with operand := left }]) e := by
  have hsplit : (links ++ link :: before :: run).reverse.map Link.joint =
      (before :: run).reverse.map Link.joint ++
        (links ++ [{ link with operand := left }]).reverse.map Link.joint := by
    simp [Link.joint]
  rw [places, operations_row_run hrun hnext hleft, hsplit, List.zip_append, places]
  rw [List.length_map, List.length_reverse, length_nestedOperations]

/-! ### Where a chain is too tall -/

/-- The error is at the joint of one of the `places` whose operation has the height `limit + 1`. -/
def TooTall (limit : Nat) (places : List (Joint × Expr)) (error : Error) : Prop :=
  ∃ joint e, (joint, e) ∈ places ∧ e.height = limit + 1 ∧
    error = ⟨[joint.span], .expressionTooDeep limit⟩

theorem TooTall.mono {limit : Nat} {xs ys : List (Joint × Expr)} {error : Error}
    (h : TooTall limit xs error) (hsub : xs ⊆ ys) : TooTall limit ys error := by
  obtain ⟨joint, e, hmem, herror⟩ := h
  exact ⟨joint, e, hsub hmem, herror⟩

section Error

variable {limit : Nat} {links : List Link} {last : Measured} {error : Error}

/-- Where `join` fails on operands within the limit, the operation has the height `limit + 1`. -/
theorem height_of_join_eq_error {link : Link} {right : Measured}
    (hlink : link.operand.height ≤ limit) (hright : right.height ≤ limit)
    (h : join limit link right = .error error) :
    (Expr.operation link.op [link.operand.expr, right.expr]).height = limit + 1 ∧
      error = ⟨[link.span], .expressionTooDeep limit⟩ := by
  unfold join at h
  dsimp only at h
  split at h
  · rename_i hgt
    refine ⟨?_, (Except.error.inj h).symm⟩
    rw [Row.height_binary, link.operand.height_eq, right.height_eq]
    have : max link.operand.height right.height + 1 > limit := hgt
    omega
  · contradiction

/-- Where `nest` fails, one of the `nestedOperations` is `TooTall`. -/
theorem tooTall_of_nest_eq_error (hlinks : ∀ link ∈ links, link.operand.height ≤ limit)
    (hlast : last.height ≤ limit) (h : nest limit links last = .error error) :
    TooTall limit
      ((links.reverse.map Link.joint).zip (nestedOperations links last.expr)) error := by
  induction links generalizing last with
  | nil => contradiction
  | cons link links ih =>
    have hzip : ((link :: links).reverse.map Link.joint).zip
          (nestedOperations (link :: links) last.expr) =
        (links.reverse.map Link.joint).zip
            (nestedOperations links (.operation link.op [link.operand.expr, last.expr])) ++
          [(link.joint, .operation link.op [link.operand.expr, last.expr])] := by
      rw [List.reverse_cons, List.map_append, nestedOperations, List.zip_append]
      · rfl
      · rw [List.length_map, List.length_reverse, length_nestedOperations]
    rw [hzip]
    have hstep : nest limit (link :: links) last =
        join limit link last >>= fun right => nest limit links right := by
      simp [nest, List.foldlM_cons]
    rw [hstep] at h
    rcases bind_eq_error_iff.1 h with hjoin | ⟨right, hjoin, hnest⟩
    · -- the last link cannot be joined to the operand behind it
      obtain ⟨hheight, herror⟩ := height_of_join_eq_error (hlinks link (by simp)) hlast hjoin
      exact ⟨link.joint, _, List.mem_append_right _ List.mem_cons_self, hheight, herror⟩
    · obtain ⟨rfl, hright⟩ := join_eq_ok_iff.1 hjoin
      have hearlier := ih (fun l hl => hlinks l (List.mem_cons_of_mem link hl)) hright hnest
      exact hearlier.mono (List.subset_append_left _ _)

/-- Where `extend` fails on one of the links, or `nest` on the run that they end with, one of the
`places` of the whole chain is `TooTall`. The run that was begun stands for the links before the
others. -/
theorem tooTall_of_foldlM_extend_eq_error {run : List Link} (hrun : OneRun run)
    (hbegun : ∀ link ∈ run, link.operand.height ≤ limit)
    (hlinks : ∀ link ∈ links, link.operand.height ≤ limit) (hlast : last.height ≤ limit)
    (h : (links.foldlM (extend limit) run >>= fun run => nest limit run last) = .error error) :
    TooTall limit (places (links.reverse ++ run) last.expr) error := by
  induction links generalizing run with
  | nil =>
    rw [List.reverse_nil, List.nil_append, places, operations_row_of_oneRun hrun]
    exact tooTall_of_nest_eq_error hbegun hlast h
  | cons link links ih =>
    have hsplit : (link :: links).reverse ++ run = links.reverse ++ link :: run := by simp
    obtain ⟨hlink, hlinks⟩ := List.forall_mem_cons.1 hlinks
    have ih := fun run hrun hbegun => @ih run hrun hbegun hlinks
    rw [List.foldlM_cons] at h
    rw [hsplit]
    match run, hrun with
    | [], _ => exact ih [link] (List.isChain_singleton link) (by simpa using hlink) h
    | before :: run, hrun =>
      by_cases hsame : sameRun before.op link.op = true
      · rw [extend_cons, if_pos hsame] at h
        exact ih (link :: before :: run) (List.isChain_cons_cons.2 ⟨hsame, hrun⟩)
          (List.forall_mem_cons.2 ⟨hlink, hbegun⟩) h
      · have hnext : sameRun before.op link.op = false := by simpa using hsame
        rw [extend_cons, if_neg hsame] at h
        -- here a run ends, and its tree becomes the first operand of the next one
        cases hnest : nest limit (before :: run) link.operand with
        | error error' =>
          rw [hnest] at h
          obtain rfl := Except.error.inj h
          have hleft : (Measured.of (nested (before :: run) link.operand.expr)).expr =
            nested (before :: run) link.operand.expr := rfl
          rw [places_run hrun hnext hleft]
          exact (tooTall_of_nest_eq_error hbegun hlink hnest).mono (List.subset_append_left _ _)
        | ok left =>
          rw [hnest] at h
          obtain ⟨hleft, hheight⟩ := (nest_eq_ok_iff hlink).1 hnest
          rw [places_run hrun hnext hleft]
          have htall := ih [{ link with operand := left }] (List.isChain_singleton _)
            (by simpa using hheight) h
          exact htall.mono (List.subset_append_right _ _)

/-- Where `close` fails, one of the `places` of the chain is `TooTall`. -/
theorem tooTall_of_close_eq_error (hlinks : ∀ link ∈ links, link.operand.height ≤ limit)
    (hlast : last.height ≤ limit) (h : close limit links last = .error error) :
    TooTall limit (places links last.expr) error := by
  have htall := @tooTall_of_foldlM_extend_eq_error limit links.reverse last error []
    List.isChain_nil (by simp) (by simpa using hlinks) hlast h
  rwa [List.reverse_reverse, List.append_nil] at htall

end Error

end Chain

end Reckon
