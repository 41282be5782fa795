import Mathlib.Data.List.SplitBy
import Reckon.Parser.Chain
import Reckon.Proofs.Shape

/-!
# The tree of a chain

A chain of operands is a `Row`: its first operand, and each later one with the operator before it.
There are two ways to group a row into operations of two operands:

* `Row.leftTree` takes the operators strictly from the left;
* `Row.rawTree` takes *runs* from the left, where a run of the same associative operator is nested
  to the right.

`Chain.close` builds the second one. It succeeds exactly if that tree keeps within the limit, since
no operand of a tree is taller than the tree (`close_eq_ok_iff`), and fails with no other fault
(`fault_of_close_eq_error`).
-/

namespace Reckon

/-- `foldlM` fails as one of its steps does. -/
theorem error_of_foldlM_eq_error {ε α β : Type} {P : ε → Prop} {f : β → α → Except ε β}
    (hstep : ∀ b a e, f b a = .error e → P e) {l : List α} {b : β} {e : ε}
    (h : l.foldlM f b = .error e) : P e := by
  induction l generalizing b with
  | nil => contradiction
  | cons a l ih =>
    rw [List.foldlM_cons] at h
    rcases bind_eq_error_iff.1 h with hfirst | ⟨b', -, hlater⟩
    · exact hstep b a e hfirst
    · exact ih hlater

/-- Operands with an operator between each two. -/
structure Row where
  first : Expr
  /-- The later operands, each behind its operator. -/
  later : List (Op × Expr)

/-- An expression along with its height. -/
def Measured.of (e : Expr) : Measured := ⟨e, e.height, rfl⟩

namespace Row

/-- The row of a single operand. -/
def single (e : Expr) : Row := ⟨e, []⟩

/-- The row that goes on after an operand and an operator. -/
def prepend (e : Expr) (op : Op) (row : Row) : Row := ⟨e, (op, row.first) :: row.later⟩

/-- The operands. -/
def operands (row : Row) : List Expr := row.first :: row.later.map Prod.snd

/-- The operation on what stands on the left and on one more operand. -/
def extend (left : Expr) (x : Op × Expr) : Expr := .operation x.1 [left, x.2]

/-- Groups operands from the left. -/
def leftTree (row : Row) : Expr :=
  row.later.foldl extend row.first

/-- Groups operands from the right. -/
def nestRight (first : Expr) : List (Op × Expr) → Expr
  | [] => first
  | (op, e) :: later => .operation op [first, nestRight e later]

/-- The runs of a row: the later operands, divided where the operator changes or is not
associative. -/
def runs (row : Row) : List (List (Op × Expr)) :=
  row.later.splitBy fun x y => Chain.sameRun x.1 y.1

/-- Groups the operands of each run from the right, and the runs from the left. -/
def rawTree (row : Row) : Expr :=
  row.runs.foldl nestRight row.first

theorem first_mem_operands (row : Row) : row.first ∈ row.operands :=
  List.mem_cons_self

theorem mem_operands_of_mem_later {row : Row} {x : Op × Expr} (h : x ∈ row.later) :
    x.2 ∈ row.operands :=
  List.mem_cons_of_mem row.first (List.mem_map_of_mem h)

/-! ### Groupings -/

/-- `rawTree` groups piece by piece a row that is divided between two runs. -/
theorem rawTree_append {first : Expr} {xs ys : List (Op × Expr)}
    (h : ∀ x ∈ xs.getLast?, ∀ y ∈ ys.head?, Chain.sameRun x.1 y.1 = false) :
    rawTree ⟨first, xs ++ ys⟩ = rawTree ⟨rawTree ⟨first, xs⟩, ys⟩ := by
  rw [rawTree, runs, List.splitBy_append h, List.foldl_append]
  rfl

/-- `rawTree` of a single run is `nestRight`. -/
theorem rawTree_of_isChain {row : Row}
    (h : row.later.IsChain fun x y => Chain.sameRun x.1 y.1 = true) :
    row.rawTree = nestRight row.first row.later := by
  by_cases hne : row.later = []
  · rw [rawTree, runs, hne]
    rfl
  · rw [rawTree, runs, List.splitBy_of_isChain hne h]
    rfl

/-! ### What holds of the operands -/

section Operands

variable {P : Expr → Prop} {Q : Op → Prop}
  (hop : ∀ op a b, Q op → P a → P b → P (.operation op [a, b]))

include hop

theorem nestRight_of_forall {first : Expr} {later : List (Op × Expr)} (hfirst : P first)
    (hlater : ∀ x ∈ later, Q x.1 ∧ P x.2) : P (nestRight first later) := by
  induction later generalizing first with
  | nil => exact hfirst
  | cons x later ih =>
    obtain ⟨hx, hx'⟩ := hlater x (by simp)
    exact hop x.1 first _ hx hfirst (ih hx' fun y hy => hlater y (List.mem_cons_of_mem x hy))

/-- `row.rawTree` inherits `P` from the operands, if operations do so for the operators of `row`. -/
theorem rawTree_of_forall {row : Row} (hops : ∀ x ∈ row.later, Q x.1)
    (h : ∀ e ∈ row.operands, P e) : P row.rawTree := by
  -- over the runs, with what was grouped so far as the first operand
  have hfold : ∀ (runs : List (List (Op × Expr))) (first : Expr), P first →
      (∀ x ∈ runs.flatten, Q x.1 ∧ P x.2) → P (runs.foldl nestRight first) := by
    intro runs
    induction runs with
    | nil => exact fun first hfirst _ => hfirst
    | cons run runs ih =>
      intro first hfirst hruns
      rw [List.flatten_cons] at hruns
      have hrun : P (nestRight first run) :=
        nestRight_of_forall hop hfirst fun x hx => hruns x (List.mem_append_left _ hx)
      exact ih _ hrun fun x hx => hruns x (List.mem_append_right _ hx)
  refine hfold row.runs row.first (h _ row.first_mem_operands) ?_
  intro x hx
  rw [runs, List.flatten_splitBy] at hx
  exact ⟨hops x hx, h x.2 (mem_operands_of_mem_later hx)⟩

theorem foldl_extend_of_forall {first : Expr} {later : List (Op × Expr)} (hfirst : P first)
    (hlater : ∀ x ∈ later, Q x.1 ∧ P x.2) : P (later.foldl extend first) := by
  induction later generalizing first with
  | nil => exact hfirst
  | cons x later ih =>
    obtain ⟨hx, hx'⟩ := hlater x (by simp)
    exact ih (hop x.1 first x.2 hx hfirst hx') fun y hy => hlater y (List.mem_cons_of_mem x hy)

theorem leftTree_of_forall {row : Row} (hops : ∀ x ∈ row.later, Q x.1)
    (h : ∀ e ∈ row.operands, P e) : P row.leftTree :=
  foldl_extend_of_forall hop (h _ row.first_mem_operands) fun x hx =>
    ⟨hops x hx, h x.2 (mem_operands_of_mem_later hx)⟩

end Operands

section Branching

variable {first : Expr} {later : List (Op × Expr)} {row : Row}

theorem branching_nestRight (hfirst : first.Branching) (hlater : ∀ x ∈ later, x.2.Branching) :
    (nestRight first later).Branching :=
  nestRight_of_forall (Q := fun _ => True) (fun op _ _ _ => Expr.Branching.binary op) hfirst
    fun x hx => ⟨trivial, hlater x hx⟩

theorem branching_foldl_extend (hfirst : first.Branching) (hlater : ∀ x ∈ later, x.2.Branching) :
    (later.foldl extend first).Branching :=
  foldl_extend_of_forall (Q := fun _ => True) (fun op _ _ _ => Expr.Branching.binary op) hfirst
    fun x hx => ⟨trivial, hlater x hx⟩

theorem branching_rawTree (h : ∀ e ∈ row.operands, e.Branching) : row.rawTree.Branching :=
  rawTree_of_forall (Q := fun _ => True) (fun op _ _ _ => Expr.Branching.binary op)
    (fun _ _ => trivial) h

theorem branching_leftTree (h : ∀ e ∈ row.operands, e.Branching) : row.leftTree.Branching :=
  leftTree_of_forall (Q := fun _ => True) (fun op _ _ _ => Expr.Branching.binary op)
    (fun _ _ => trivial) h

end Branching

/-! ### Heights -/

theorem height_binary (op : Op) (a b : Expr) :
    (Expr.operation op [a, b]).height = max a.height b.height + 1 := by
  simp

theorem height_first_le_nestRight (first : Expr) (later : List (Op × Expr)) :
    first.height ≤ (nestRight first later).height := by
  cases later with
  | nil => exact Nat.le_refl _
  | cons x later =>
    rw [nestRight, height_binary]
    omega

theorem height_later_le_nestRight (first : Expr) {later : List (Op × Expr)} {x : Op × Expr}
    (hx : x ∈ later) : x.2.height ≤ (nestRight first later).height := by
  induction later generalizing first with
  | nil => simp at hx
  | cons y later ih =>
    rw [nestRight, height_binary]
    rcases List.mem_cons.1 hx with rfl | hx
    · have := height_first_le_nestRight x.2 later
      omega
    · have := ih y.2 hx
      omega

theorem height_first_le_foldl (first : Expr) (runs : List (List (Op × Expr))) :
    first.height ≤ (runs.foldl nestRight first).height := by
  induction runs generalizing first with
  | nil => exact Nat.le_refl _
  | cons run runs ih => exact (height_first_le_nestRight first run).trans (ih _)

theorem height_later_le_foldl (first : Expr) {runs : List (List (Op × Expr))} {x : Op × Expr}
    (hx : x ∈ runs.flatten) : x.2.height ≤ (runs.foldl nestRight first).height := by
  induction runs generalizing first with
  | nil => simp at hx
  | cons run runs ih =>
    rw [List.flatten_cons, List.mem_append] at hx
    rcases hx with hx | hx
    · exact (height_later_le_nestRight first hx).trans (height_first_le_foldl _ runs)
    · exact ih _ hx

/-- No operand is taller than `row.rawTree`. -/
theorem height_le_rawTree {row : Row} {e : Expr} (he : e ∈ row.operands) :
    e.height ≤ row.rawTree.height := by
  rcases List.mem_cons.1 he with rfl | he
  · exact height_first_le_foldl row.first row.runs
  · obtain ⟨x, hx, rfl⟩ := List.mem_map.1 he
    refine height_later_le_foldl row.first ?_
    rwa [runs, List.flatten_splitBy]

/-- The heights of later operands together, with one more for each operator. -/
def laterHeight : List (Op × Expr) → Nat
  | [] => 0
  | x :: later => x.2.height + 1 + laterHeight later

theorem laterHeight_append (xs ys : List (Op × Expr)) :
    laterHeight (xs ++ ys) = laterHeight xs + laterHeight ys := by
  induction xs with
  | nil => exact (Nat.zero_add _).symm
  | cons x xs ih =>
    rw [List.cons_append, laterHeight, ih, laterHeight]
    omega

/-- The heights of all operands together, with one more for each operator. -/
def totalHeight (row : Row) : Nat := row.first.height + laterHeight row.later

theorem totalHeight_prepend (e : Expr) (op : Op) (row : Row) :
    (row.prepend e op).totalHeight = e.height + row.totalHeight + 1 := by
  show e.height + (row.first.height + 1 + laterHeight row.later) =
    e.height + (row.first.height + laterHeight row.later) + 1
  omega

theorem height_nestRight_le (first : Expr) (later : List (Op × Expr)) :
    (nestRight first later).height ≤ first.height + laterHeight later := by
  induction later generalizing first with
  | nil => exact Nat.le_refl _
  | cons x later ih =>
    have ih := ih x.2
    rw [nestRight, height_binary, laterHeight]
    omega

/-- `row.rawTree` is no taller than all operands on top of each other. -/
theorem height_rawTree_le (row : Row) : row.rawTree.height ≤ row.totalHeight := by
  have hfold : ∀ (runs : List (List (Op × Expr))) (first : Expr),
      (runs.foldl nestRight first).height ≤ first.height + laterHeight runs.flatten := by
    intro runs
    induction runs with
    | nil => exact fun first => Nat.le_refl _
    | cons run runs ih =>
      intro first
      have hrun := height_nestRight_le first run
      have hruns := ih (nestRight first run)
      rw [List.foldl_cons, List.flatten_cons, laterHeight_append]
      omega
  have hrow := hfold row.runs row.first
  rw [runs, List.flatten_splitBy] at hrow
  exact hrow

end Row

namespace Chain

/-! ### The row of some links -/

/-- The row of a chain: `last` is the operand after all the links, and the last link comes first. -/
def row (links : List Link) (last : Row) : Row :=
  links.foldl (fun row link => row.prepend link.operand.expr link.op) last

theorem row_cons (link : Link) (links : List Link) (last : Row) :
    row (link :: links) last = row links (last.prepend link.operand.expr link.op) := rfl

theorem row_append (links links' : List Link) (last : Row) :
    row (links ++ links') last = row links' (row links last) :=
  List.foldl_append

/-- `row links` keeps the later operands of a row behind `links`. -/
theorem row_later (links : List Link) (e : Expr) (later : List (Op × Expr)) :
    row links ⟨e, later⟩ =
      ⟨(row links (.single e)).first, (row links (.single e)).later ++ later⟩ := by
  induction links generalizing e later with
  | nil => rfl
  | cons link links ih =>
    have h : row (link :: links) (.single e) = _ := ih link.operand.expr [(link.op, e)]
    have h' : row (link :: links) ⟨e, later⟩ = _ := ih link.operand.expr ((link.op, e) :: later)
    rw [h', h, List.append_assoc]
    rfl

/-- The operators of `row links` are those of `links`. -/
theorem map_fst_later_row (links : List Link) (e : Expr) :
    (row links (.single e)).later.map Prod.fst = links.reverse.map Link.op := by
  induction links generalizing e with
  | nil => rfl
  | cons link links ih =>
    have h : row (link :: links) (.single e) = _ := row_later links link.operand.expr [(link.op, e)]
    rw [h, List.map_append, ih, List.reverse_cons, List.map_append]
    rfl

theorem length_later_row (links : List Link) (e : Expr) :
    (row links (.single e)).later.length = links.length := by
  simpa using congrArg List.length (map_fst_later_row links e)

/-! ### Joining within the limit -/

theorem join_eq_ok_iff {limit : Nat} {link : Link} {right m : Measured} :
    join limit link right = .ok m ↔ m = .binary link.op link.operand right ∧ m.height ≤ limit := by
  unfold join
  dsimp only
  split
  · rename_i hgt
    constructor
    · simp
    · rintro ⟨rfl, hle⟩
      omega
  · rename_i hle
    constructor
    · intro h
      obtain rfl := Except.ok.inj h
      exact ⟨rfl, by omega⟩
    · rintro ⟨rfl, -⟩
      rfl

/-- The tree of links, all grouped from the right, in front of a tree. -/
def nested (links : List Link) (last : Expr) : Expr :=
  links.foldl (fun right link => .operation link.op [link.operand.expr, right]) last

theorem nestRight_row (links : List Link) (last : Row) :
    Row.nestRight (row links last).first (row links last).later =
      nested links (Row.nestRight last.first last.later) := by
  induction links generalizing last with
  | nil => rfl
  | cons link links ih => rw [row_cons, ih]; rfl

theorem height_le_nested (links : List Link) (last : Expr) :
    last.height ≤ (nested links last).height := by
  induction links generalizing last with
  | nil => exact Nat.le_refl _
  | cons link links ih =>
    have h := ih (.operation link.op [link.operand.expr, last])
    rw [Row.height_binary] at h
    show last.height ≤ (nested links (.operation link.op [link.operand.expr, last])).height
    omega

/-- `nest` succeeds exactly if `nested links last` keeps within the limit. -/
theorem nest_eq_ok_iff {limit : Nat} {links : List Link} {last m : Measured}
    (hlast : last.height ≤ limit) :
    nest limit links last = .ok m ↔ m.expr = nested links last.expr ∧ m.height ≤ limit := by
  induction links generalizing last with
  | nil =>
    constructor
    · intro h
      obtain rfl := Except.ok.inj h
      exact ⟨rfl, hlast⟩
    · rintro ⟨h, -⟩
      rw [Measured.ext h]
      rfl
  | cons link links ih =>
    have hstep : nest limit (link :: links) last =
        join limit link last >>= fun right => nest limit links right := by
      simp [nest, List.foldlM_cons]
    rw [hstep]
    by_cases hle : (Measured.binary link.op link.operand last).height ≤ limit
    · rw [join_eq_ok_iff.2 ⟨rfl, hle⟩]
      exact ih hle
    · -- what is too tall already only grows, so neither side can hold
      cases hjoin : join limit link last with
      | ok right =>
        obtain ⟨rfl, hle'⟩ := join_eq_ok_iff.1 hjoin
        exact absurd hle' hle
      | error error =>
        constructor
        · intro h
          contradiction
        · rintro ⟨hm, hmle⟩
          have hgrow := height_le_nested links (Measured.binary link.op link.operand last).expr
          rw [Measured.height_eq] at hgrow
          have hm' : m.expr = nested links (Measured.binary link.op link.operand last).expr := hm
          rw [← hm', m.height_eq] at hgrow
          omega

/-! ### Closing a chain -/

/-- The links belong to one run; the last link comes first. -/
def OneRun (links : List Link) : Prop :=
  links.IsChain fun link before => sameRun before.op link.op = true

theorem isChain_later_row {links : List Link} (h : OneRun links) (e : Expr) :
    (row links (.single e)).later.IsChain fun x y => sameRun x.1 y.1 = true := by
  have hops : ((row links (.single e)).later.map Prod.fst).IsChain
      fun op next => sameRun op next = true := by
    rw [map_fst_later_row, List.isChain_map, List.isChain_reverse]
    exact h
  rwa [List.isChain_map] at hops

/-- `rawTree` of the links of `OneRun` is `nested`. -/
theorem rawTree_row_of_oneRun {links : List Link} (h : OneRun links) (e : Expr) :
    (row links (.single e)).rawTree = nested links e := by
  rw [Row.rawTree_of_isChain (isChain_later_row h e), nestRight_row]
  rfl

/-- Where the run `before :: run` ends, the row is divided: `xs` are the operands of the run, and
`ys` goes on after the finished run `left` as its first operand. -/
theorem row_run {before link : Link} (run links : List Link)
    (hnext : sameRun before.op link.op = false) (e : Expr) :
    ∃ first xs ys, row (links ++ link :: before :: run) (.single e) = ⟨first, xs ++ ys⟩ ∧
      row (before :: run) (.single link.operand.expr) = ⟨first, xs⟩ ∧
      (∀ left : Measured, row (links ++ [{ link with operand := left }]) (.single e) =
        ⟨left.expr, ys⟩) ∧
      ∀ x ∈ xs.getLast?, ∀ y ∈ ys.head?, sameRun x.1 y.1 = false := by
  let last := row links (.single e)
  let front := row (before :: run) (.single link.operand.expr)
  have hfront : front = _ := row_later run before.operand.expr [(before.op, link.operand.expr)]
  refine ⟨front.first, front.later, (link.op, last.first) :: last.later, ?_, rfl, ?_, ?_⟩
  · rw [row_append]
    exact row_later (before :: run) link.operand.expr ((link.op, last.first) :: last.later)
  · intro left
    rw [row_append]
    rfl
  · intro x hx y hy
    rw [hfront, List.getLast?_append] at hx
    obtain rfl := Option.some.inj hx
    obtain rfl := Option.some.inj hy
    exact hnext

/-- `rawTree` takes a finished run for the first operand of the next one. -/
theorem rawTree_row_run {before link : Link} {run links : List Link}
    (hrun : OneRun (before :: run)) (hnext : sameRun before.op link.op = false) {left : Measured}
    (hleft : left.expr = nested (before :: run) link.operand.expr) (e : Expr) :
    (row (links ++ link :: before :: run) (.single e)).rawTree =
      (row (links ++ [{ link with operand := left }]) (.single e)).rawTree := by
  obtain ⟨first, xs, ys, hsplit, hfirst, hrest, hcut⟩ := row_run run links hnext e
  rw [hsplit, Row.rawTree_append hcut, hrest, ← hfirst, rawTree_row_of_oneRun hrun, hleft]

/-- `extend` adds a link to a run that it goes on with (`sameRun`), and else finishes the run and
begins another one. -/
theorem extend_cons (limit : Nat) (last : Link) (run : List Link) (link : Link) :
    extend limit (last :: run) link =
      if sameRun last.op link.op = true then .ok (link :: last :: run)
      else nest limit (last :: run) link.operand >>= fun left =>
        .ok [{ link with operand := left }] := rfl

/-- Extending `run` by `links` and nesting what comes of it succeeds exactly if `rawTree` of all of
them keeps within the limit. -/
theorem foldlM_extend_eq_ok_iff {limit : Nat} {links run : List Link} {last m : Measured}
    (hrun : OneRun run) (hlast : last.height ≤ limit)
    (hlinks : ∀ link ∈ links, link.operand.height ≤ limit) :
    (links.foldlM (extend limit) run >>= fun run => nest limit run last) = .ok m ↔
      m.expr = (row (links.reverse ++ run) (.single last.expr)).rawTree ∧ m.height ≤ limit := by
  -- on the links that are still to come; `run` is what `extend` has kept of those before them
  induction links generalizing run with
  | nil =>
    rw [List.reverse_nil, List.nil_append, rawTree_row_of_oneRun hrun]
    exact nest_eq_ok_iff hlast
  | cons link links ih =>
    have ih := fun run hrun => @ih run hrun fun l hl => hlinks l (List.mem_cons_of_mem link hl)
    have hsplit : links.reverse ++ link :: run = (link :: links).reverse ++ run := by simp
    rw [List.foldlM_cons, ← hsplit]
    match run, hrun with
    | [], _ => exact ih [link] (List.isChain_singleton link)
    | before :: run, hrun =>
      by_cases hsame : sameRun before.op link.op = true
      · rw [extend_cons, if_pos hsame]
        exact ih (link :: before :: run) (List.isChain_cons_cons.2 ⟨hsame, hrun⟩)
      · have hnext : sameRun before.op link.op = false := by simpa using hsame
        have hoperand : link.operand.height ≤ limit := hlinks link (by simp)
        rw [extend_cons, if_neg hsame]
        -- here a run ends, and its tree becomes the first operand of the next one
        cases hnest : nest limit (before :: run) link.operand with
        | ok left =>
          obtain ⟨hleft, -⟩ := (nest_eq_ok_iff hoperand).1 hnest
          rw [rawTree_row_run hrun hnext hleft]
          exact ih [{ link with operand := left }] (List.isChain_singleton _)
        | error error =>
          constructor
          · intro h
            contradiction
          · rintro ⟨hm, hmle⟩
            -- the finished run is an operand of the whole tree, so it cannot be too tall
            let left := Measured.of (nested (before :: run) link.operand.expr)
            have hleft : left.expr = nested (before :: run) link.operand.expr := rfl
            rw [rawTree_row_run hrun hnext hleft] at hm
            have hmem : left.expr ∈
                (row (links.reverse ++ [{ link with operand := left }])
                  (.single last.expr)).operands := by
              rw [row_append]
              exact List.mem_cons_self
            have hheight := Row.height_le_rawTree hmem
            rw [← hm, m.height_eq, left.height_eq] at hheight
            have hok := (nest_eq_ok_iff hoperand).2 ⟨rfl, hheight.trans hmle⟩
            rw [hnest] at hok
            contradiction

/-- `close` succeeds exactly if `rawTree` keeps within the limit, and returns it. -/
theorem close_eq_ok_iff {limit : Nat} {links : List Link} {last m : Measured}
    (hlast : last.height ≤ limit) (hlinks : ∀ link ∈ links, link.operand.height ≤ limit) :
    close limit links last = .ok m ↔
      m.expr = (row links (.single last.expr)).rawTree ∧ m.height ≤ limit := by
  have h := @foldlM_extend_eq_ok_iff limit links.reverse [] last m List.isChain_nil hlast
    (by simpa using hlinks)
  rw [List.reverse_reverse, List.append_nil] at h
  exact h

/-! ### How a chain fails to be closed -/

section Fault

variable {limit : Nat} {links : List Link} {last : Measured} {error : Error}

theorem fault_of_join_eq_error {link : Link} {right : Measured}
    (h : join limit link right = .error error) : error.fault = .expressionTooDeep limit := by
  unfold join at h
  dsimp only at h
  split at h
  · rw [← Except.error.inj h]
  · contradiction

theorem fault_of_nest_eq_error (h : nest limit links last = .error error) :
    error.fault = .expressionTooDeep limit :=
  error_of_foldlM_eq_error (fun _ _ _ => fault_of_join_eq_error) h

theorem fault_of_extend_eq_error {run : List Link} {link : Link}
    (h : extend limit run link = .error error) : error.fault = .expressionTooDeep limit := by
  unfold extend at h
  split at h
  · contradiction
  · split at h
    · contradiction
    · rcases bind_eq_error_iff.1 h with hnest | ⟨left, -, hleft⟩
      · exact fault_of_nest_eq_error hnest
      · contradiction

/-- `close` has no other fault than `expressionTooDeep`. -/
theorem fault_of_close_eq_error (h : close limit links last = .error error) :
    error.fault = .expressionTooDeep limit := by
  rcases bind_eq_error_iff.1 h with hextend | ⟨run, -, hnest⟩
  · exact error_of_foldlM_eq_error (fun _ _ _ => fault_of_extend_eq_error) hextend
  · exact fault_of_nest_eq_error hnest

end Fault

end Chain

end Reckon
