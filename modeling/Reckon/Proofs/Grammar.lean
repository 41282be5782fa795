import Mathlib.Data.List.Infix
import Reckon.Fault
import Reckon.Operator

/-!
# The grammar of expressions

`Derives` states the grammar rule by rule, over characters:

```text
number     = digit number | digit
atom       = number | letter
term       = "(" expression ")" | atom
group      = term group | term
product    = group "*" product | group "/" product | group
expression = product "+" expression | product "-" expression | product
```

Digits and letters are those of ASCII, and there is no white space. The grammar says which texts are
expressions, not how they are grouped: it derives `12` as a number and as two numbers side by side.

`NestedWithin` bounds how many parentheses are open at once in a text.
-/

namespace Reckon

/-- The texts of each production. -/
inductive Derives : Production → List Char → Prop where
  | digit {d : Char} (hd : d.isDigit = true) : Derives .number [d]
  | digits {d : Char} {s : List Char} (hd : d.isDigit = true) (hs : Derives .number s) :
      Derives .number (d :: s)
  | letter {c : Char} (hc : c.isAlpha = true) : Derives .letter [c]
  | ofNumber {s : List Char} (hs : Derives .number s) : Derives .atom s
  | ofLetter {s : List Char} (hs : Derives .letter s) : Derives .atom s
  | ofAtom {s : List Char} (hs : Derives .atom s) : Derives .term s
  | parentheses {s : List Char} (hs : Derives .expression s) : Derives .term ('(' :: (s ++ [')']))
  | ofTerm {s : List Char} (hs : Derives .term s) : Derives .group s
  | juxtaposition {s t : List Char} (hs : Derives .term s) (ht : Derives .group t) :
      Derives .group (s ++ t)
  | ofGroup {s : List Char} (hs : Derives .group s) : Derives .product s
  | factor {s t : List Char} {op : Op} (hop : op = .mul ∨ op = .div) (hs : Derives .group s)
      (ht : Derives .product t) : Derives .product (s ++ op.symbol :: t)
  | ofProduct {s : List Char} (hs : Derives .product s) : Derives .expression s
  | summand {s t : List Char} {op : Op} (hop : op = .add ∨ op = .sub) (hs : Derives .product s)
      (ht : Derives .expression t) : Derives .expression (s ++ op.symbol :: t)

/-- The number of open parentheses after a character, from the number before it. -/
def openAfter (n : Nat) (c : Char) : Nat :=
  if c = '(' then n + 1 else if c = ')' then n - 1 else n

/-- The number of parentheses that are still open at the end of a text. -/
def unclosed (text : List Char) : Nat :=
  text.foldl openAfter 0

/-- No more than `depth` parentheses are ever open at once. -/
def NestedWithin (depth : Nat) (text : List Char) : Prop :=
  ∀ s, s <+: text → unclosed s ≤ depth

/-- From `n` open parentheses on, no more than `depth` are ever open. -/
def NestedFrom (n depth : Nat) (text : List Char) : Prop :=
  ∀ s, s <+: text → s.foldl openAfter n ≤ depth

theorem nestedFrom_nil {n depth : Nat} : NestedFrom n depth [] ↔ n ≤ depth := by
  simp [NestedFrom, List.prefix_nil]

theorem nestedFrom_cons {n depth : Nat} {c : Char} {text : List Char} :
    NestedFrom n depth (c :: text) ↔ n ≤ depth ∧ NestedFrom (openAfter n c) depth text := by
  constructor
  · intro h
    refine ⟨h [] List.nil_prefix, ?_⟩
    intro s hs
    exact h (c :: s) (List.cons_prefix_cons.2 ⟨rfl, hs⟩)
  · rintro ⟨hn, h⟩ s hs
    rcases List.prefix_cons_iff.1 hs with rfl | ⟨u, rfl, hu⟩
    · exact hn
    · exact h u hu

theorem NestedFrom.le {n depth : Nat} {text : List Char} (h : NestedFrom n depth text) :
    n ≤ depth :=
  h [] List.nil_prefix

theorem nestedFrom_append {n depth : Nat} {s t : List Char} :
    NestedFrom n depth (s ++ t) ↔
      NestedFrom n depth s ∧ NestedFrom (s.foldl openAfter n) depth t := by
  induction s generalizing n with
  | nil =>
    rw [List.nil_append, nestedFrom_nil, List.foldl_nil]
    exact ⟨fun h => ⟨h.le, h⟩, fun h => h.2⟩
  | cons c s ih =>
    rw [List.cons_append, nestedFrom_cons, ih, nestedFrom_cons, List.foldl_cons, and_assoc]

/-! ### Balanced texts -/

/-- Every parenthesis has its partner in the text, and `depth` is the number of those that are open
at once at most. -/
structure BalancedTo (depth : Nat) (text : List Char) : Prop where
  /-- After the text as many parentheses are open as before. -/
  foldl_openAfter : ∀ n, text.foldl openAfter n = n
  /-- Within the text, `depth` more may be open. -/
  nestedFrom_iff : ∀ n limit, NestedFrom n limit text ↔ n + depth ≤ limit

namespace BalancedTo

theorem nil : BalancedTo 0 [] :=
  ⟨fun _ => rfl, fun _ _ => nestedFrom_nil⟩

theorem append {m n : Nat} {s t : List Char} (hs : BalancedTo m s) (ht : BalancedTo n t) :
    BalancedTo (max m n) (s ++ t) := by
  constructor
  · intro k
    rw [List.foldl_append, hs.foldl_openAfter, ht.foldl_openAfter]
  · intro k limit
    rw [nestedFrom_append, hs.foldl_openAfter, hs.nestedFrom_iff, ht.nestedFrom_iff]
    omega

theorem parentheses {n : Nat} {s : List Char} (hs : BalancedTo n s) :
    BalancedTo (n + 1) ('(' :: (s ++ [')'])) := by
  have hopen : ∀ k, openAfter k '(' = k + 1 := fun _ => rfl
  have hclose : ∀ k, openAfter (k + 1) ')' = k := fun _ => rfl
  constructor
  · intro k
    rw [List.foldl_cons, hopen, List.foldl_append, hs.foldl_openAfter, List.foldl_cons, hclose,
      List.foldl_nil]
  · intro k limit
    rw [nestedFrom_cons, hopen, nestedFrom_append, hs.foldl_openAfter, hs.nestedFrom_iff,
      nestedFrom_cons, hclose, nestedFrom_nil]
    omega

/-- A text without parentheses is `BalancedTo 0`. What its characters have in common (`p`) tells
that there are none. -/
theorem of_forall {text : List Char} (p : Char → Bool) (hopen : p '(' = false)
    (hclose : p ')' = false) (h : ∀ c ∈ text, p c = true) : BalancedTo 0 text := by
  induction text with
  | nil => exact nil
  | cons c text ih =>
    have hp : p c = true := h c (by simp)
    have ih := ih fun a ha => h a (List.mem_cons_of_mem c ha)
    have hc : ∀ k, openAfter k c = k := by
      intro k
      unfold openAfter
      split
      · simp_all
      · split
        · simp_all
        · rfl
    constructor
    · intro k
      rw [List.foldl_cons, hc, ih.foldl_openAfter]
    · intro k limit
      rw [nestedFrom_cons, hc, ih.nestedFrom_iff]
      omega

/-- A text that is `BalancedTo n` is `NestedWithin` exactly the depths from `n` on. -/
theorem nestedWithin_iff {n limit : Nat} {text : List Char} (h : BalancedTo n text) :
    NestedWithin limit text ↔ n ≤ limit := by
  have h₀ := h.nestedFrom_iff 0 limit
  rwa [Nat.zero_add] at h₀

end BalancedTo

end Reckon
