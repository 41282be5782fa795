import Mathlib.Data.List.Basic
import Reckon.Proofs.Lexeme

/-!
# The longest match

A text is cut in two steps, first into lexemes and then by the kinds of their first characters. A
lexer does both at once: it goes through the text from the front, takes the longest match of the
patterns that the kinds are declared by, and of several patterns that match as much the one with the
highest priority (`Lexed`). What it finds are the lexemes and their kinds (`lexed_iff`).

Lexemes are longest matches because no digit follows where digits end a lexeme
(`isDigit_eq_false_of_lexemes_eq`). For the same reason a number cannot be made longer on either
side (`maximalDigits_of_lexemes_eq`).
-/

namespace Reckon

open Token (Kind)

/-! ### The patterns of the kinds -/

namespace Token.Kind

/-- The texts that the pattern of a kind matches: `[0-9]+` for numbers, `[a-zA-Z]` for letters, and
`.` for symbols, which stands for any character but a line feed. -/
def Matches : Kind → List Char → Prop
  | .number, s => s ≠ [] ∧ ∀ c ∈ s, c.isDigit = true
  | .letter, s => ∃ c, c.isAlpha = true ∧ s = [c]
  | .operator op, s => s = [op.symbol]
  | .openParen, s => s = ['(']
  | .closeParen, s => s = [')']
  | .symbol, s => ∃ c, c ≠ '\n' ∧ s = [c]

/-- Which kind is preferred if two patterns match the same text. -/
def priority : Kind → Nat
  | .symbol => 0
  | .number | .letter | .operator _ | .openParen | .closeParen => 1

/-- A lexer finds `kind` and `lexeme` in front of `rest`: no pattern matches more, and the other
patterns that match as much have a lower priority. -/
structure Wins (kind : Kind) (lexeme rest : List Char) : Prop where
  matches_lexeme : kind.Matches lexeme
  longest : ∀ (other : Kind) (s : List Char), s <+: lexeme ++ rest → other.Matches s →
    s.length ≤ lexeme.length
  preferred : ∀ other : Kind, other.Matches lexeme → other ≠ kind → other.priority < kind.priority

end Token.Kind

/-- What a lexer finds in a text, one match after the other. Where no pattern matches, it fails on a
single character and goes on behind it. -/
inductive Lexed : List Char → List (Option Kind × List Char) → Prop where
  | done : Lexed [] []
  | found {kind : Kind} {lexeme rest : List Char} {results : List (Option Kind × List Char)}
      (hwins : kind.Wins lexeme rest) (htail : Lexed rest results) :
      Lexed (lexeme ++ rest) ((some kind, lexeme) :: results)
  | failed {c : Char} {rest : List Char} {results : List (Option Kind × List Char)}
      (hnone : ∀ (kind : Kind) (s : List Char), s <+: c :: rest → ¬ kind.Matches s)
      (htail : Lexed rest results) : Lexed (c :: rest) ((none, [c]) :: results)

namespace Token.Kind

variable {kind : Kind} {c : Char} {s more rest : List Char}

theorem ofChar?_eq_none_iff : ofChar? c = none ↔ c = '\n' := by
  constructor
  · intro h
    unfold ofChar? at h
    split_ifs at h with hdigit halpha hopen hclose hfeed
    · exact hfeed
    · cases hop : Op.ofChar? c <;> simp [hop] at h
  · rintro rfl
    rfl

/-- A character `Matches` the pattern of its kind. -/
theorem matches_of_ofChar?_eq_some (h : ofChar? c = some kind) : kind.Matches [c] := by
  unfold ofChar? at h
  split_ifs at h with hdigit halpha hopen hclose hfeed
  · obtain rfl := Option.some.inj h
    exact ⟨by simp, by simpa using hdigit⟩
  · obtain rfl := Option.some.inj h
    exact ⟨c, halpha, rfl⟩
  · obtain rfl := Option.some.inj h
    rw [hopen]
    rfl
  · obtain rfl := Option.some.inj h
    rw [hclose]
    rfl
  · cases hop : Op.ofChar? c with
    | none =>
      rw [hop] at h
      obtain rfl := Option.some.inj h
      exact ⟨c, hfeed, rfl⟩
    | some op =>
      rw [hop] at h
      obtain rfl := Option.some.inj h
      show [c] = [op.symbol]
      rw [Op.symbol_of_ofChar?_eq_some hop]

/-- A character `Matches` no pattern but that of its kind and the one of symbols. -/
theorem ofChar?_of_matches (h : kind.Matches [c]) (hkind : kind ≠ .symbol) :
    ofChar? c = some kind := by
  cases kind with
  | number => simp [ofChar?, h.2 c (by simp)]
  | letter =>
    obtain ⟨a, ha, heq⟩ := h
    obtain rfl : c = a := by simpa using heq
    simp [ofChar?, ha, isDigit_eq_false_of_isAlpha ha]
  | operator op =>
    obtain rfl : c = op.symbol := by simpa [Matches] using h
    cases op <;> rfl
  | openParen =>
    obtain rfl : c = '(' := by simpa [Matches] using h
    rfl
  | closeParen =>
    obtain rfl : c = ')' := by simpa [Matches] using h
    rfl
  | symbol => exact absurd rfl hkind

/-- `Matches` is about single characters, except for numbers. -/
theorem Matches.eq_singleton (h : kind.Matches s) (hkind : kind ≠ .number) : ∃ c, s = [c] := by
  cases kind with
  | number => exact absurd rfl hkind
  | letter =>
    obtain ⟨c, -, hc⟩ := h
    exact ⟨c, hc⟩
  | symbol =>
    obtain ⟨c, -, hc⟩ := h
    exact ⟨c, hc⟩
  | operator op => exact ⟨_, h⟩
  | openParen => exact ⟨_, h⟩
  | closeParen => exact ⟨_, h⟩

theorem Matches.ne_nil (h : kind.Matches s) : s ≠ [] := by
  by_cases hnumber : kind = .number
  · subst hnumber
    exact h.1
  · obtain ⟨c, rfl⟩ := h.eq_singleton hnumber
    exact List.cons_ne_nil c []

theorem Matches.head (h : kind.Matches (c :: more)) : kind.Matches [c] := by
  by_cases hnumber : kind = .number
  · subst hnumber
    exact ⟨List.cons_ne_nil c [], by simpa using h.2 c (by simp)⟩
  · obtain ⟨a, ha⟩ := h.eq_singleton hnumber
    rwa [(List.cons.inj ha).2] at h

/-- No text that begins with a line feed `Matches` a pattern. -/
theorem Matches.ne_feed (h : kind.Matches (c :: more)) : c ≠ '\n' := by
  by_cases hsymbol : kind = .symbol
  · subst hsymbol
    obtain ⟨a, ha, hca⟩ := h
    rwa [(List.cons.inj hca).1]
  · rintro rfl
    have hkind := ofChar?_of_matches h.head hsymbol
    contradiction

/-- The kind that `Wins` is that of the first character. -/
theorem Wins.ofChar? (h : kind.Wins (c :: more) rest) : Kind.ofChar? c = some kind := by
  by_cases hsymbol : kind = .symbol
  · subst hsymbol
    have hne := h.matches_lexeme.ne_feed
    obtain ⟨_, -, hsingle⟩ := h.matches_lexeme
    obtain ⟨other, hother⟩ := Option.ne_none_iff_exists'.1 (mt ofChar?_eq_none_iff.1 hne)
    -- the pattern of any other kind would have been preferred
    by_cases hsymbol : other = .symbol
    · rw [hother, hsymbol]
    · have hmatches : other.Matches (c :: more) := by
        rw [(List.cons.inj hsingle).2]
        exact matches_of_ofChar?_eq_some hother
      exact absurd (h.preferred other hmatches hsymbol) (Nat.not_lt_zero _)
  · exact ofChar?_of_matches h.matches_lexeme.head hsymbol

end Token.Kind

/-! ### Runs of digits -/

/-- `run` stands between `before` and `after` and is a run of digits that cannot be made longer. -/
structure MaximalDigits (before run after : List Char) : Prop where
  ne_nil : run ≠ []
  isDigit : ∀ c ∈ run, c.isDigit = true
  before : ∀ c ∈ before.getLast?, c.isDigit = false
  after : ∀ c ∈ after.head?, c.isDigit = false

section Digits

variable {text s t : List Char} {l l' : Lexeme} {a b : List Lexeme}

/-- No digit follows a number in `lexemes`. -/
theorem isDigit_eq_false_of_lexemes_eq (h : lexemes text = a ++ l :: l' :: b)
    (hl : l.first.isDigit = true) : l'.first.isDigit = false := by
  rw [Bool.eq_false_iff]
  intro hl'
  obtain ⟨c, more⟩ := l
  have hrest : lexemes ((l' :: b).flatMap Lexeme.chars) = l' :: b :=
    lexemes_flatMap_chars_of_eq_append_right (a := a ++ [⟨c, more⟩]) (by rw [h]; simp)
  have hboth := lexemes_flatMap_chars_of_eq_append_right h
  have hdigits : ∀ d ∈ c :: more, d.isDigit = true :=
    (wellFormed_of_mem_lexemes (by rw [h]; simp)).isDigit hl
  -- read again, the first lexeme would take in the second one
  have hjoined : lexemes (c :: (more ++ (l' :: b).flatMap Lexeme.chars)) =
      ⟨c, more ++ l'.chars⟩ :: b :=
    lexemes_digits_append (fun d hd => hdigits d (List.mem_cons_of_mem c hd)) hrest hl' hl
  have hlen := congrArg List.length (hboth.symm.trans hjoined)
  simp only [List.length_cons] at hlen
  omega

theorem head?_flatMap_chars (b : List Lexeme) :
    (b.flatMap Lexeme.chars).head? = b.head?.map Lexeme.first := by
  cases b <;> rfl

/-- The `lexemes` that begin with a digit are `MaximalDigits`. -/
theorem maximalDigits_of_lexemes_eq (h : lexemes text = a ++ l :: b)
    (hl : l.first.isDigit = true) :
    MaximalDigits (a.flatMap Lexeme.chars) l.chars (b.flatMap Lexeme.chars) where
  ne_nil := List.cons_ne_nil _ _
  isDigit := (wellFormed_of_mem_lexemes (by rw [h]; simp)).isDigit hl
  before := by
    rcases List.eq_nil_or_concat' a with rfl | ⟨a, l', rfl⟩
    · simp
    · rw [List.append_assoc] at h
      have hl' : l'.first.isDigit = false := by
        rw [Bool.eq_false_iff]
        intro hl'
        rw [isDigit_eq_false_of_lexemes_eq h hl'] at hl
        contradiction
      have hsingle := (wellFormed_of_mem_lexemes (l := l') (by rw [h]; simp)).eq_ofChar hl'
      intro c hc
      rw [List.flatMap_append, List.flatMap_singleton, hsingle] at hc
      obtain rfl : l'.first = c := by simpa using hc
      exact hl'
  after := by
    intro c hc
    rw [head?_flatMap_chars] at hc
    cases b with
    | nil => simp at hc
    | cons l' b =>
      obtain rfl : l'.first = c := by simpa using hc
      exact isDigit_eq_false_of_lexemes_eq h hl

/-- `MaximalDigits` are one of the `lexemes`. -/
theorem MaximalDigits.lexemes_eq {run : List Char} (h : MaximalDigits s run t) :
    ∃ l : Lexeme, l.chars = run ∧ lexemes (s ++ run ++ t) = lexemes s ++ l :: lexemes t := by
  obtain ⟨d, ds, rfl⟩ := List.exists_cons_of_ne_nil h.ne_nil
  refine ⟨⟨d, ds⟩, rfl, ?_⟩
  have hright : ∀ c ∈ (d :: ds).getLast?, ∀ e ∈ t.head?, (c.isDigit && e.isDigit) = false := by
    intro c _ e he
    rw [h.after e he, Bool.and_false]
  have hleft : ∀ c ∈ s.getLast?, ∀ e ∈ (d :: ds ++ t).head?, (c.isDigit && e.isDigit) = false := by
    intro c hc e _
    rw [h.before c hc, Bool.false_and]
  rw [List.append_assoc, lexemes_append hleft, lexemes_append hright, lexemes_digits h.isDigit]
  rfl

/-- No digits at the same place are more than `MaximalDigits`. -/
theorem MaximalDigits.length_le {run : List Char} (h : MaximalDigits s run t) {ds : List Char}
    (hstart : ds <+: run ++ t) (hds : ∀ c ∈ ds, c.isDigit = true) : ds.length ≤ run.length := by
  by_cases hlen : run.length ≤ ds.length
  · obtain ⟨ds, rfl⟩ := List.prefix_of_prefix_length_le (List.prefix_append run t) hstart hlen
    rw [List.prefix_append_right_inj] at hstart
    cases ds with
    | nil => simp
    | cons c ds =>
      obtain ⟨t, rfl⟩ := hstart
      have hc := h.after c (by simp)
      rw [hds c (by simp)] at hc
      contradiction
  · omega

end Digits

/-! ### Longest matches -/

/-- What a lexer finds where a lexeme stands. -/
def Lexeme.result (l : Lexeme) : Option Kind × List Char :=
  (Kind.ofChar? l.first, l.chars)

/-- What `Wins` is the first of the `lexemes`. -/
theorem Token.Kind.Wins.lexemes_append {kind : Kind} {lexeme rest : List Char}
    (h : kind.Wins lexeme rest) :
    ∃ l : Lexeme, l.result = (some kind, lexeme) ∧
      lexemes (lexeme ++ rest) = l :: lexemes rest := by
  by_cases hnumber : kind = .number
  · subst hnumber
    have hdigits : ∀ c ∈ lexeme, c.isDigit = true := h.matches_lexeme.2
    have hafter : ∀ c ∈ rest.head?, c.isDigit = false := by
      intro c hc
      obtain ⟨t, rfl⟩ : ∃ t, rest = c :: t := ⟨_, List.eq_cons_of_mem_head? hc⟩
      rw [Bool.eq_false_iff]
      -- a number that could take in `c` would be longer
      intro hdigit
      have hlen := h.longest .number (lexeme ++ [c]) ⟨t, by simp⟩
        ⟨by simp, by simpa [or_imp, forall_and] using ⟨hdigits, hdigit⟩⟩
      rw [List.length_append, List.length_singleton] at hlen
      omega
    obtain ⟨l, rfl, hl⟩ := MaximalDigits.lexemes_eq
      (s := []) ⟨h.matches_lexeme.1, hdigits, by simp, hafter⟩
    exact ⟨l, congrArg (·, l.chars) h.ofChar?, hl⟩
  · obtain ⟨c, rfl⟩ := h.matches_lexeme.eq_singleton hnumber
    have hc : c.isDigit = false := by
      rw [Bool.eq_false_iff]
      intro hdigit
      have hkind := h.ofChar?
      rw [Kind.ofChar?, if_pos hdigit] at hkind
      exact hnumber (Option.some.inj hkind).symm
    exact ⟨.ofChar c, congrArg (·, [c]) h.ofChar?, lexemes_cons_of_not_digit hc rest⟩

/-- A text is `Lexed` into the `result` of each of its `lexemes`. -/
theorem Lexed.eq_map_result {text : List Char} {results : List (Option Kind × List Char)}
    (h : Lexed text results) : results = (lexemes text).map Lexeme.result := by
  induction h with
  | done => rfl
  | found hwins _ ih =>
    obtain ⟨l, hresult, hl⟩ := hwins.lexemes_append
    rw [hl, List.map_cons, hresult, ih]
  | @failed c rest results hnone _ ih =>
    have hfeed : c = '\n' := by
      rw [← Kind.ofChar?_eq_none_iff, Option.eq_none_iff_forall_ne_some]
      intro kind hkind
      exact hnone kind [c] ⟨rest, rfl⟩ (Kind.matches_of_ofChar?_eq_some hkind)
    subst hfeed
    rw [lexemes_cons_of_not_digit rfl, List.map_cons, ih]
    rfl

/-- The first of the `lexemes` of a text `Wins`, unless its first character has no kind. -/
theorem Lexeme.wins {text : List Char} {l : Lexeme} {ls : List Lexeme} {kind : Kind}
    (h : lexemes text = l :: ls) (hkind : Kind.ofChar? l.first = some kind) :
    kind.Wins l.chars (ls.flatMap Lexeme.chars) where
  matches_lexeme := by
    have hwell : l.WellFormed := wellFormed_of_mem_lexemes (by rw [h]; simp)
    by_cases hdigit : l.first.isDigit = true
    · rw [Kind.ofChar?, if_pos hdigit] at hkind
      obtain rfl := Option.some.inj hkind
      exact ⟨List.cons_ne_nil _ _, hwell.isDigit hdigit⟩
    · rw [hwell.eq_ofChar (by simpa using hdigit)]
      exact Kind.matches_of_ofChar?_eq_some hkind
  longest other s hstart hmatches := by
    by_cases hnumber : other = .number
    · subst hnumber
      obtain ⟨c, s, rfl⟩ := List.exists_cons_of_ne_nil hmatches.1
      have hfirst : l.first = c := (List.cons_prefix_cons.1 hstart).1.symm
      have hdigit : l.first.isDigit = true := by
        rw [hfirst]
        exact hmatches.2 c (by simp)
      exact (maximalDigits_of_lexemes_eq (a := []) h hdigit).length_le hstart hmatches.2
    · obtain ⟨c, rfl⟩ := hmatches.eq_singleton hnumber
      exact Nat.succ_le_of_lt (Nat.succ_pos _)
  preferred other hmatches hne := by
    -- only symbols share a match with another kind
    have hother : other = .symbol := by
      by_cases hsymbol : other = .symbol
      · exact hsymbol
      · have := hkind.symm.trans (Kind.ofChar?_of_matches hmatches.head hsymbol)
        exact absurd (Option.some.inj this).symm hne
    subst hother
    cases kind <;> first | exact absurd rfl hne | exact Nat.one_pos

theorem lexed_lexemes (text : List Char) : Lexed text ((lexemes text).map Lexeme.result) := by
  -- behind the first lexeme, a text is left that has the other ones
  induction h : lexemes text generalizing text with
  | nil =>
    have htext := flatMap_chars_lexemes text
    rw [h] at htext
    rw [← htext]
    exact .done
  | cons l ls ih =>
    have htext := flatMap_chars_lexemes text
    rw [h, List.flatMap_cons] at htext
    have hrest : lexemes (ls.flatMap Lexeme.chars) = ls :=
      lexemes_flatMap_chars_of_eq_append_right (a := [l]) h
    rw [← htext, List.map_cons, Lexeme.result]
    cases hkind : Kind.ofChar? l.first with
    | some kind => exact .found (l.wins h hkind) (ih _ hrest)
    | none =>
      have hfeed : l.first = '\n' := Kind.ofChar?_eq_none_iff.1 hkind
      have hwell : l.WellFormed := wellFormed_of_mem_lexemes (by rw [h]; simp)
      rw [hwell.eq_ofChar (by rw [hfeed]; rfl), hfeed]
      refine .failed ?_ (ih _ hrest)
      intro kind s hstart hmatches
      obtain ⟨c, s, rfl⟩ := List.exists_cons_of_ne_nil hmatches.ne_nil
      exact hmatches.ne_feed (List.cons_prefix_cons.1 hstart).1

/-- A text is `Lexed` into the `result` of each of its `lexemes`, and into nothing else. -/
theorem lexed_iff {text : List Char} {results : List (Option Kind × List Char)} :
    Lexed text results ↔ results = (lexemes text).map Lexeme.result := by
  constructor
  · exact Lexed.eq_map_result
  · rintro rfl
    exact lexed_lexemes text

/-- Only a line feed has a `result` without a kind. -/
theorem Lexeme.fst_result_eq_none_iff {text : List Char} {l : Lexeme} (h : l ∈ lexemes text) :
    l.result.1 = none ↔ l.result.2 = ['\n'] := by
  show Kind.ofChar? l.first = none ↔ l.chars = ['\n']
  rw [Kind.ofChar?_eq_none_iff]
  constructor
  · intro hfeed
    rw [(wellFormed_of_mem_lexemes h).eq_ofChar (by rw [hfeed]; rfl), hfeed]
    rfl
  · intro hchars
    exact (List.cons.inj hchars).1

end Reckon
