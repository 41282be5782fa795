import Mathlib.Tactic.SplitIfs
import Reckon.Token

/-!
# Cutting a text into lexemes

Where a text may be cut in two without changing its lexemes (`lexemes_append`), and what happens
where it may not, between two digits (`lexemes_digits_append`). A character that is no digit is a
lexeme of its own wherever it stands (`lexemes_append_cons`).

Every lexeme of a text is a run of digits or a single other character (`wellFormed_of_mem_lexemes`),
so its kind says what its characters are.
-/

namespace Reckon

/-- A lexeme of a text: a run of digits, or a single other character. -/
def Lexeme.WellFormed (lexeme : Lexeme) : Prop :=
  (∀ c ∈ lexeme.chars, c.isDigit = true) ∨ (lexeme.first.isDigit = false ∧ lexeme.more = [])

/-- A character as a lexeme. -/
def Lexeme.ofChar (c : Char) : Lexeme := ⟨c, []⟩

@[simp]
theorem Lexeme.chars_ofChar (c : Char) : (ofChar c).chars = [c] := rfl

/-! ### Where a text may be cut -/

theorem Lexeme.attach_ne_nil (c : Char) (ls : List Lexeme) : attach c ls ≠ [] := by
  unfold attach
  split
  · simp
  · split <;> simp

theorem Lexeme.attach_append (c : Char) {ls : List Lexeme} (hne : ls ≠ []) (ls' : List Lexeme) :
    attach c (ls ++ ls') = attach c ls ++ ls' := by
  obtain ⟨l, ls, rfl⟩ := List.exists_cons_of_ne_nil hne
  rw [List.cons_append, attach, attach]
  split <;> rfl

theorem lexemes_ne_nil {text : List Char} (hne : text ≠ []) : lexemes text ≠ [] := by
  obtain ⟨c, text, rfl⟩ := List.exists_cons_of_ne_nil hne
  exact Lexeme.attach_ne_nil c (lexemes text)

/-- `lexemes` has a lexeme of its own for a character that is no digit. -/
theorem lexemes_cons_of_not_digit {c : Char} (hc : c.isDigit = false) (text : List Char) :
    lexemes (c :: text) = .ofChar c :: lexemes text := by
  rw [lexemes_cons]
  cases lexemes text with
  | nil => rfl
  | cons l ls => simp [Lexeme.attach, hc, Lexeme.ofChar]

/-- The first of the `lexemes` begins with the first character. -/
theorem first_of_lexemes_eq_cons {c : Char} {text : List Char} {l : Lexeme} {ls : List Lexeme}
    (h : lexemes (c :: text) = l :: ls) : l.first = c := by
  have hflat := flatMap_chars_lexemes (c :: text)
  rw [h, List.flatMap_cons, Lexeme.chars, List.cons_append] at hflat
  exact (List.cons.inj hflat).1

/-- `lexemes` of a text may be taken apart anywhere but between two digits. -/
theorem lexemes_append {s t : List Char}
    (h : ∀ c ∈ s.getLast?, ∀ d ∈ t.head?, (c.isDigit && d.isDigit) = false) :
    lexemes (s ++ t) = lexemes s ++ lexemes t := by
  induction s with
  | nil => rfl
  | cons c s ih =>
    by_cases hs : s = []
    · -- `c` stands right before the cut, so it is the one that must not join what follows
      subst hs
      cases t with
      | nil => simp
      | cons d t =>
        have hcd : (c.isDigit && d.isDigit) = false := h c (by simp) d (by simp)
        obtain ⟨l, ls, hl⟩ := List.exists_cons_of_ne_nil (lexemes_ne_nil (List.cons_ne_nil d t))
        have hfirst := first_of_lexemes_eq_cons hl
        rw [List.singleton_append, lexemes_cons, hl, Lexeme.attach, hfirst, hcd]
        rfl
    · have hlast : ∀ c ∈ s.getLast?, ∀ d ∈ t.head?, (c.isDigit && d.isDigit) = false := by
        intro a ha
        refine h a ?_
        rw [List.getLast?_cons]
        simp only [Option.mem_def] at ha
        simp [ha]
      rw [List.cons_append, lexemes_cons, ih hlast, Lexeme.attach_append c (lexemes_ne_nil hs),
        lexemes_cons]

/-- `lexemes` of a text may be taken apart around a character that is no digit. -/
theorem lexemes_append_cons {c : Char} (hc : c.isDigit = false) (s t : List Char) :
    lexemes (s ++ c :: t) = lexemes s ++ .ofChar c :: lexemes t := by
  rw [lexemes_append, lexemes_cons_of_not_digit hc]
  intro a _ d hd
  simp only [List.head?_cons, Option.mem_def, Option.some.injEq] at hd
  rw [← hd, hc, Bool.and_false]

theorem Lexeme.exists_attach_eq_of_attach_eq_append {c : Char} {ls a b : List Lexeme} (hne : a ≠ [])
    (h : attach c ls = a ++ b) : ∃ a', ls = a' ++ b ∧ attach c a' = a := by
  obtain ⟨l, a, rfl⟩ := List.exists_cons_of_ne_nil hne
  rw [List.cons_append] at h
  match ls with
  | [] =>
    obtain ⟨rfl, hnil⟩ := List.cons.inj h
    obtain ⟨rfl, rfl⟩ := List.append_eq_nil_iff.1 hnil.symm
    exact ⟨[], rfl, rfl⟩
  | l' :: ls =>
    rw [attach] at h
    split at h
    · rename_i hdigits
      obtain ⟨rfl, rfl⟩ := List.cons.inj h
      exact ⟨l' :: a, rfl, by rw [attach, if_pos hdigits]⟩
    · rename_i hdigits
      obtain ⟨rfl, htail⟩ := List.cons.inj h
      refine ⟨a, htail, ?_⟩
      cases a with
      | nil => rfl
      | cons l'' a =>
        obtain ⟨rfl, -⟩ := List.cons.inj htail
        rw [attach, if_neg hdigits]

/-- The first `lexemes` of a text are those of the text up to there. -/
theorem lexemes_flatMap_chars_of_eq_append {text : List Char} {a b : List Lexeme}
    (h : lexemes text = a ++ b) : lexemes (a.flatMap Lexeme.chars) = a := by
  induction text generalizing a with
  | nil =>
    obtain ⟨rfl, -⟩ := List.append_eq_nil_iff.1 h.symm
    rfl
  | cons c text ih =>
    by_cases hne : a = []
    · subst hne
      rfl
    · obtain ⟨a', ha', rfl⟩ := Lexeme.exists_attach_eq_of_attach_eq_append hne h
      rw [Lexeme.flatMap_chars_attach, lexemes_cons, ih ha']

/-- The last `lexemes` of a text are those of the text from there on. -/
theorem lexemes_flatMap_chars_of_eq_append_right {text : List Char} {a b : List Lexeme}
    (h : lexemes text = a ++ b) : lexemes (b.flatMap Lexeme.chars) = b := by
  induction text generalizing a with
  | nil =>
    obtain ⟨-, rfl⟩ := List.append_eq_nil_iff.1 h.symm
    rfl
  | cons c text ih =>
    by_cases hne : a = []
    · rw [hne, List.nil_append] at h
      rw [← h, flatMap_chars_lexemes]
    · obtain ⟨a', ha', -⟩ := Lexeme.exists_attach_eq_of_attach_eq_append hne h
      exact ih ha'

/-! ### Runs of digits -/

/-- Digits before a number join it in `lexemes`. -/
theorem lexemes_digits_append {ds t : List Char} (hds : ∀ c ∈ ds, c.isDigit = true) {l : Lexeme}
    {ls : List Lexeme} (ht : lexemes t = l :: ls) (hl : l.first.isDigit = true) {d : Char}
    (hd : d.isDigit = true) : lexemes (d :: (ds ++ t)) = ⟨d, ds ++ l.chars⟩ :: ls := by
  induction ds generalizing d with
  | nil =>
    rw [List.nil_append, lexemes_cons, ht, Lexeme.attach, hd, hl]
    rfl
  | cons c ds ih =>
    have hc : c.isDigit = true := hds c (by simp)
    rw [List.cons_append, lexemes_cons, ih (fun a ha => hds a (List.mem_cons_of_mem c ha)) hc,
      Lexeme.attach]
    simp [hd, hc, Lexeme.chars]

/-- `lexemes` of digits are one number. -/
theorem lexemes_digits {d : Char} {ds : List Char} (hds : ∀ c ∈ d :: ds, c.isDigit = true) :
    lexemes (d :: ds) = [⟨d, ds⟩] := by
  induction ds generalizing d with
  | nil => rfl
  | cons c ds ih =>
    have hd : d.isDigit = true := hds d (by simp)
    have hc : c.isDigit = true := hds c (by simp)
    rw [lexemes_cons, ih fun a ha => hds a (List.mem_cons_of_mem d ha), Lexeme.attach]
    simp [hd, hc, Lexeme.chars]

theorem Lexeme.wellFormed_of_mem_attach {c : Char} {ls : List Lexeme}
    (hls : ∀ l ∈ ls, l.WellFormed) : ∀ l ∈ attach c ls, l.WellFormed := by
  have hsingle : (Lexeme.mk c []).WellFormed := by
    by_cases hc : c.isDigit = true
    · exact Or.inl (by simpa [chars] using hc)
    · exact Or.inr ⟨by simpa using hc, rfl⟩
  unfold attach
  split
  · simpa using hsingle
  · rename_i l ls
    split
    · rename_i hdigits
      simp only [Bool.and_eq_true] at hdigits
      intro l' hl'
      rcases List.mem_cons.1 hl' with rfl | hl'
      · left
        rcases hls l (by simp) with hl | hl
        · simpa [chars, hdigits.1] using hl
        · rw [hdigits.2] at hl
          simp at hl
      · exact hls l' (List.mem_cons_of_mem l hl')
    · intro l' hl'
      rcases List.mem_cons.1 hl' with rfl | hl'
      · exact hsingle
      · exact hls l' hl'

/-- All `lexemes` of a text are `WellFormed`. -/
theorem wellFormed_of_mem_lexemes {text : List Char} {l : Lexeme} (h : l ∈ lexemes text) :
    l.WellFormed := by
  induction text generalizing l with
  | nil => simp at h
  | cons c text ih => exact Lexeme.wellFormed_of_mem_attach (fun _ => ih) l h

/-! ### Tokens and their kinds -/

@[simp]
theorem Token.map_toLexeme_place (start : Nat) (ls : List Lexeme) :
    (Token.place start ls).map Token.toLexeme = ls := by
  induction ls generalizing start with
  | nil => rfl
  | cons l ls ih => rw [Token.place_cons, List.map_cons, ih]

@[simp]
theorem Token.map_toLexeme_scan (text : List Char) :
    (Token.scan text).map Token.toLexeme = lexemes text :=
  Token.map_toLexeme_place 0 (lexemes text)

theorem Token.wellFormed_of_mem_scan {text : List Char} {token : Token} (h : token ∈ scan text) :
    token.toLexeme.WellFormed := by
  have hmem : token.toLexeme ∈ (scan text).map toLexeme := List.mem_map_of_mem h
  rw [map_toLexeme_scan] at hmem
  exact wellFormed_of_mem_lexemes hmem

namespace Token.Kind

theorem isDigit_eq_false_of_isAlpha {c : Char} (h : c.isAlpha = true) : c.isDigit = false := by
  -- letters and digits are ranges of codes that have nothing in common
  have hletter : (65 ≤ c.toNat ∧ c.toNat ≤ 90) ∨ (97 ≤ c.toNat ∧ c.toNat ≤ 122) := by
    rcases Bool.or_eq_true_iff.1 h with hupper | hlower
    · exact Or.inl (of_decide_eq_true hupper)
    · obtain ⟨hleft, hright⟩ := Bool.and_eq_true_iff.1 hlower
      exact Or.inr ⟨of_decide_eq_true hleft, of_decide_eq_true hright⟩
  rw [← Bool.not_eq_true, Char.isDigit_iff_toNat]
  show ¬ (48 ≤ c.toNat ∧ c.toNat ≤ 57)
  omega

theorem isDigit_symbol (op : Op) : op.symbol.isDigit = false := by
  cases op <;> rfl

theorem ofChar_of_isDigit {c : Char} (h : c.isDigit = true) : ofChar c = .number := by
  simp [ofChar, ofChar?, h]

theorem ofChar_of_isAlpha {c : Char} (h : c.isAlpha = true) : ofChar c = .letter := by
  simp [ofChar, ofChar?, h, isDigit_eq_false_of_isAlpha h]

@[simp]
theorem ofChar_openParen : ofChar '(' = .openParen := by decide

@[simp]
theorem ofChar_closeParen : ofChar ')' = .closeParen := by decide

@[simp]
theorem ofChar_symbol (op : Op) : ofChar op.symbol = .operator op := by
  cases op <;> decide

/-- What `Kind.ofChar` says about the character. -/
theorem ofChar_spec (c : Char) :
    match ofChar c with
    | .number => c.isDigit = true
    | .letter => c.isAlpha = true ∧ c.isDigit = false
    | .operator op => c = op.symbol
    | .openParen => c = '('
    | .closeParen => c = ')'
    | .symbol => True := by
  unfold ofChar ofChar?
  split_ifs with hdigit halpha hopen hclose hfeed
  · exact hdigit
  · exact ⟨halpha, by simpa using hdigit⟩
  · exact hopen
  · exact hclose
  · trivial
  · cases hop : Op.ofChar? c with
    | none => trivial
    | some op => exact (Op.symbol_of_ofChar?_eq_some hop).symm

end Token.Kind

/-- A `WellFormed` lexeme that is no number is a single character. -/
theorem Lexeme.WellFormed.eq_ofChar {l : Lexeme} (h : l.WellFormed)
    (hfirst : l.first.isDigit = false) : l = .ofChar l.first := by
  rcases h with h | h
  · have := h l.first (by simp [chars])
    rw [hfirst] at this
    contradiction
  · obtain ⟨first, more⟩ := l
    obtain rfl : more = [] := h.2
    rfl

/-- A `WellFormed` lexeme that is a number consists of digits. -/
theorem Lexeme.WellFormed.isDigit {l : Lexeme} (h : l.WellFormed)
    (hfirst : l.first.isDigit = true) : ∀ c ∈ l.chars, c.isDigit = true := by
  rcases h with h | h
  · exact h
  · rw [hfirst] at h
    simp at h

/-- The kind of a token is that of the first character of its lexeme. -/
theorem Token.kind_of_toLexeme_eq {token : Token} {l : Lexeme} (h : token.toLexeme = l) :
    token.kind = .ofChar l.first := by
  rw [← h]
  rfl

/-- What the kind of a token says about its lexeme, if that is `WellFormed`. -/
theorem Token.kind_spec {token : Token} (h : token.toLexeme.WellFormed) :
    match token.kind with
    | .number => ∀ c ∈ token.first :: token.more, c.isDigit = true
    | .letter => token.first.isAlpha = true ∧ token.toLexeme = .ofChar token.first
    | .operator op => token.toLexeme = .ofChar op.symbol
    | .openParen => token.toLexeme = .ofChar '('
    | .closeParen => token.toLexeme = .ofChar ')'
    | .symbol => True := by
  have hspec := Kind.ofChar_spec token.first
  have hsingle : ∀ c, token.first = c → c.isDigit = false → token.toLexeme = .ofChar c := by
    rintro c rfl hc
    exact h.eq_ofChar hc
  rw [show token.kind = Kind.ofChar token.first from rfl]
  cases hkind : Kind.ofChar token.first <;> rw [hkind] at hspec
  · exact h.isDigit hspec
  · exact ⟨hspec.1, h.eq_ofChar hspec.2⟩
  · exact hsingle _ hspec (Kind.isDigit_symbol _)
  · exact hsingle '(' hspec rfl
  · exact hsingle ')' hspec rfl
  · trivial

/-! ### Tokens in their places -/

/-- `place` puts lexemes where the ones before them stop. -/
theorem Token.eq_place_of_place_eq_append {start : Nat} {ls : List Lexeme}
    {before rest : List Token} (h : place start ls = before ++ rest) :
    rest = place (start + byteLength ((before.map toLexeme).flatMap Lexeme.chars))
      (rest.map toLexeme) := by
  induction before generalizing start ls with
  | nil =>
    rw [List.nil_append] at h
    rw [← h, map_toLexeme_place]
    rfl
  | cons t before ih =>
    match ls with
    | l :: ls =>
      rw [place_cons] at h
      obtain ⟨rfl, htail⟩ := List.cons.inj h
      have hrest := ih htail
      rw [Nat.add_assoc, ← byteLength_append] at hrest
      exact hrest

/-- `place` starts a token where the ones before it stop. -/
theorem Token.start_eq_of_place_eq_append {start : Nat} {ls : List Lexeme}
    {before rest : List Token} {token : Token} (h : place start ls = before ++ token :: rest) :
    token.start = start + byteLength ((before.map toLexeme).flatMap Lexeme.chars) := by
  have hrest := eq_place_of_place_eq_append h
  rw [List.map_cons, place_cons] at hrest
  exact congrArg Token.start (List.cons.inj hrest).1

theorem Token.map_shift_place (n start : Nat) (ls : List Lexeme) :
    (place start ls).map (shift n) = place (n + start) ls := by
  induction ls generalizing start with
  | nil => rfl
  | cons l ls ih =>
    rw [place_cons, place_cons, List.map_cons, ih, Nat.add_assoc]
    rfl

/-- The last tokens of a `scan` are a `scan` of the text from there on, moved by `shift` to where
that begins. -/
theorem Token.exists_eq_map_shift_of_scan_eq_append {text : List Char} {before rest : List Token}
    (h : scan text = before ++ rest) :
    ∃ s t, text = s ++ t ∧ rest = (scan t).map (shift (byteLength s)) := by
  have hlexemes : lexemes text = before.map toLexeme ++ rest.map toLexeme := by
    rw [← map_toLexeme_scan, h, List.map_append]
  refine ⟨(before.map toLexeme).flatMap Lexeme.chars, (rest.map toLexeme).flatMap Lexeme.chars,
    ?_, ?_⟩
  · rw [← List.flatMap_append, ← hlexemes, flatMap_chars_lexemes]
  · rw [scan, lexemes_flatMap_chars_of_eq_append_right hlexemes, map_shift_place, Nat.add_comm]
    exact eq_place_of_place_eq_append h

section Split

variable {text : List Char} {before rest : List Token} {token : Token}

theorem Token.lexemes_eq_of_scan_eq (h : scan text = before ++ token :: rest) :
    lexemes text = before.map toLexeme ++ token.toLexeme :: rest.map toLexeme := by
  rw [← map_toLexeme_scan, h, List.map_append, List.map_cons]

theorem Token.text_eq_of_scan_eq (h : scan text = before ++ token :: rest) :
    text = (before.map toLexeme).flatMap Lexeme.chars ++ token.chars ++
      (rest.map toLexeme).flatMap Lexeme.chars := by
  rw [← flatMap_chars_lexemes text, lexemes_eq_of_scan_eq h]
  simp

theorem Token.span_eq_of_scan_eq (h : scan text = before ++ token :: rest) :
    token.span =
      .covering (byteLength ((before.map toLexeme).flatMap Lexeme.chars)) token.chars := by
  rw [span, start_eq_of_place_eq_append h, Nat.zero_add]

/-- A token of a `scan` that is no number is a character of the text, and the tokens before it have
the `lexemes` of the text up to there. -/
theorem Token.exists_eq_append_of_scan_eq_append (h : scan text = before ++ token :: rest)
    (hfirst : token.first.isDigit = false) :
    ∃ s t, text = s ++ token.first :: t ∧ lexemes s = before.map toLexeme ∧
      token.span = ⟨byteLength s, byteLength s + token.first.utf8Size⟩ := by
  have hmem : token ∈ scan text := by simp [h]
  have hchars : token.chars = [token.first] :=
    congrArg Lexeme.chars ((wellFormed_of_mem_scan hmem).eq_ofChar hfirst)
  refine ⟨_, (rest.map toLexeme).flatMap Lexeme.chars, ?_,
    lexemes_flatMap_chars_of_eq_append (lexemes_eq_of_scan_eq h), ?_⟩
  · rw [← List.singleton_append, ← List.append_assoc, ← hchars]
    exact text_eq_of_scan_eq h
  · rw [span_eq_of_scan_eq h, hchars]
    simp [Span.covering]

end Split

end Reckon
