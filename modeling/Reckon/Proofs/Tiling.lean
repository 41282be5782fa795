import Reckon.Cursor
import Reckon.Proofs.LongestMatch

/-!
# Tokens tile their text

The tokens of a text follow each other from its first byte to its last one without a gap, and each
of them consists of the characters that lie in its span. The runs of digits among them are those of
the text that cannot be made longer, and every other token is a single character (`Tiles`). A cursor
that was moved over some of them stands where the last one of these stops (`Cursor.Behind`).

`scan_tiles` puts this together with the fact that the tokens are those of a lexer which always
takes the longest match.
-/

namespace Reckon

/-! ### First characters -/

namespace Token.Kind

/-- The first characters of the tokens of a kind. -/
def Begins : Kind → Char → Prop
  | .number, c => c.isDigit = true
  | .letter, c => c.isAlpha = true
  | .operator op, c => c = op.symbol
  | .openParen, c => c = '('
  | .closeParen, c => c = ')'
  | .symbol, c => c.isAlphanum = false ∧ c ∉ ['+', '-', '*', '/', '(', ')']

theorem begins_ofChar (c : Char) : (ofChar c).Begins c := by
  unfold ofChar ofChar?
  split_ifs with hdigit halpha hopen hclose hfeed
  · exact hdigit
  · exact halpha
  · exact hopen
  · exact hclose
  · subst hfeed
    exact ⟨rfl, by decide⟩
  · cases hop : Op.ofChar? c with
    | none =>
      refine ⟨by simp [Char.isAlphanum, hdigit, halpha], ?_⟩
      have hsymbol : ∀ op : Op, c ≠ op.symbol := by
        rintro op rfl
        rw [Op.ofChar?_symbol] at hop
        contradiction
      simp only [List.mem_cons, List.not_mem_nil, or_false, not_or]
      exact ⟨hsymbol .add, hsymbol .sub, hsymbol .mul, hsymbol .div, hopen, hclose⟩
    | some op => exact (Op.symbol_of_ofChar?_eq_some hop).symm

/-- `ofChar` is the kind whose tokens the character `Begins`. -/
theorem ofChar_eq_iff {c : Char} {kind : Kind} : ofChar c = kind ↔ kind.Begins c := by
  constructor
  · rintro rfl
    exact begins_ofChar c
  · intro h
    cases kind with
    | number => exact ofChar_of_isDigit h
    | letter => exact ofChar_of_isAlpha h
    | operator op =>
      obtain rfl : c = op.symbol := h
      exact ofChar_symbol op
    | openParen =>
      obtain rfl : c = '(' := h
      exact ofChar_openParen
    | closeParen =>
      obtain rfl : c = ')' := h
      exact ofChar_closeParen
    | symbol =>
      -- the first characters of the other kinds are those that symbols do not begin with
      obtain ⟨halphanum, hmem⟩ := h
      have halpha : c.isAlpha = false := (Bool.or_eq_false_iff.1 halphanum).1
      have hdigit : c.isDigit = false := (Bool.or_eq_false_iff.1 halphanum).2
      have hbegins := begins_ofChar c
      cases hkind : ofChar c with
      | symbol => rfl
      | number =>
        rw [hkind] at hbegins
        exact absurd (hdigit.symm.trans hbegins) (by decide)
      | letter =>
        rw [hkind] at hbegins
        exact absurd (halpha.symm.trans hbegins) (by decide)
      | operator op =>
        rw [hkind] at hbegins
        obtain rfl : c = op.symbol := hbegins
        cases op <;> exact absurd hmem (by decide)
      | openParen =>
        rw [hkind] at hbegins
        obtain rfl : c = '(' := hbegins
        exact absurd hmem (by decide)
      | closeParen =>
        rw [hkind] at hbegins
        obtain rfl : c = ')' := hbegins
        exact absurd hmem (by decide)

end Token.Kind

/-! ### Stretches of a text -/

/-- Spans that lead from one place to another, each of which starts where the one before stops. -/
def Contiguous (start stop : Nat) : List Span → Prop
  | [] => start = stop
  | span :: spans => span.start = start ∧ Contiguous span.stop stop spans

/-- `chars` are the characters of a text that lie in the span. -/
def Span.Covers (span : Span) (text chars : List Char) : Prop :=
  ∃ before after, text = before ++ chars ++ after ∧ span = .covering (byteLength before) chars

theorem byteLength_eq_zero_iff {text : List Char} : byteLength text = 0 ↔ text = [] := by
  cases text with
  | nil => simp
  | cons c text =>
    have hpos := c.utf8Size_pos
    simp only [byteLength_cons, List.cons_ne_nil, iff_false]
    omega

/-- A text can be cut at a byte in only one way. -/
theorem append_inj_of_byteLength_eq {s s' t t' : List Char} (h : s ++ t = s' ++ t')
    (hlen : byteLength s = byteLength s') : s = s' ∧ t = t' := by
  rcases List.append_eq_append_iff.1 h with ⟨u, rfl, rfl⟩ | ⟨u, rfl, rfl⟩
  all_goals
    rw [byteLength_append] at hlen
    obtain rfl : u = [] := byteLength_eq_zero_iff.1 (by omega)
    simp

/-- A span `Covers` only one text. -/
theorem Span.Covers.unique {span : Span} {text s t : List Char} (hs : span.Covers text s)
    (ht : span.Covers text t) : s = t := by
  obtain ⟨before, after, rfl, rfl⟩ := hs
  obtain ⟨before', after', htext, hspan⟩ := ht
  rw [covering, covering, mk.injEq] at hspan
  rw [List.append_assoc, List.append_assoc] at htext
  -- the texts begin at the same byte, and what begins there is cut at the same byte again
  have hrest := (append_inj_of_byteLength_eq htext hspan.1).2
  exact (append_inj_of_byteLength_eq hrest (by omega)).1

/-! ### Tilings -/

/-- Tokens that a text is made of. -/
structure Tiles (text : List Char) (tokens : List Token) : Prop where
  /-- The first token starts at the first byte, every other one where the one before it stops, and
  the last one stops at the end of the text. -/
  contiguous : Contiguous 0 (byteLength text) (tokens.map Token.span)
  flatMap_chars : (tokens.flatMap fun token => token.chars) = text
  /-- A token consists of what lies in its span. -/
  covers_iff : ∀ token ∈ tokens, ∀ chars, token.span.Covers text chars ↔ chars = token.chars
  /-- A token is a number if it is a run of digits that cannot be made longer. -/
  number_iff : ∀ token ∈ tokens, token.kind = .number ↔
    ∃ before after, text = before ++ token.chars ++ after ∧
      token.span = .covering (byteLength before) token.chars ∧
      MaximalDigits before token.chars after
  /-- Every run of digits that cannot be made longer is a token. -/
  exists_number : ∀ before run after, text = before ++ run ++ after →
    MaximalDigits before run after →
    ∃ token ∈ tokens, token.chars = run ∧ token.span = .covering (byteLength before) run
  not_adjacent : ∀ before a b after, tokens = before ++ a :: b :: after →
    ¬ (a.kind = .number ∧ b.kind = .number)
  /-- Any other token is a single character, and that decides its kind. -/
  single : ∀ token ∈ tokens, token.kind ≠ .number →
    ∃ c, token.chars = [c] ∧ ∀ kind, token.kind = kind ↔ kind.Begins c

namespace Token

variable {text : List Char}

theorem place_append (start : Nat) (a b : List Lexeme) :
    place start (a ++ b) =
      place start a ++ place (start + byteLength (a.flatMap Lexeme.chars)) b := by
  induction a generalizing start with
  | nil => rfl
  | cons l a ih =>
    rw [List.cons_append, place_cons, ih, place_cons, List.flatMap_cons, byteLength_append,
      Nat.add_assoc, List.cons_append]

theorem contiguous_place (start : Nat) (ls : List Lexeme) :
    Contiguous start (start + byteLength (ls.flatMap Lexeme.chars))
      ((place start ls).map span) := by
  induction ls generalizing start with
  | nil => rfl
  | cons l ls ih =>
    rw [place_cons, List.map_cons, List.flatMap_cons, byteLength_append, ← Nat.add_assoc]
    exact ⟨rfl, ih (start + byteLength l.chars)⟩

theorem flatMap_chars_scan (text : List Char) :
    ((scan text).map toLexeme).flatMap Lexeme.chars = text := by
  rw [map_toLexeme_scan, flatMap_chars_lexemes]

theorem kind_eq_number_iff {token : Token} : token.kind = .number ↔ token.first.isDigit = true :=
  Kind.ofChar_eq_iff

theorem tiles_scan (text : List Char) : Tiles text (scan text) where
  contiguous := by
    have hplace := contiguous_place 0 (lexemes text)
    rwa [flatMap_chars_lexemes, Nat.zero_add] at hplace
  flatMap_chars := by
    rw [← List.flatMap_map, flatMap_chars_scan]
  covers_iff := by
    intro token hmem chars
    obtain ⟨before, after, h⟩ := List.append_of_mem hmem
    have hcovers : token.span.Covers text token.chars :=
      ⟨_, _, text_eq_of_scan_eq h, span_eq_of_scan_eq h⟩
    constructor
    · exact fun hchars => hchars.unique hcovers
    · rintro rfl
      exact hcovers
  number_iff := by
    intro token hmem
    obtain ⟨before, after, h⟩ := List.append_of_mem hmem
    rw [kind_eq_number_iff]
    constructor
    · intro hdigit
      exact ⟨_, _, text_eq_of_scan_eq h, span_eq_of_scan_eq h,
        maximalDigits_of_lexemes_eq (lexemes_eq_of_scan_eq h) hdigit⟩
    · rintro ⟨_, _, -, -, hmaximal⟩
      exact hmaximal.isDigit token.first (List.mem_cons_self)
  exists_number := by
    rintro before run after rfl hmaximal
    obtain ⟨l, rfl, hlexemes⟩ := hmaximal.lexemes_eq
    refine ⟨⟨l, byteLength before⟩, ?_, rfl, rfl⟩
    rw [scan, hlexemes, place_append, place_cons, flatMap_chars_lexemes, Nat.zero_add]
    simp
  not_adjacent := by
    rintro before a b after h ⟨ha, hb⟩
    rw [kind_eq_number_iff] at ha hb
    have hlexemes := lexemes_eq_of_scan_eq h
    rw [List.map_cons] at hlexemes
    rw [isDigit_eq_false_of_lexemes_eq hlexemes ha] at hb
    contradiction
  single := by
    intro token hmem hkind
    rw [Ne, kind_eq_number_iff, Bool.not_eq_true] at hkind
    have hwell := wellFormed_of_mem_scan hmem
    exact ⟨token.first, congrArg Lexeme.chars (hwell.eq_ofChar hkind), fun _ => Kind.ofChar_eq_iff⟩

example : (scan ['1', '0', 'π', '\n', '7']).map span = [⟨0, 2⟩, ⟨2, 4⟩, ⟨4, 5⟩, ⟨5, 6⟩] := by
  decide

end Token

/-! ### Cursors -/

namespace Cursor

/-- Attempts to move over one token after the other, each with what has to come. Returns what came
of the attempts and the cursor after them. -/
def attempts (cursor : Cursor) : List Production → List (Except Error Token) × Cursor
  | [] => ([], cursor)
  | expected :: more =>
    let (result, next) := cursor.attempt expected
    let (results, last) := next.attempts more
    (result :: results, last)

/-- A cursor stands behind the first `k` tokens of a text. -/
structure Behind (text : List Char) (k : Nat) (cursor : Cursor) : Prop where
  le_length : k ≤ (Token.scan text).length
  /-- It is where the last one of them stops, or at the start of the text. -/
  position_eq : cursor.position =
    (((Token.scan text).take k).getLast?.map fun token => token.span.stop).getD 0
  /-- At the end of the text there is no next token to point at. -/
  span_eq : cursor.span = ((Token.scan text)[k]?.map Token.span).getD (.point (byteLength text))
  /-- The text ends where its last token stops. -/
  endSpan_eq : cursor.endSpan =
    .point (((Token.scan text).getLast?.map fun token => token.span.stop).getD 0)
  /-- The next token is the first one that is not behind the cursor. -/
  attempt_eq_ok : ∀ token expected, (Token.scan text)[k]? = some token →
    (cursor.attempt expected).1 = .ok token
  /-- To move on fails only at the end of the text. -/
  isOk_eq_false_iff : ∀ expected,
    (cursor.attempt expected).1.isOk = false ↔ cursor.position = byteLength text
  /-- There it points at the end and leaves the cursor as it is. -/
  attempt_eq_error : ∀ expected, cursor.position = byteLength text →
    cursor.attempt expected = (.error ⟨[.point (byteLength text)], .unexpectedEnd expected⟩, cursor)

/-- The number of attempts that were successful. -/
def successes (results : List (Except Error Token)) : Nat :=
  results.countP fun result => result.isOk

/-- After `attempts`, a cursor has moved over as many tokens as there were `successes`. -/
theorem snd_attempts (cursor : Cursor) (calls : List Production) :
    successes (cursor.attempts calls).1 ≤ cursor.rest.length ∧
      (cursor.attempts calls).2 =
        ⟨cursor.rest.drop (successes (cursor.attempts calls).1), cursor.stop⟩ := by
  induction calls generalizing cursor with
  | nil => exact ⟨Nat.zero_le _, rfl⟩
  | cons expected calls ih =>
    obtain ⟨rest, stop⟩ := cursor
    cases rest with
    | nil =>
      -- the attempt fails, does not count and leaves the cursor where it was
      exact ih ⟨[], stop⟩
    | cons token rest =>
      obtain ⟨hle, hlast⟩ := ih ⟨rest, stop⟩
      have hcount : successes ((mk (token :: rest) stop).attempts (expected :: calls)).1 =
          successes ((mk rest stop).attempts calls).1 + 1 := List.countP_cons_of_pos rfl
      rw [hcount, List.drop_succ_cons]
      exact ⟨Nat.succ_le_succ hle, hlast⟩

section Split

variable {text : List Char} {before rest : List Token}

/-- The tokens of a `scan` stop where the characters do that they consist of. -/
theorem stop_getLast?_eq (h : Token.scan text = before ++ rest) :
    (before.getLast?.map fun token => token.span.stop).getD 0 =
      byteLength ((before.map Token.toLexeme).flatMap Lexeme.chars) := by
  rcases List.eq_nil_or_concat' before with rfl | ⟨before, token, rfl⟩
  · rfl
  · rw [List.append_assoc] at h
    rw [List.getLast?_concat, Option.map_some, Option.getD_some, Token.span_eq_of_scan_eq h]
    simp [Span.covering]

theorem position_of_scan_eq (h : Token.scan text = before ++ rest) :
    (mk rest (byteLength text)).position =
      byteLength ((before.map Token.toLexeme).flatMap Lexeme.chars) := by
  cases rest with
  | nil =>
    rw [List.append_nil] at h
    rw [← h, Token.flatMap_chars_scan]
    rfl
  | cons token rest =>
    show token.span.start = _
    rw [Token.span_eq_of_scan_eq h]
    rfl

/-- The `position` of a cursor is the end of the text only if it has no tokens left. -/
theorem position_eq_byteLength_iff (h : Token.scan text = before ++ rest) :
    (mk rest (byteLength text)).position = byteLength text ↔ rest = [] := by
  cases rest with
  | nil => exact iff_of_true rfl rfl
  | cons token rest =>
    have hpos := token.first.utf8Size_pos
    have hlen := congrArg byteLength (Token.text_eq_of_scan_eq h)
    rw [byteLength_append, byteLength_append, Lexeme.chars, byteLength_cons] at hlen
    rw [position_of_scan_eq h]
    refine iff_of_false ?_ (List.cons_ne_nil token rest)
    omega

/-- A cursor that has only the tokens of `rest` left is `Behind` the others. -/
theorem behind_of_scan_eq (h : Token.scan text = before ++ rest) :
    Behind text before.length ⟨rest, byteLength text⟩ where
  le_length := by
    rw [h, List.length_append]
    omega
  position_eq := by
    rw [position_of_scan_eq h, h, List.take_left, stop_getLast?_eq h]
  span_eq := by
    rw [h, List.getElem?_append_right (Nat.le_refl _), Nat.sub_self, ← List.head?_eq_getElem?]
    rfl
  endSpan_eq := by
    rw [stop_getLast?_eq (List.append_nil _).symm, Token.flatMap_chars_scan]
    rfl
  attempt_eq_ok token expected htoken := by
    rw [h, List.getElem?_append_right (Nat.le_refl _), Nat.sub_self,
      ← List.head?_eq_getElem?] at htoken
    rw [List.eq_cons_of_mem_head? htoken]
    rfl
  isOk_eq_false_iff expected := by
    rw [position_eq_byteLength_iff h]
    cases rest with
    | nil => exact iff_of_true rfl rfl
    | cons token rest =>
      show true = false ↔ token :: rest = []
      simp
  attempt_eq_error expected hposition := by
    rw [(position_eq_byteLength_iff h).1 hposition]
    rfl

end Split

/-- After `attempts`, a cursor is `Behind` as many tokens as there were `successes`. -/
theorem behind_attempts (text : List Char) (calls : List Production) :
    Behind text (successes ((ofChars text).attempts calls).1)
      ((ofChars text).attempts calls).2 := by
  obtain ⟨hle, hlast⟩ := snd_attempts (ofChars text) calls
  have hscan := (List.take_append_drop (successes ((ofChars text).attempts calls).1)
    (Token.scan text)).symm
  have hbehind := behind_of_scan_eq hscan
  have hlen := List.length_take_of_le hle
  rw [hlast]
  rwa [show (Token.scan text) = (ofChars text).rest from rfl, hlen] at hbehind

end Cursor

/-- `scan` finds what a text is `Lexed` into, where a line feed, on which a lexer fails, is a
symbol. Its tokens are `Tiles` of the text, and a cursor over it is `Behind` as many of them as it
was moved over. -/
theorem scan_tiles (text : List Char) :
    (∃ results, (∀ other, Lexed text other ↔ other = results) ∧
      (∀ result ∈ results, result.1 = none ↔ result.2 = ['\n']) ∧
      (Token.scan text).map (fun token => (token.kind, token.chars)) =
        results.map fun result => (result.1.getD .symbol, result.2)) ∧
    Tiles text (Token.scan text) ∧
    ∀ calls, Cursor.Behind text (Cursor.successes ((Cursor.ofChars text).attempts calls).1)
      ((Cursor.ofChars text).attempts calls).2 := by
  refine ⟨⟨(lexemes text).map Lexeme.result, fun _ => lexed_iff, ?_, ?_⟩, Token.tiles_scan text,
    Cursor.behind_attempts text⟩
  · intro result hmem
    obtain ⟨l, hl, rfl⟩ := List.mem_map.1 hmem
    exact Lexeme.fst_result_eq_none_iff hl
  · rw [← Token.map_toLexeme_scan, List.map_map, List.map_map]
    rfl

end Reckon
