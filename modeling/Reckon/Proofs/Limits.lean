import Reckon.Proofs.Acceptance

/-!
# Where limits are passed

An expression that does not keep within the limits fails to be read, and the error points at what is
to blame: at the first parenthesis that is one too many, or at the operator of an operation that is
one too tall (`limit_errors_of_derives`).

This goes by induction over the phrase of the expression (`Phrase.Fails`). What comes first in the
text fails first: the operands of a chain before its own operations, which are only built once the
chain is closed. So reading a chain fails along with one of its operands, or it leaves the whole
chain to be closed by whatever token comes next (`FailsWith`). That a phrase within the limits is
read is known already (`Phrase.reads`).
-/

namespace Reckon

open Chain (Link)
open Progress (run)

variable {limits : Limits}

/-- The text that tokens were cut from. -/
def Token.text (tokens : List Token) : List Char :=
  (tokens.map Token.toLexeme).flatMap Lexeme.chars

@[simp]
theorem Token.text_append (ts us : List Token) : text (ts ++ us) = text ts ++ text us := by
  simp [text]

theorem Phrase.text_eq_chars {level : Option Tier} {p : Phrase level} {tokens : List Token}
    (h : tokens.map Token.toLexeme = p.lexemes) : Token.text tokens = p.chars :=
  congrArg (List.flatMap Lexeme.chars) h

/-- The error says which limit is passed in tokens that follow `depth` open parentheses, and where:
at the parenthesis that is one too many, where none was before, or in one of the `places`, where the
operation is `TooTall`. -/
inductive Culprit (limits : Limits) (depth : Nat) (tokens : List Token)
    (places : List (Joint × Expr)) (error : Error) : Prop where
  | parenthesis {before after : List Token} {token : Token}
      (htokens : tokens = before ++ token :: after) (hkind : token.kind = .openParen)
      (hwithin : NestedFrom depth limits.depth (Token.text before))
      (hdepth : (Token.text before).foldl openAfter depth = limits.depth)
      (herror : error = ⟨[token.span], .nestingTooDeep limits.depth⟩)
  | operation (h : Chain.TooTall limits.height places error)

namespace Culprit

variable {depth : Nat} {tokens : List Token} {places places' : List (Joint × Expr)} {error : Error}

/-- A `Culprit` stays one when other tokens come behind. -/
theorem append (h : Culprit limits depth tokens places error) (after : List Token)
    (hsub : places ⊆ places') : Culprit limits depth (tokens ++ after) places' error := by
  cases h with
  | @parenthesis before after' token htokens hkind hwithin hdepth herror =>
    exact .parenthesis (by rw [htokens, List.append_assoc, List.cons_append]) hkind hwithin hdepth
      herror
  | operation h => exact .operation (h.mono hsub)

/-- A `Culprit` stays one when other tokens come before, in which no parenthesis is one too many. -/
theorem prepend {depth' : Nat} (h : Culprit limits depth' tokens places error)
    {before : List Token} (hwithin : NestedFrom depth limits.depth (Token.text before))
    (hdepth : (Token.text before).foldl openAfter depth = depth') (hsub : places ⊆ places') :
    Culprit limits depth (before ++ tokens) places' error := by
  cases h with
  | @parenthesis before' after token htokens hkind hwithin' hdepth' herror =>
    refine @parenthesis _ _ _ _ _ (before ++ before') after token ?_ hkind ?_ ?_ herror
    · rw [htokens, List.append_assoc]
    · rw [Token.text_append, nestedFrom_append, hdepth]
      exact ⟨hwithin, hwithin'⟩
    · rw [Token.text_append, List.foldl_append, hdepth, hdepth']
  | operation h => exact .operation (h.mono hsub)

/-- A `Culprit` stays one when `BalancedTo` tokens come before. -/
theorem prepend_of_balancedTo {n : Nat} (h : Culprit limits depth tokens places error)
    {before : List Token} (hbefore : BalancedTo n (Token.text before))
    (hdepth : depth + n ≤ limits.depth) (hsub : places ⊆ places') :
    Culprit limits depth (before ++ tokens) places' error :=
  h.prepend ((hbefore.nestedFrom_iff depth limits.depth).2 hdepth) (hbefore.foldl_openAfter depth)
    hsub

end Culprit

/-! ### Closing the chains -/

namespace Frame

variable {frame : Frame} {term last : Measured} {tier : Tier} {error : Error}

/-- Where `closeAt` fails for the chains below, it fails. -/
theorem closeAt_some_eq_error (h : frame.closeAt limits term tier.operand = .error error) :
    frame.closeAt limits term (some tier) = .error error := by
  by_cases htier : tier = .group
  · -- there are no chains below
    subst htier
    contradiction
  · rw [closeAt_some_eq_bind htier, h]
    rfl

/-- Where `closeAt` fails although it does not for the chains below, one of the `places` of the
chain is `TooTall`. -/
theorem tooTall_of_closeAt_eq_error (hkept : frame.Kept limits)
    (hterm : term.height ≤ limits.height)
    (hlast : frame.closeAt limits term tier.operand = .ok last)
    (h : frame.closeAt limits term (some tier) = .error error) :
    Chain.TooTall limits.height (Chain.places (frame.links tier) last.expr) error := by
  have hlinks : ∀ link ∈ frame.links tier, link.operand.height ≤ limits.height :=
    fun link hlink => (hkept tier link hlink).1
  have hheight : last.height ≤ limits.height := height_le_of_closeAt_eq_ok hkept hterm hlast
  by_cases htier : tier = .group
  · -- a group is a single run
    subst htier
    obtain rfl : term = last := Except.ok.inj hlast
    rw [Chain.places, links, Chain.operations_row_of_oneRun hkept.oneRun]
    exact Chain.tooTall_of_nest_eq_error hlinks hheight h
  · rw [closeAt_some_eq_bind htier, hlast] at h
    exact Chain.tooTall_of_close_eq_error hlinks hheight h

end Frame

/-! ### Failing to read -/

/-- `run` fails with the error whatever comes behind the tokens, or leaves chains up to a level on
which `closeAt` fails with it. -/
def FailsWith (limits : Limits) (stop : Nat) (frame : Frame) (outer : Outer)
    (tokens rest : List Token) (level : Option Tier) (error : Error) : Prop :=
  (run limits stop (.awaiting frame outer) (tokens ++ rest)).1 = .error error ∨
    ∃ term frame', run limits stop (.awaiting frame outer) (tokens ++ rest) =
        run limits stop (.holding term frame' outer) rest ∧
      frame'.closeAt limits term level = .error error

theorem FailsWith.chain {stop : Nat} {frame : Frame} {outer : Outer} {tokens rest : List Token}
    {tier : Tier} {error : Error}
    (h : FailsWith limits stop frame outer tokens rest tier.operand error) :
    FailsWith limits stop frame outer tokens rest (some tier) error := by
  refine h.imp_right ?_
  rintro ⟨term, frame', hrun, hclose⟩
  exact ⟨term, frame', hrun, Frame.closeAt_some_eq_error hclose⟩

namespace Phrase

/-- If a phrase does not keep within the limits, it `FailsWith` an error at a `Culprit`. -/
def Fails (limits : Limits) {level : Option Tier} (p : Phrase level) : Prop :=
  ∀ (frame : Frame) (outer : Outer) (tokens rest : List Token) (stop : Nat),
    frame.Kept limits → frame.above level = frame → tokens.map Token.toLexeme = p.lexemes →
      outer.depth ≤ limits.depth →
        ¬(outer.depth + p.depth ≤ limits.depth ∧ p.rawTree.height ≤ limits.height) →
          ∃ error, FailsWith limits stop frame outer tokens rest level error ∧
            Culprit limits outer.depth tokens
              ((Token.operators tokens).zip p.rawTree.inOrder) error

/-- If an operand of a chain does not keep within the limits, reading the chain `FailsWith` an error
at a `Culprit`, whatever the operations `es` of the chain itself are. -/
def FailsOn (limits : Limits) {tier : Tier} (p : Phrase (some tier)) : Prop :=
  ∀ (frame : Frame) (outer : Outer) (tokens rest : List Token) (stop : Nat),
    frame.Kept limits → frame.above tier.operand = frame →
      tokens.map Token.toLexeme = p.lexemes → outer.depth ≤ limits.depth →
        ¬(outer.depth + p.depth ≤ limits.depth ∧
            ∀ e ∈ (p.row Row.rawTree).operands, e.height ≤ limits.height) →
          ∃ error, FailsWith limits stop frame outer tokens rest tier.operand error ∧
            ∀ es, es.length = (p.row Row.rawTree).later.length →
              Culprit limits outer.depth tokens (p.places tokens es) error

/-- What the induction over phrases is about. -/
def FailsAtLevel (limits : Limits) : {level : Option Tier} → Phrase level → Prop
  | none, p => p.Fails limits
  | some _, p => p.FailsOn limits

/-! ### Chains -/

/-- A chain that `FailsOn` its operands `Fails`, be it because of one of them or because of an
operation of its own. -/
theorem FailsOn.fails {tier : Tier} {p : Phrase (some tier)} (h : p.FailsOn limits) :
    p.Fails limits := by
  intro frame outer tokens rest stop hkept hfresh htokens houter hnot
  rw [← p.places_operations tokens]
  by_cases hwithin : outer.depth + p.depth ≤ limits.depth ∧
      ∀ e ∈ (p.row Row.rawTree).operands, e.height ≤ limits.height
  · obtain ⟨term, frame', last, hrun, hkept', hterm, -, hlast, hrow, hplaces⟩ :=
      ReadsOn.fromStart (p.readsAtLevel limits) rest stop hkept hfresh htokens hwithin.1 hwithin.2
    cases hclose : frame'.closeAt limits term (some tier) with
    | ok m =>
      obtain ⟨last', hlast', hm, hheight⟩ := (Frame.closeAt_eq_ok_iff hkept' hterm tier).1 hclose
      obtain rfl := Except.ok.inj (hlast.symm.trans hlast')
      rw [hrow] at hm
      rw [← m.height_eq, hm] at hheight
      exact absurd ⟨hwithin.1, hheight⟩ hnot
    | error error =>
      have htall := Frame.tooTall_of_closeAt_eq_error hkept' hterm hlast hclose
      exact ⟨error, Or.inr ⟨term, frame', hrun, hclose⟩, .operation (htall.mono hplaces)⟩
  · have hfresh' : frame.above tier.operand = frame := by
      rw [← hfresh, Frame.above_some_above_operand]
    obtain ⟨error, hfails, hculprit⟩ :=
      h frame outer tokens rest stop hkept hfresh' htokens houter hwithin
    exact ⟨error, hfails.chain, hculprit _ (Row.forall₂_operations _).length_eq.symm⟩

theorem FailsAtLevel.fails {level : Option Tier} {p : Phrase level} (h : p.FailsAtLevel limits) :
    p.Fails limits := by
  match level, p, h with
  | none, _, h => exact h
  | some _, _, h => exact FailsOn.fails h

theorem Fails.only {tier : Tier} {p : Phrase tier.operand} (h : p.Fails limits) :
    (only p).FailsOn limits := by
  intro frame outer tokens rest stop hkept hfresh htokens houter hnot
  have hnot : ¬(outer.depth + p.depth ≤ limits.depth ∧ p.rawTree.height ≤ limits.height) := by
    rintro ⟨hdepth, hheight⟩
    refine hnot ⟨hdepth, ?_⟩
    intro e he
    obtain rfl : e = p.rawTree := List.mem_singleton.1 he
    exact hheight
  obtain ⟨error, hfails, hculprit⟩ :=
    h frame outer tokens rest stop hkept hfresh htokens houter hnot
  refine ⟨error, hfails, fun es _ => ?_⟩
  rwa [places_only]

/-- `run` does not read the `sign` of an operator after an operand on which `closeAt` fails. -/
theorem run_sign_eq_error {tier : Tier} {op : Op} (hop : tier.joins op = true) {frame : Frame}
    {outer : Outer} {term : Measured} {error : Error}
    (hclose : frame.closeAt limits term tier.operand = .error error) {sign : List Token}
    (hsign : sign.map Token.toLexeme = tier.sign op) (rest : List Token) (stop : Nat) :
    (run limits stop (.holding term frame outer) (sign ++ rest)).1 = .error error := by
  by_cases htier : tier = .group
  · -- terms are no chains
    subst htier
    contradiction
  · obtain ⟨rfl, token, rfl, hkind⟩ := Token.exists_sign_eq_singleton hop htier hsign
    have hread : Progress.read limits (.holding term frame outer) token = .error error := by
      rw [read_holding_of_operator term frame outer hkind, hclose]
      rfl
    rw [List.singleton_append, run, hread]

/-- A `link` fails as its operand does, or as the rest of the chain. -/
theorem Fails.link {tier : Tier} {p : Phrase tier.operand} (hp : p.Fails limits) {op : Op}
    (hop : tier.joins op = true) {q : Phrase (some tier)} (hq : q.FailsOn limits) :
    (link p op hop q).FailsOn limits := by
  intro frame outer tokens rest stop hkept hfresh htokens houter hnot
  obtain ⟨ts, sign, next, ts', rfl, hts, hsign, hnext, hts'⟩ := exists_tokens_link htokens
  by_cases hwithin : outer.depth + p.depth ≤ limits.depth ∧ p.rawTree.height ≤ limits.height
  · -- the operand and the sign are read
    obtain ⟨frame', hrun, hkept', -⟩ :=
      (p.reads limits).sign hop outer ts' rest stop hkept hfresh hts hsign hnext hwithin.1
        hwithin.2
    let link : Link := ⟨.of p.rawTree, op, (sign.headD next).span⟩
    have hnot' : ¬(outer.depth + q.depth ≤ limits.depth ∧
        ∀ e ∈ (q.row Row.rawTree).operands, e.height ≤ limits.height) := by
      rintro ⟨hdepth, hheights⟩
      refine hnot ⟨?_, List.forall_mem_cons.2 ⟨hwithin.2, hheights⟩⟩
      show outer.depth + max p.depth q.depth ≤ limits.depth
      omega
    obtain ⟨error, hfails, hculprit⟩ :=
      hq (frame'.goOn link tier) outer (next :: ts') rest stop (hkept'.goOn hwithin.2 hop)
        (Frame.above_operand_goOn frame' link tier) hts' houter hnot'
    refine ⟨error, ?_, ?_⟩
    · unfold FailsWith
      rw [hrun]
      exact hfails
    · intro es hes
      obtain ⟨e, es, rfl⟩ := List.exists_cons_of_length_eq_add_one hes
      rw [places_link hop hts hsign hnext]
      have hsignText : BalancedTo 0 (Token.text sign) := by
        rw [Token.text, hsign]
        exact balancedTo_sign tier op
      have hoperand : BalancedTo p.depth (Token.text ts) := by
        rw [text_eq_chars hts]
        exact p.balancedTo_chars
      have hes : es.length = (q.row Row.rawTree).later.length := by
        simpa [row, Row.prepend] using hes
      have hgoOn := (hculprit es hes).prepend_of_balancedTo hsignText houter
        (List.subset_cons_self (⟨op, (sign.headD next).span⟩, e) _)
      exact hgoOn.prepend_of_balancedTo hoperand hwithin.1 (List.subset_append_right _ _)
  · -- the operand is not read
    obtain ⟨error, hfails, hculprit⟩ :=
      hp frame outer ts (sign ++ next :: ts' ++ rest) stop hkept hfresh hts houter hwithin
    refine ⟨error, Or.inl ?_, ?_⟩
    · rw [List.append_assoc]
      rcases hfails with hfails | ⟨term, frame', hrun, hclose⟩
      · exact hfails
      · rw [hrun, List.append_assoc]
        exact run_sign_eq_error hop hclose hsign _ stop
    · intro es hes
      obtain ⟨e, es, rfl⟩ := List.exists_cons_of_length_eq_add_one hes
      rw [places_link hop hts hsign hnext]
      exact hculprit.append (sign ++ next :: ts') (List.subset_append_left _ _)

/-! ### Terms -/

/-- Either the parenthesis itself is one too many, or the `inner` expression fails, at the closing
parenthesis if not before. -/
theorem Fails.parentheses {inner : Phrase (some .expression)} (h : inner.Fails limits) :
    (parentheses inner).Fails limits := by
  intro frame outer tokens rest stop hkept _ htokens houter hnot
  obtain ⟨first, last, ts, rfl, hfirst, hopen, hclose, hts⟩ := exists_tokens_parentheses htokens
  rw [places_parentheses hopen hclose hts]
  by_cases hroom : outer.depth < limits.depth
  · have hnot' : ¬((outer.push frame).depth + inner.depth ≤ limits.depth ∧
        inner.rawTree.height ≤ limits.height) := by
      rintro ⟨hdepth, hheight⟩
      have hdepth : outer.depth + 1 + inner.depth ≤ limits.depth := hdepth
      refine hnot ⟨?_, hheight⟩
      show outer.depth + (inner.depth + 1) ≤ limits.depth
      omega
    obtain ⟨error, hfails, hculprit⟩ :=
      h {} (outer.push frame) ts (last :: rest) stop (Frame.kept_empty limits) rfl hts hroom hnot'
    refine ⟨error, Or.inl ?_, ?_⟩
    · rw [List.cons_append,
        Progress.run_of_read_eq_onward (read_awaiting_of_openParen hopen hroom),
        List.append_assoc, List.singleton_append]
      rcases hfails with hfails | ⟨term, frame', hrun, hclosed⟩
      · exact hfails
      · have hleave : Progress.read limits (.holding term frame' (outer.push frame)) last =
            .error error := by
          have hclosed : frame'.close limits term = .error error := hclosed
          simp only [Progress.read, Progress.leave, hclose, hclosed]
          rfl
        rw [hrun, run, hleave]
    · have hfirstText : Token.text [first] = ['('] := by
        show first.toLexeme.chars ++ [] = ['(']
        rw [hfirst]
        rfl
      rw [← List.singleton_append]
      refine (hculprit.append [last] (List.Subset.refl _)).prepend ?_ ?_ (List.Subset.refl _)
      · rw [hfirstText, nestedFrom_cons, nestedFrom_nil]
        exact ⟨houter, hroom⟩
      · rw [hfirstText]
        rfl
  · have henter : Progress.read limits (.awaiting frame outer) first =
        .error ⟨[first.span], .nestingTooDeep limits.depth⟩ := by
      simp only [Progress.read, Progress.enter, hopen, hroom, ↓reduceIte]
      rfl
    refine ⟨⟨[first.span], .nestingTooDeep limits.depth⟩, Or.inl ?_, ?_⟩
    · rw [List.cons_append, run, henter]
    · refine @Culprit.parenthesis _ _ _ _ _ [] (ts ++ [last]) first rfl hopen ?_ ?_ rfl
      · exact nestedFrom_nil.2 houter
      · show outer.depth = limits.depth
        omega

/-! ### Phrases -/

theorem failsAtLevel (limits : Limits) {level : Option Tier} (p : Phrase level) :
    p.FailsAtLevel limits := by
  induction p with
  | number first more h =>
    -- a leaf keeps within the limits
    exact fun frame outer tokens rest stop _ _ _ houter hnot =>
      absurd ⟨houter, Nat.zero_le _⟩ hnot
  | letter name h =>
    exact fun frame outer tokens rest stop _ _ _ houter hnot =>
      absurd ⟨houter, Nat.zero_le _⟩ hnot
  | parentheses inner ih => exact Fails.parentheses ih.fails
  | only operand ih => exact Fails.only ih.fails
  | link operand op h rest ih ihrest => exact Fails.link ih.fails h ihrest

/-- Every phrase `Fails` unless it keeps within the limits. -/
theorem fails (limits : Limits) {level : Option Tier} (p : Phrase level) : p.Fails limits :=
  (p.failsAtLevel limits).fails

end Phrase

/-! ### Sentences -/

theorem parseRaw_eq_error_of_run {text : List Char} {error : Error}
    (h : (run limits (byteLength text) .start (Token.scan text)).1 = .error error) :
    parseRaw limits text = .error error := by
  rw [parseRaw_of_run rfl, h]
  rfl

/-- `parseRaw` fails at a `Culprit` if the expression does not keep within the limits. -/
theorem Phrase.Spells.exists_culprit {p : Phrase (some .expression)} {text : List Char}
    (h : p.Spells text) (hnot : ¬(p.depth ≤ limits.depth ∧ p.rawTree.height ≤ limits.height)) :
    ∃ error, parseRaw limits text = .error error ∧
      Culprit limits 0 (Token.scan text)
        ((Token.operators (Token.scan text)).zip p.rawTree.inOrder) error := by
  have hnot' :
      ¬(Outer.empty.depth + p.depth ≤ limits.depth ∧ p.rawTree.height ≤ limits.height) := by
    rintro ⟨hdepth, hheight⟩
    refine hnot ⟨?_, hheight⟩
    have hdepth : 0 + p.depth ≤ limits.depth := hdepth
    omega
  obtain ⟨error, hfails, hculprit⟩ :=
    p.fails limits {} .empty (Token.scan text) [] (byteLength text) (Frame.kept_empty limits) rfl
      h.map_toLexeme_scan (Nat.zero_le _) hnot'
  refine ⟨error, parseRaw_eq_error_of_run ?_, hculprit⟩
  unfold FailsWith at hfails
  rw [List.append_nil] at hfails
  rcases hfails with hfails | ⟨term, frame, hrun, hclose⟩
  · exact hfails
  · -- the chains are closed at the end of the text
    have hclose : frame.close limits term = .error error := hclose
    rw [Progress.start, hrun, run, Progress.finish]
    simp only [hclose]
    rfl

/-- The parenthesis behind `before` is the first one of the text that is opened while `depth` others
are open. -/
structure FirstOpen (depth : Nat) (text before : List Char) : Prop where
  exists_eq : ∃ after, text = before ++ '(' :: after
  unclosed_eq : unclosed before = depth
  length_le : ∀ before' after', text = before' ++ '(' :: after' → unclosed before' = depth →
    before.length ≤ before'.length

theorem unclosed_concat_openParen (text : List Char) :
    unclosed (text ++ ['(']) = unclosed text + 1 := by
  simp [unclosed, openAfter]

/-- `FirstOpen` holds of a parenthesis that is one too many if none was before. -/
theorem firstOpen_of_nestedWithin {depth : Nat} {before after : List Char}
    (hwithin : NestedWithin depth before) (hunclosed : unclosed before = depth) :
    FirstOpen depth (before ++ '(' :: after) before := by
  refine ⟨⟨after, rfl⟩, hunclosed, ?_⟩
  intro before' after' htext hunclosed'
  by_contra hlt
  -- an earlier one would be open behind it, and so be one too many before the other
  have hshort : before' ++ ['('] <+: before ++ '(' :: after :=
    ⟨after', by rw [htext, List.append_assoc, List.singleton_append]⟩
  have hlength : (before' ++ ['(']).length ≤ before.length := by
    rw [List.length_append, List.length_singleton]
    omega
  have hprefix : before' ++ ['('] <+: before :=
    List.prefix_of_prefix_length_le hshort (List.prefix_append ..) hlength
  have hle := hwithin _ hprefix
  rw [unclosed_concat_openParen] at hle
  omega

/-- No parenthesis is `FirstOpen` in a text that is `NestedWithin` the depth. -/
theorem FirstOpen.not_nestedWithin {depth : Nat} {text before : List Char}
    (h : FirstOpen depth text before) : ¬NestedWithin depth text := by
  intro hwithin
  obtain ⟨after, rfl⟩ := h.exists_eq
  have hle := hwithin (before ++ ['(']) ⟨after, by rw [List.append_assoc, List.singleton_append]⟩
  rw [unclosed_concat_openParen, h.unclosed_eq] at hle
  omega

/-- A `Culprit` in the `scan` of a text is `FirstOpen` or `TooTall`. -/
theorem Culprit.of_scan {text : List Char} {places : List (Joint × Expr)} {error : Error}
    (h : Culprit limits 0 (Token.scan text) places error) :
    (∃ before, FirstOpen limits.depth text before ∧
      error = ⟨[⟨byteLength before, byteLength before + 1⟩], .nestingTooDeep limits.depth⟩) ∨
    Chain.TooTall limits.height places error := by
  cases h with
  | @parenthesis before after token htokens hkind hwithin hdepth herror =>
    have hspec := Token.Kind.ofChar_spec token.first
    rw [show Token.Kind.ofChar token.first = .openParen from hkind] at hspec
    have hfirst : token.first = '(' := hspec
    have hdigit : token.first.isDigit = false := by rw [hfirst]; rfl
    obtain ⟨s, t, rfl, hs, hspan⟩ := Token.exists_eq_append_of_scan_eq_append htokens hdigit
    have htext : Token.text before = s := by
      rw [Token.text, ← hs, flatMap_chars_lexemes]
    rw [htext] at hwithin hdepth
    rw [hfirst] at hspan
    left
    refine ⟨s, ?_, ?_⟩
    · rw [hfirst]
      exact firstOpen_of_nestedWithin hwithin hdepth
    · rw [herror, hspan]
      rfl
  | operation h => exact Or.inr h

/-- `parseRaw` fails on an expression only at a `Culprit`. -/
theorem Phrase.Spells.culprit_of_parseRaw_eq_error {p : Phrase (some .expression)}
    {text : List Char} (h : p.Spells text) {error : Error}
    (herror : parseRaw limits text = .error error) :
    Culprit limits 0 (Token.scan text)
      ((Token.operators (Token.scan text)).zip p.rawTree.inOrder) error := by
  have hnot : ¬(p.depth ≤ limits.depth ∧ p.rawTree.height ≤ limits.height) := by
    rintro ⟨hdepth, hheight⟩
    rw [h.parseRaw_eq_ok hdepth hheight] at herror
    contradiction
  obtain ⟨error', herror', hculprit⟩ := h.exists_culprit hnot
  rw [herror] at herror'
  obtain rfl := Except.error.inj herror'
  exact hculprit

/-- An expression is only rejected because a limit is passed. The error names one of them, and has
one span: the first parenthesis that is one too many, or the operator of an operation of the raw
tree that is one too tall. Multiplications that are not written have the first token behind them for
an operator, and so the operators of the text belong to the operations of the tree one by one.

If no parenthesis is one too many, the expression is rejected exactly if the tree is too tall. -/
theorem limit_errors_of_derives {text : List Char} (h : Derives .expression text) :
    ∃ e, RawTree text e ∧ (∃ wide, parseRaw wide text = .ok e) ∧
      List.Forall₂ (fun joint sub => sub.isOperation joint.op = true)
        (Token.operators (Token.scan text)) e.inOrder ∧
      ∀ limits,
        (∀ error, parseRaw limits text = .error error →
          (∃ before, FirstOpen limits.depth text before ∧
            error = ⟨[⟨byteLength before, byteLength before + 1⟩],
              .nestingTooDeep limits.depth⟩) ∨
          ∃ joint sub, (joint, sub) ∈ (Token.operators (Token.scan text)).zip e.inOrder ∧
            sub.height = limits.height + 1 ∧
              error = ⟨[joint.span], .expressionTooDeep limits.height⟩) ∧
        (NestedWithin limits.depth text →
          ((∃ error, parseRaw limits text = .error error) ↔ limits.height < e.height) ∧
          ∀ error, parseRaw limits text = .error error →
            error.fault = .expressionTooDeep limits.height) := by
  obtain ⟨p, hp⟩ := Phrase.derives_expression_iff.1 h
  have hoperators := Phrase.forall₂_operators hp.map_toLexeme_scan (Row.forall₂_operations _)
  rw [← Row.inOrder_rawTree] at hoperators
  refine ⟨p.rawTree, ⟨p, hp, rfl⟩, ⟨⟨p.depth, p.rawTree.height⟩, ?_⟩, hoperators, fun limits => ?_⟩
  · exact hp.parseRaw_eq_ok (Nat.le_refl _) (Nat.le_refl _)
  · refine ⟨fun error herror => (hp.culprit_of_parseRaw_eq_error herror).of_scan, ?_⟩
    intro hwithin
    have hdepth : p.depth ≤ limits.depth := (hp.nestedWithin_iff _).1 hwithin
    refine ⟨⟨?_, ?_⟩, ?_⟩
    · rintro ⟨error, herror⟩
      by_contra hheight
      rw [hp.parseRaw_eq_ok hdepth (by omega)] at herror
      contradiction
    · intro hheight
      obtain ⟨error, herror, -⟩ := @Phrase.Spells.exists_culprit limits p text hp (by omega)
      exact ⟨error, herror⟩
    · intro error herror
      rcases (hp.culprit_of_parseRaw_eq_error herror).of_scan with hnesting | htall
      · obtain ⟨before, hfirst, -⟩ := hnesting
        exact absurd hwithin hfirst.not_nestedWithin
      · obtain ⟨joint, sub, -, -, rfl⟩ := htall
        rfl

/-- In `a-bc-d`, where the subtractions are nested to the left, the product is too tall if there may
be no operation at all, and it stands at `c`. In `((a))` the second parenthesis is the first one
that is opened while another one is open. -/
theorem limit_errors_of_product_and_parentheses :
    (∃ joint sub,
      (joint, sub) ∈ (Token.operators (Token.scan ['a', '-', 'b', 'c', '-', 'd'])).zip
        (Expr.operation .sub
          [.operation .sub [.var 'a', .operation .mul [.var 'b', .var 'c']], .var 'd']).inOrder ∧
      sub.height = 1 ∧ joint.span = ⟨3, 4⟩) ∧
    ∃ before, FirstOpen 1 ['(', '(', 'a', ')', ')'] before ∧ byteLength before = 1 := by
  have hproduct : parseRaw {} ['a', '-', 'b', 'c', '-', 'd'] = .ok (.operation .sub
      [.operation .sub [.var 'a', .operation .mul [.var 'b', .var 'c']], .var 'd']) :=
    parseRaw_of_run rfl
  have hparentheses : parseRaw {} ['(', '(', 'a', ')', ')'] = .ok (.var 'a') := parseRaw_of_run rfl
  obtain ⟨-, hproduct, -⟩ := parseRaw_eq_ok_iff_rawTree.1 hproduct
  obtain ⟨-, hparentheses, -⟩ := parseRaw_eq_ok_iff_rawTree.1 hparentheses
  constructor
  · obtain ⟨e, he, -, -, hlimits⟩ :=
      limit_errors_of_derives (derives_expression_iff_exists_rawTree.2 ⟨_, hproduct⟩)
    obtain rfl := he.unique hproduct
    have herror : parseRaw ⟨0, 0⟩ ['a', '-', 'b', 'c', '-', 'd'] =
        .error ⟨[⟨3, 4⟩], .expressionTooDeep 0⟩ := parseRaw_of_run rfl
    rcases (hlimits ⟨0, 0⟩).1 _ herror with ⟨before, -, h⟩ | ⟨joint, sub, hmem, hheight, h⟩
    · simp at h
    · exact ⟨joint, sub, hmem, hheight, by simpa using h.symm⟩
  · obtain ⟨e, -, -, -, hlimits⟩ :=
      limit_errors_of_derives (derives_expression_iff_exists_rawTree.2 ⟨_, hparentheses⟩)
    have herror : parseRaw ⟨1, 0⟩ ['(', '(', 'a', ')', ')'] =
        .error ⟨[⟨1, 2⟩], .nestingTooDeep 1⟩ := parseRaw_of_run rfl
    rcases (hlimits ⟨1, 0⟩).1 _ herror with ⟨before, hfirst, h⟩ | ⟨joint, sub, -, -, h⟩
    · exact ⟨before, hfirst, by simpa using h.symm⟩
    · simp at h

end Reckon
