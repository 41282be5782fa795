import Reckon.Proofs.Joints
import Reckon.Proofs.Reading

/-!
# What is accepted

Whatever follows in the text, the tokens of a phrase are read to their end, and closing the chains
that they opened gives its raw tree, if that keeps within the limits (`Phrase.reads`). Together with
what is known of a successful reading, this says exactly which texts are accepted and with which
result (`parseRaw_eq_ok_iff_phrase`).
-/

namespace Reckon

open Chain (Link)
open Progress (run)

variable {limits : Limits}

/-- Where `p` fits in the frame, `run` reads its tokens, and `Frame.closeAt level` then gives
`p.rawTree`. The chains of `frame.above level` stay as they were. -/
def Phrase.Reads (limits : Limits) {level : Option Tier} (p : Phrase level) : Prop :=
  ∀ (frame : Frame) (outer : Outer) (tokens rest : List Token) (stop : Nat),
    frame.Kept limits → frame.above level = frame → tokens.map Token.toLexeme = p.lexemes →
      outer.depth + p.depth ≤ limits.depth → p.rawTree.height ≤ limits.height →
        ∃ term frame',
          run limits stop (.awaiting frame outer) (tokens ++ rest) =
              run limits stop (.holding term frame' outer) rest ∧
            frame'.Kept limits ∧ term.height ≤ limits.height ∧ frame'.above level = frame ∧
              frame'.closeAt limits term level = .ok (.of p.rawTree)

/-- Where the chain `p` goes on after the links of its tier, `run` reads its tokens and adds links
for all its operands but the last one. With the places of its operators, these are in `p.places`. -/
def Phrase.ReadsOn (limits : Limits) {tier : Tier} (p : Phrase (some tier)) : Prop :=
  ∀ (frame : Frame) (outer : Outer) (tokens rest : List Token) (stop : Nat),
    frame.Kept limits → frame.above tier.operand = frame →
      tokens.map Token.toLexeme = p.lexemes → outer.depth + p.depth ≤ limits.depth →
        (∀ e ∈ (p.row Row.rawTree).operands, e.height ≤ limits.height) →
          ∃ term frame' links last,
            run limits stop (.awaiting frame outer) (tokens ++ rest) =
                run limits stop (.holding term frame' outer) rest ∧
              frame'.Kept limits ∧ term.height ≤ limits.height ∧
                frame'.above (some tier) = frame.above (some tier) ∧
                  frame'.links tier = links ++ frame.links tier ∧
                    frame'.closeAt limits term tier.operand = .ok last ∧
                      Chain.row links (.single last.expr) = p.row Row.rawTree ∧
                        ∀ es, es.length = links.length →
                          (links.reverse.map Link.joint).zip es ⊆ p.places tokens es

/-- `Phrase.Reads` for a term and `Phrase.ReadsOn` for a chain, which is what the induction over
phrases is about. -/
def Phrase.ReadsAtLevel (limits : Limits) : {level : Option Tier} → Phrase level → Prop
  | none, p => p.Reads limits
  | some _, p => p.ReadsOn limits

theorem Progress.run_of_read_eq_onward {progress progress' : Progress} {token : Token}
    (h : progress.read limits token = .ok (.onward progress')) (stop : Nat) (tokens : List Token) :
    run limits stop progress (token :: tokens) = run limits stop progress' tokens := by
  rw [run, h]

namespace Phrase

/-! ### Tokens -/

/-- An operator closes the chains below `op.tier` and goes on there. -/
theorem read_holding_of_operator (term : Measured) (frame : Frame) (outer : Outer) {token : Token}
    {op : Op} (h : token.kind = .operator op) :
    Progress.read limits (.holding term frame outer) token =
      frame.closeAt limits term op.tier.operand >>= fun left =>
        .ok (.onward (.awaiting (frame.goOn ⟨left, op, token.span⟩ op.tier) outer)) := by
  unfold Progress.read
  simp only [h]
  rw [Frame.operate_eq]
  cases frame.closeAt limits term op.tier.operand <;> rfl

/-- An open parenthesis pushes the frame and begins an empty one, if `limits.depth` leaves room. -/
theorem read_awaiting_of_openParen {frame : Frame} {outer : Outer} {token : Token}
    (h : token.kind = .openParen) (hroom : outer.depth < limits.depth) :
    Progress.read limits (.awaiting frame outer) token =
      .ok (.onward (.awaiting {} (outer.push frame))) := by
  simp only [Progress.read, Progress.enter, h, hroom, ↓reduceIte]
  rfl

/-! ### Chains -/

/-- For a chain that begins here, the links of its tier make up `p.row`, and `Chain.places` are
among `p.places`. -/
theorem ReadsOn.fromStart {tier : Tier} {p : Phrase (some tier)} (h : p.ReadsOn limits)
    {frame : Frame} {outer : Outer} {tokens : List Token} (rest : List Token) (stop : Nat)
    (hkept : frame.Kept limits) (hfresh : frame.above (some tier) = frame)
    (htokens : tokens.map Token.toLexeme = p.lexemes)
    (hdepth : outer.depth + p.depth ≤ limits.depth)
    (hheights : ∀ e ∈ (p.row Row.rawTree).operands, e.height ≤ limits.height) :
    ∃ term frame' last,
      run limits stop (.awaiting frame outer) (tokens ++ rest) =
          run limits stop (.holding term frame' outer) rest ∧
        frame'.Kept limits ∧ term.height ≤ limits.height ∧ frame'.above (some tier) = frame ∧
          frame'.closeAt limits term tier.operand = .ok last ∧
            Chain.row (frame'.links tier) (.single last.expr) = p.row Row.rawTree ∧
              Chain.places (frame'.links tier) last.expr ⊆
                p.places tokens (p.row Row.rawTree).operations := by
  have hfresh' : frame.above tier.operand = frame := by
    rw [← hfresh, Frame.above_some_above_operand]
  -- no links came before the chain, so those that were added make up all of it
  have hempty : frame.links tier = [] := by
    rw [← hfresh, Frame.links_above_some]
  obtain ⟨term, frame', links, last, hrun, hkept', hterm, habove, hlinks, hlast, hrow, hplaces⟩ :=
    h frame outer tokens rest stop hkept hfresh' htokens hdepth hheights
  rw [hempty, List.append_nil] at hlinks
  subst hlinks
  refine ⟨term, frame', last, hrun, hkept', hterm, habove.trans hfresh, hlast, hrow, ?_⟩
  rw [Chain.places, hrow]
  refine hplaces _ ?_
  rw [← hrow, ← (Row.forall₂_operations _).length_eq, Chain.length_later_row]

/-- A chain that begins here can be closed. -/
theorem ReadsOn.reads {tier : Tier} {p : Phrase (some tier)} (h : p.ReadsOn limits) :
    p.Reads limits := by
  intro frame outer tokens rest stop hkept hfresh htokens hdepth hheight
  have hoperands : ∀ e ∈ (p.row Row.rawTree).operands, e.height ≤ limits.height := fun e he =>
    (Row.height_le_rawTree he).trans hheight
  obtain ⟨term, frame', last, hrun, hkept', hterm, habove, hlast, hrow, -⟩ :=
    h.fromStart rest stop hkept hfresh htokens hdepth hoperands
  refine ⟨term, frame', hrun, hkept', hterm, habove, ?_⟩
  rw [Frame.closeAt_eq_ok_iff hkept' hterm]
  refine ⟨last, hlast, ?_, hheight⟩
  rw [hrow]
  rfl

theorem ReadsAtLevel.reads {level : Option Tier} {p : Phrase level} (h : p.ReadsAtLevel limits) :
    p.Reads limits := by
  match level, p, h with
  | none, _, h => exact h
  | some _, _, h => exact ReadsOn.reads h

/-- A single operand is a chain (`Phrase.only`). -/
theorem Reads.only {tier : Tier} {p : Phrase tier.operand} (h : p.Reads limits) :
    (only p).ReadsOn limits := by
  intro frame outer tokens rest stop hkept hfresh htokens hdepth hheight
  have hp : p.rawTree.height ≤ limits.height := hheight p.rawTree List.mem_cons_self
  obtain ⟨term, frame', hrun, hkept', hterm, habove, hclose⟩ :=
    h frame outer tokens rest stop hkept hfresh htokens hdepth hp
  refine ⟨term, frame', [], .of p.rawTree, hrun, hkept', hterm, ?_, ?_, hclose, rfl, ?_⟩
  · rw [← Frame.above_operand_above_some, habove]
  · rw [← Frame.links_above_operand, habove]
    rfl
  · exact fun es _ => List.nil_subset _

/-- `tier.sign op` closes the chains below `tier` and adds a link. Side by side terms have no sign,
so there it is the first token of the next term that does. -/
theorem run_sign {tier : Tier} {op : Op} (hop : tier.joins op = true) {frame : Frame}
    {outer : Outer} {term last : Measured}
    (hclose : frame.closeAt limits term tier.operand = .ok last) {sign : List Token}
    (hsign : sign.map Token.toLexeme = tier.sign op) {next : Token}
    (hnext : next.kind.startsTerm = true) (rest : List Token) (stop : Nat) :
    run limits stop (.holding term frame outer) (sign ++ next :: rest) =
      run limits stop (.awaiting (frame.goOn ⟨last, op, (sign.headD next).span⟩ tier) outer)
        (next :: rest) := by
  by_cases htier : tier = .group
  · subst htier
    obtain rfl : term = last := Except.ok.inj hclose
    obtain rfl : op = .mul := by simpa [Tier.joins] using hop
    obtain rfl : sign = [] := List.map_eq_nil_iff.1 hsign
    rw [List.nil_append, run, run, Progress.read_holding_of_startsTerm term frame outer hnext]
    rfl
  · obtain ⟨rfl, token, rfl, hkind⟩ := Token.exists_sign_eq_singleton hop htier hsign
    rw [List.singleton_append]
    refine Progress.run_of_read_eq_onward ?_ stop (next :: rest)
    rw [read_holding_of_operator term frame outer hkind, hclose]
    rfl

/-- An operand and `tier.sign op` are read as a link, before the first token of the chain that goes
on. -/
theorem Reads.sign {tier : Tier} {p : Phrase tier.operand} (hp : p.Reads limits) {op : Op}
    (hop : tier.joins op = true) {frame : Frame} (outer : Outer) {ts sign : List Token}
    {next : Token} (ts' rest : List Token) (stop : Nat) (hkept : frame.Kept limits)
    (hfresh : frame.above tier.operand = frame) (hts : ts.map Token.toLexeme = p.lexemes)
    (hsign : sign.map Token.toLexeme = tier.sign op) (hnext : next.kind.startsTerm = true)
    (hdepth : outer.depth + p.depth ≤ limits.depth) (hheight : p.rawTree.height ≤ limits.height) :
    ∃ frame' : Frame,
      run limits stop (.awaiting frame outer) (ts ++ (sign ++ next :: ts') ++ rest) =
        run limits stop
          (.awaiting (frame'.goOn ⟨.of p.rawTree, op, (sign.headD next).span⟩ tier) outer)
          (next :: ts' ++ rest) ∧
      frame'.Kept limits ∧ frame'.above tier.operand = frame := by
  obtain ⟨term, frame', hrun, hkept', -, habove, hclose⟩ :=
    hp frame outer ts (sign ++ next :: ts' ++ rest) stop hkept hfresh hts hdepth hheight
  refine ⟨frame', ?_, hkept', habove⟩
  rw [List.append_assoc, hrun, List.append_assoc, List.cons_append,
    run_sign hop hclose hsign hnext (ts' ++ rest) stop]

/-- An operand, `tier.sign op` and a chain are read as a chain (`Phrase.link`). -/
theorem Reads.link {tier : Tier} {p : Phrase tier.operand} (hp : p.Reads limits) {op : Op}
    (hop : tier.joins op = true) {q : Phrase (some tier)} (hq : q.ReadsOn limits) :
    (link p op hop q).ReadsOn limits := by
  intro frame outer tokens rest stop hkept hfresh htokens hdepth hheight
  have hdepth : outer.depth + max p.depth q.depth ≤ limits.depth := hdepth
  have hheightp : p.rawTree.height ≤ limits.height := hheight p.rawTree List.mem_cons_self
  have hheightq : ∀ e ∈ (q.row Row.rawTree).operands, e.height ≤ limits.height := fun e he =>
    hheight e (List.mem_cons_of_mem _ he)
  obtain ⟨ts, sign, next, ts', rfl, hts, hsign, hnext, hts'⟩ := exists_tokens_link htokens
  obtain ⟨frame₁, hrun₁, hkept₁, habove₁⟩ :=
    hp.sign hop outer ts' rest stop hkept hfresh hts hsign hnext (by omega) hheightp
  let link : Link := ⟨.of p.rawTree, op, (sign.headD next).span⟩
  have hkept₂ : (frame₁.goOn link tier).Kept limits := hkept₁.goOn hheightp hop
  -- the chain
  obtain ⟨term, frame', links, last, hrun, hkept', hterm, habove, hlinks, hlast, hrow, hplaces⟩ :=
    hq (frame₁.goOn link tier) outer (next :: ts') rest stop hkept₂
      (Frame.above_operand_goOn frame₁ link tier) hts' (by omega) hheightq
  refine ⟨term, frame', links ++ [link], last, hrun₁.trans hrun, hkept', hterm, ?_, ?_, hlast,
    ?_, ?_⟩
  · rw [habove, Frame.above_some_goOn, ← Frame.above_operand_above_some, habove₁]
  · rw [hlinks, Frame.links_goOn, ← Frame.links_above_operand frame₁, habove₁]
    simp
  · rw [Chain.row_append, hrow]
    rfl
  · intro es hes
    rw [List.length_append] at hes
    obtain ⟨e, es, rfl⟩ := List.exists_cons_of_length_eq_add_one hes
    have hes : es.length = links.length := by simpa using hes
    rw [List.reverse_append, List.map_append, places_link hop hts hsign hnext]
    exact List.subset_append_of_subset_right _ (List.cons_subset_cons _ (hplaces es hes))

/-! ### Terms -/

theorem reads_number {first : Char} {more : List Char}
    (h : ∀ c ∈ first :: more, c.isDigit = true) : (number first more h).Reads limits := by
  intro frame outer tokens rest stop hkept _ htokens _ _
  obtain ⟨token, rfl, hkind, hchars⟩ := exists_tokens_number h htokens
  refine ⟨.value (Text.ofDigits (first :: more)), frame, ?_, hkept, Nat.zero_le _, rfl, rfl⟩
  refine Progress.run_of_read_eq_onward ?_ stop rest
  simp only [Progress.read, Progress.enter, hkind, hchars]
  rfl

theorem reads_letter {name : Char} (h : name.isAlpha = true) : (letter name h).Reads limits := by
  intro frame outer tokens rest stop hkept _ htokens _ _
  obtain ⟨token, rfl, hkind, hfirst⟩ := exists_tokens_letter h htokens
  refine ⟨.var name, frame, ?_, hkept, Nat.zero_le _, rfl, rfl⟩
  refine Progress.run_of_read_eq_onward ?_ stop rest
  simp only [Progress.read, Progress.enter, hkind, hfirst]
  rfl

/-- `Phrase.parentheses` is read in a frame of its own. -/
theorem Reads.parentheses {inner : Phrase (some .expression)} (h : inner.Reads limits) :
    (parentheses inner).Reads limits := by
  intro frame outer tokens rest stop hkept _ htokens hdepth hheight
  have hdepth : outer.depth + (inner.depth + 1) ≤ limits.depth := hdepth
  obtain ⟨first, last, ts, rfl, -, hopen, hclose, hinner⟩ := exists_tokens_parentheses htokens
  have hroom : outer.depth < limits.depth := by omega
  -- the expression inside starts over with an empty frame, one parenthesis deeper
  have hdepth' : (outer.push frame).depth + inner.depth ≤ limits.depth := by
    show outer.depth + 1 + inner.depth ≤ limits.depth
    omega
  obtain ⟨term, frame', hrun, -, -, -, hexpr⟩ :=
    h {} (outer.push frame) ts (last :: rest) stop (Frame.kept_empty limits) rfl hinner hdepth'
      hheight
  have hleave : Progress.read limits (.holding term frame' (outer.push frame)) last =
      .ok (.onward (.holding (.of inner.rawTree) frame outer)) := by
    have hexpr : frame'.close limits term = .ok (.of inner.rawTree) := hexpr
    simp only [Progress.read, Progress.leave, hclose, hexpr, Outer.pop?_push]
    rfl
  -- what was closed inside is the term at hand outside, in the frame as it was
  refine ⟨.of inner.rawTree, frame, ?_, hkept, hheight, rfl, rfl⟩
  rw [List.cons_append, Progress.run_of_read_eq_onward (read_awaiting_of_openParen hopen hroom),
    List.append_assoc, List.singleton_append, hrun, Progress.run_of_read_eq_onward hleave]

/-! ### Phrases -/

theorem readsAtLevel (limits : Limits) {level : Option Tier} (p : Phrase level) :
    p.ReadsAtLevel limits := by
  induction p with
  | number first more h => exact reads_number h
  | letter name h => exact reads_letter h
  | parentheses inner ih => exact Reads.parentheses ih.reads
  | only operand ih => exact Reads.only ih.reads
  | link operand op h rest ih ihrest => exact Reads.link ih.reads h ihrest

/-- Every phrase is read: `Phrase.Reads` needs no more than room within the limits. -/
theorem reads (limits : Limits) {level : Option Tier} (p : Phrase level) : p.Reads limits :=
  (p.readsAtLevel limits).reads

theorem Spells.map_toLexeme_scan {p : Phrase (some .expression)} {text : List Char}
    (h : p.Spells text) : (Token.scan text).map Token.toLexeme = p.lexemes := by
  rw [Token.map_toLexeme_scan, h]

/-- `parseRaw` returns `p.rawTree` for a text that `p.Spells`, if `p.depth` and the height keep
within the limits. -/
theorem Spells.parseRaw_eq_ok {p : Phrase (some .expression)} {text : List Char}
    (h : p.Spells text) (hdepth : p.depth ≤ limits.depth)
    (hheight : p.rawTree.height ≤ limits.height) : parseRaw limits text = .ok p.rawTree := by
  have hstart : Outer.empty.depth + p.depth ≤ limits.depth := by
    show 0 + p.depth ≤ limits.depth
    omega
  obtain ⟨term, frame, hrun, -, -, -, hclose⟩ :=
    p.reads limits {} .empty (Token.scan text) [] (byteLength text) (Frame.kept_empty limits) rfl
      h.map_toLexeme_scan hstart hheight
  have hclose : frame.close limits term = .ok (.of p.rawTree) := hclose
  have hrun : Progress.start.run limits (byteLength text) (Token.scan text) =
      (.ok (.of p.rawTree), [], .empty) := by
    rw [List.append_nil] at hrun
    rw [Progress.start, hrun, run, Progress.finish]
    simp only [hclose, Outer.pop?_empty]
    rfl
  rw [parseRaw_of_run hrun]
  rfl

end Phrase

/-- `parseRaw` succeeds exactly on the texts of phrases within the limits, and returns their
`rawTree`. -/
theorem parseRaw_eq_ok_iff_phrase {text : List Char} {e : Expr} :
    parseRaw limits text = .ok e ↔ ∃ p : Phrase (some .expression),
      p.Spells text ∧ p.rawTree = e ∧ p.depth ≤ limits.depth ∧ e.height ≤ limits.height := by
  constructor
  · exact exists_phrase_of_parseRaw_eq_ok
  · rintro ⟨p, hp, rfl, hdepth, hheight⟩
    exact hp.parseRaw_eq_ok hdepth hheight

/-- `parse` flattens what `parseRaw` returns with the default limits. -/
theorem parse_eq_ok_iff {text : List Char} {e : Expr} :
    parse text = .ok e ↔ ∃ raw, parseRaw {} text = .ok raw ∧ raw.flatten = e := by
  unfold parse
  cases parseRaw {} text with
  | error error =>
    constructor
    · intro h
      contradiction
    · rintro ⟨raw, h, -⟩
      contradiction
  | ok raw =>
    constructor
    · intro h
      exact ⟨raw, rfl, Except.ok.inj h⟩
    · rintro ⟨raw', h, rfl⟩
      obtain rfl := Except.ok.inj h
      rfl

/-- What `parse` returns is `Proper`. -/
theorem proper_of_parse_eq_ok {text : List Char} {e : Expr} (h : parse text = .ok e) :
    e.Proper := by
  obtain ⟨raw, hraw, rfl⟩ := parse_eq_ok_iff.1 h
  obtain ⟨p, -, rfl, -⟩ := parseRaw_eq_ok_iff_phrase.1 hraw
  exact p.branching_rawTree.proper.flatten

/-! ### Which texts are accepted -/

/-- `e` is the `rawTree` of a phrase of `text`: each chain is grouped run by run, from the left, and
the operands of a run from the right. -/
def RawTree (text : List Char) (e : Expr) : Prop :=
  ∃ p : Phrase (some .expression), p.Spells text ∧ p.rawTree = e

/-- A text has at most one `RawTree`. -/
theorem RawTree.unique {text : List Char} {e e' : Expr} (h : RawTree text e)
    (h' : RawTree text e') : e = e' := by
  obtain ⟨p, hp, rfl⟩ := h
  obtain ⟨q, hq, rfl⟩ := h'
  -- within limits that are wide enough for both, the result can only be one of them
  let wide : Limits := ⟨max p.depth q.depth, max p.rawTree.height q.rawTree.height⟩
  have hpwide : parseRaw wide text = .ok p.rawTree :=
    hp.parseRaw_eq_ok (Nat.le_max_left ..) (Nat.le_max_left ..)
  have hqwide : parseRaw wide text = .ok q.rawTree :=
    hq.parseRaw_eq_ok (Nat.le_max_right ..) (Nat.le_max_right ..)
  rw [hpwide] at hqwide
  exact Except.ok.inj hqwide

theorem derives_expression_iff_exists_rawTree {text : List Char} :
    Derives .expression text ↔ ∃ e, RawTree text e := by
  rw [Phrase.derives_expression_iff]
  constructor
  · rintro ⟨p, hp⟩
    exact ⟨p.rawTree, p, hp, rfl⟩
  · rintro ⟨_, p, hp, -⟩
    exact ⟨p, hp⟩

/-- `text` is `NestedWithin` exactly the depths from `p.depth` on. -/
theorem Phrase.Spells.nestedWithin_iff {p : Phrase (some .expression)} {text : List Char}
    (h : p.Spells text) (depth : Nat) : NestedWithin depth text ↔ p.depth ≤ depth := by
  rw [← h.chars_eq]
  exact p.balancedTo_chars.nestedWithin_iff

theorem parseRaw_eq_ok_iff_rawTree {text : List Char} {e : Expr} :
    parseRaw limits text = .ok e ↔
      NestedWithin limits.depth text ∧ RawTree text e ∧ e.height ≤ limits.height := by
  rw [parseRaw_eq_ok_iff_phrase]
  constructor
  · rintro ⟨p, hp, he, hdepth, hheight⟩
    exact ⟨(hp.nestedWithin_iff _).2 hdepth, ⟨p, hp, he⟩, hheight⟩
  · rintro ⟨hnested, ⟨p, hp, he⟩, hheight⟩
    exact ⟨p, hp, he, (hp.nestedWithin_iff _).1 hnested, hheight⟩

/-- A text is accepted exactly if it is an expression in which no more parentheses are open at once
than allowed, and whose raw tree is no taller than allowed. That tree, which is the only one, is
returned, so wider limits neither turn a success into a failure nor change the result. -/
theorem parseRaw_eq_ok_iff (text : List Char) :
    (∀ depth height e, parseRaw ⟨depth, height⟩ text = .ok e ↔
      Derives .expression text ∧ NestedWithin depth text ∧ RawTree text e ∧ e.height ≤ height) ∧
    (Derives .expression text → ∃! e, RawTree text e) ∧
    (∀ limits limits' e e',
      parseRaw limits text = .ok e → parseRaw limits' text = .ok e' → e = e') ∧
    (∀ depth height depth' height' e, depth ≤ depth' → height ≤ height' →
      parseRaw ⟨depth, height⟩ text = .ok e → parseRaw ⟨depth', height'⟩ text = .ok e) := by
  refine ⟨?_, ?_, ?_, ?_⟩
  · intro depth height e
    rw [parseRaw_eq_ok_iff_rawTree, derives_expression_iff_exists_rawTree]
    constructor
    · rintro ⟨hnested, htree, hheight⟩
      exact ⟨⟨e, htree⟩, hnested, htree, hheight⟩
    · rintro ⟨-, hnested, htree, hheight⟩
      exact ⟨hnested, htree, hheight⟩
  · intro h
    obtain ⟨e, he⟩ := derives_expression_iff_exists_rawTree.1 h
    exact ⟨e, he, fun e' he' => he'.unique he⟩
  · intro limits limits' e e' h h'
    exact (parseRaw_eq_ok_iff_rawTree.1 h).2.1.unique (parseRaw_eq_ok_iff_rawTree.1 h').2.1
  · intro depth height depth' height' e hdepth hheight h
    obtain ⟨hnested, htree, hle⟩ := parseRaw_eq_ok_iff_rawTree.1 h
    refine parseRaw_eq_ok_iff_rawTree.2 ⟨?_, htree, hle.trans hheight⟩
    exact fun s hs => (hnested s hs).trans hdepth

/-- Since `(a+1)2` is accepted when one parenthesis may be open and the tree may be two operations
tall, it is an expression, with this tree, and is accepted by default. -/
theorem parseRaw_sum_times_two :
    Derives .expression ['(', 'a', '+', '1', ')', '2'] ∧
      RawTree ['(', 'a', '+', '1', ')', '2']
        (.operation .mul [.operation .add [.var 'a', .value 1], .value 2]) ∧
      parseRaw {} ['(', 'a', '+', '1', ')', '2'] =
        .ok (.operation .mul [.operation .add [.var 'a', .value 1], .value 2]) := by
  have hsmall : parseRaw ⟨1, 2⟩ ['(', 'a', '+', '1', ')', '2'] =
      .ok (.operation .mul [.operation .add [.var 'a', .value 1], .value 2]) := parseRaw_of_run rfl
  obtain ⟨hiff, -, -, hwider⟩ := parseRaw_eq_ok_iff ['(', 'a', '+', '1', ')', '2']
  obtain ⟨hderives, -, htree, -⟩ := (hiff 1 2 _).1 hsmall
  exact ⟨hderives, htree, hwider 1 2 256 512 _ (by decide) (by decide) hsmall⟩

end Reckon
