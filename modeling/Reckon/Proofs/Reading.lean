import Reckon.Parser
import Reckon.Proofs.Frame

/-!
# What a reading has read

Whatever stands in a `Progress` was read from the lexemes behind it: `Progress.ReadFrom` says that
the links of every open chain, and the operand at hand, are phrases that follow each other in these
lexemes. Reading a token preserves this (`Progress.read_readFrom`), and when the expression is
complete what was read is one phrase, within the limits (`Progress.run_readFrom`).

A run is a row of tokens that are read, up to the end of the text or the token that decides it
(`Progress.exists_onward_of_run`).
-/

namespace Reckon

open Chain (Link)

/-- The expression is what a phrase is read as, within the limits, inside of `depth` open
parentheses. -/
structure Phrase.ReadAs (limits : Limits) (depth : Nat) {level : Option Tier} (p : Phrase level)
    (m : Measured) : Prop where
  expr_eq : m.expr = p.rawTree
  height_le : m.height ≤ limits.height
  depth_le : depth + p.depth ≤ limits.depth

/-- The links of a chain were read from lexemes. The last link comes first. -/
inductive LinksReadFrom (limits : Limits) (depth : Nat) (tier : Tier) :
    List Link → List Lexeme → Prop where
  | nil : LinksReadFrom limits depth tier [] []
  | cons {link : Link} {links : List Link} {ls : List Lexeme} {p : Phrase tier.operand}
      (hp : p.ReadAs limits depth link.operand) (hop : tier.joins link.op = true)
      (hlinks : LinksReadFrom limits depth tier links ls) :
      LinksReadFrom limits depth tier (link :: links) (ls ++ (p.lexemes ++ tier.sign link.op))

/-- A frame was read from lexemes: first the products, then the groups, then the terms. -/
def Frame.ReadFrom (limits : Limits) (depth : Nat) (frame : Frame) (ls : List Lexeme) : Prop :=
  ∃ products groups terms,
    LinksReadFrom limits depth .expression frame.products products ∧
      LinksReadFrom limits depth .product frame.groups groups ∧
        LinksReadFrom limits depth .group frame.terms terms ∧
          ls = products ++ (groups ++ terms)

/-- Frames around an expression were read from lexemes, each of them up to an open parenthesis. -/
inductive FramesReadFrom (limits : Limits) : List Frame → List Lexeme → Prop where
  | nil : FramesReadFrom limits [] []
  | cons {frame : Frame} {frames : List Frame} {ls ls' : List Lexeme}
      (hframe : frame.ReadFrom limits frames.length ls')
      (hframes : FramesReadFrom limits frames ls) :
      FramesReadFrom limits (frame :: frames) (ls ++ (ls' ++ [.ofChar '(']))

/-- What the reading has come to was read from lexemes. -/
inductive Progress.ReadFrom (limits : Limits) : Progress → List Lexeme → Prop where
  | awaiting {frame : Frame} {outer : Outer} {ls ls' : List Lexeme}
      (houter : FramesReadFrom limits outer.frames ls) (hdepth : outer.depth ≤ limits.depth)
      (hframe : frame.ReadFrom limits outer.depth ls') :
      ReadFrom limits (.awaiting frame outer) (ls ++ ls')
  | holding {frame : Frame} {outer : Outer} {ls ls' : List Lexeme} {term : Measured}
      {p : Phrase none}
      (houter : FramesReadFrom limits outer.frames ls) (hdepth : outer.depth ≤ limits.depth)
      (hframe : frame.ReadFrom limits outer.depth ls')
      (hp : p.ReadAs limits outer.depth term) :
      ReadFrom limits (.holding term frame outer) (ls ++ (ls' ++ p.lexemes))

/-- What comes of a token is right, given the lexemes that were read before it: either the token was
read too, or these lexemes are a complete expression. -/
def Progress.Move.ReadFrom (limits : Limits) (ls : List Lexeme) (token : Token) : Move → Prop
  | .onward progress => progress.ReadFrom limits (ls ++ [token.toLexeme])
  | .complete m => ∃ p : Phrase (some .expression), p.ReadAs limits 0 m ∧ ls = p.lexemes

variable {limits : Limits} {depth : Nat}

/-! ### Links -/

theorem LinksReadFrom.kept {tier : Tier} {links : List Link} {ls : List Lexeme}
    (h : LinksReadFrom limits depth tier links ls) :
    ∀ link ∈ links, link.operand.height ≤ limits.height ∧ tier.joins link.op = true := by
  induction h with
  | nil => simp
  | cons hp hop _ ih =>
    intro l hl
    rcases List.mem_cons.1 hl with rfl | hl
    · exact ⟨hp.height_le, hop⟩
    · exact ih l hl

/-- `LinksReadFrom` lexemes with a chain behind them make up a longer chain. -/
theorem LinksReadFrom.exists_phrase {tier : Tier} {links : List Link} {ls : List Lexeme}
    (h : LinksReadFrom limits depth tier links ls) (p : Phrase (some tier))
    (hp : depth + p.depth ≤ limits.depth) :
    ∃ q : Phrase (some tier), q.lexemes = ls ++ p.lexemes ∧
      q.row Row.rawTree = Chain.row links (p.row Row.rawTree) ∧ depth + q.depth ≤ limits.depth := by
  induction h generalizing p with
  | nil => exact ⟨p, rfl, rfl, hp⟩
  | @cons link links ls operand hoperand hop _ ih =>
    -- the last link goes in front of the chain, and the others in front of both
    have hdepth : depth + (Phrase.link operand link.op hop p).depth ≤ limits.depth := by
      have := hoperand.depth_le
      show depth + max operand.depth p.depth ≤ limits.depth
      omega
    obtain ⟨q, hlexemes, hrow, hq⟩ := ih (.link operand link.op hop p) hdepth
    refine ⟨q, ?_, ?_, hq⟩
    · rw [hlexemes, Phrase.lexemes]
      simp only [List.append_assoc]
    · rw [hrow, Chain.row_cons, hoperand.expr_eq]
      rfl

/-- What `Chain.close` makes of links and a last operand is `ReadAs` the chain of both. -/
theorem LinksReadFrom.close {tier : Tier} {links : List Link} {ls : List Lexeme}
    (h : LinksReadFrom limits depth tier links ls) {p : Phrase tier.operand} {last m : Measured}
    (hp : p.ReadAs limits depth last) (hm : Chain.close limits.height links last = .ok m) :
    ∃ q : Phrase (some tier), q.lexemes = ls ++ p.lexemes ∧ q.ReadAs limits depth m := by
  have hlinks : ∀ link ∈ links, link.operand.height ≤ limits.height := fun link hlink =>
    (h.kept link hlink).1
  obtain ⟨hexpr, hheight⟩ := (Chain.close_eq_ok_iff hp.height_le hlinks).1 hm
  obtain ⟨q, hlexemes, hrow, hdepth⟩ := h.exists_phrase (.only p) hp.depth_le
  refine ⟨q, hlexemes, ?_, hheight, hdepth⟩
  show m.expr = (q.row Row.rawTree).rawTree
  rw [hexpr, hp.expr_eq, hrow]
  rfl

/-! ### Frames -/

theorem Frame.ReadFrom.kept {frame : Frame} {ls : List Lexeme}
    (h : frame.ReadFrom limits depth ls) : frame.Kept limits := by
  obtain ⟨products, groups, terms, hproducts, hgroups, hterms, -⟩ := h
  intro tier
  cases tier with
  | group => exact hterms.kept
  | product => exact hgroups.kept
  | expression => exact hproducts.kept

/-- In `Frame.ReadFrom`, the links of a tier come after those above it. -/
theorem Frame.readFrom_above_operand_iff {frame : Frame} {tier : Tier} {ls : List Lexeme} :
    (frame.above tier.operand).ReadFrom limits depth ls ↔
      ∃ a b, (frame.above (some tier)).ReadFrom limits depth a ∧
        LinksReadFrom limits depth tier (frame.links tier) b ∧ ls = a ++ b := by
  have hnil : ∀ tier ls, LinksReadFrom limits depth tier [] ls ↔ ls = [] := by
    intro tier ls
    constructor
    · intro h
      cases h
      rfl
    · rintro rfl
      exact .nil
  cases tier with
  | group =>
    simp only [ReadFrom, above, links, Tier.operand, hnil]
    constructor
    · rintro ⟨products, groups, terms, hproducts, hgroups, hterms, rfl⟩
      exact ⟨products ++ groups, terms, ⟨products, groups, [], hproducts, hgroups, rfl, by simp⟩,
        hterms, by simp⟩
    · rintro ⟨_, terms, ⟨products, groups, _, hproducts, hgroups, rfl, rfl⟩, hterms, rfl⟩
      exact ⟨products, groups, terms, hproducts, hgroups, hterms, by simp⟩
  | product => simp [ReadFrom, above, links, Tier.operand, hnil]
  | expression => simp [ReadFrom, above, links, Tier.operand, hnil]

/-- What `closeAt` makes of a frame and a term is `ReadAs` the phrase at the end of what they were
read from. -/
theorem Frame.ReadFrom.closeAt {frame : Frame} {ls : List Lexeme} {p : Phrase none}
    {term m : Measured} (h : frame.ReadFrom limits depth ls) (hp : p.ReadAs limits depth term)
    {level : Option Tier} (hm : frame.closeAt limits term level = .ok m) :
    ∃ a, ∃ q : Phrase level, (frame.above level).ReadFrom limits depth a ∧
      q.ReadAs limits depth m ∧ ls ++ p.lexemes = a ++ q.lexemes := by
  induction level using Tier.levelInduction generalizing m with
  | terms =>
    obtain rfl := Except.ok.inj hm
    exact ⟨ls, p, h, hp, rfl⟩
  | chain tier ih =>
    -- `q` is what the chains below were read from, the last operand of the one to be closed
    obtain ⟨last, hlast, hclose⟩ := (closeAt_some_eq_ok_iff h.kept hp.height_le tier).1 hm
    obtain ⟨_, q, hread, hq, hls⟩ := ih hlast
    obtain ⟨a, b, ha, hb, rfl⟩ := readFrom_above_operand_iff.1 hread
    obtain ⟨q', hlexemes, hq'⟩ := hb.close hq hclose
    refine ⟨a, q', ha, hq', ?_⟩
    rw [hls, hlexemes, List.append_assoc]

/-- What `close` makes of a frame and a term is `ReadAs` the whole expression that they were read
from. -/
theorem Frame.ReadFrom.close {frame : Frame} {ls : List Lexeme} {p : Phrase none}
    {term m : Measured} (h : frame.ReadFrom limits depth ls) (hp : p.ReadAs limits depth term)
    (hm : frame.close limits term = .ok m) :
    ∃ q : Phrase (some .expression), q.ReadAs limits depth m ∧ ls ++ p.lexemes = q.lexemes := by
  obtain ⟨a, q, ha, hq, hls⟩ := @Frame.ReadFrom.closeAt _ _ _ _ _ _ _ h hp (some .expression) hm
  obtain ⟨products, groups, terms, hproducts, hgroups, hterms, rfl⟩ := ha
  cases hproducts
  cases hgroups
  cases hterms
  exact ⟨q, hq, hls⟩

/-- `goOn` adds the operand and the `sign` of the operator to what was read. -/
theorem Frame.ReadFrom.goOn {frame : Frame} {a : List Lexeme} {tier : Tier}
    {p : Phrase tier.operand} {link : Link}
    (h : (frame.above tier.operand).ReadFrom limits depth a)
    (hp : p.ReadAs limits depth link.operand) (hop : tier.joins link.op = true) :
    (frame.goOn link tier).ReadFrom limits depth (a ++ (p.lexemes ++ tier.sign link.op)) := by
  obtain ⟨b, c, hb, hc, rfl⟩ := readFrom_above_operand_iff.1 h
  rw [← above_operand_goOn, readFrom_above_operand_iff, above_some_goOn, links_goOn]
  exact ⟨b, _, hb, hc.cons hp hop, by simp⟩

/-! ### Steps -/

namespace Progress

/-- A frame in which nothing was read. -/
theorem readFrom_empty : Frame.ReadFrom limits depth {} [] :=
  ⟨[], [], [], .nil, .nil, .nil, rfl⟩

/-- `enter` adds the token to what was read: a term of one token, or an open parenthesis. -/
theorem enter_readFrom {frame : Frame} {outer : Outer} {a b : List Lexeme} {token : Token}
    {progress : Progress} (houter : FramesReadFrom limits outer.frames a)
    (hdepth : outer.depth ≤ limits.depth) (hframe : frame.ReadFrom limits outer.depth b)
    (htoken : token.toLexeme.WellFormed) (h : enter limits frame outer token = .ok progress) :
    progress.ReadFrom limits (a ++ (b ++ [token.toLexeme])) := by
  have hspec := Token.kind_spec htoken
  unfold enter at h
  cases hkind : token.kind with
  | number =>
    simp only [hkind, Except.ok.injEq] at h hspec
    subst h
    have hp : (Phrase.number token.first token.more hspec).ReadAs limits outer.depth
        (.value (Text.ofDigits token.chars)) := ⟨rfl, Nat.zero_le _, hdepth⟩
    exact .holding houter hdepth hframe hp
  | letter =>
    simp only [hkind, Except.ok.injEq] at h hspec
    subst h
    have hp : (Phrase.letter token.first hspec.1).ReadAs limits outer.depth (.var token.first) :=
      ⟨rfl, Nat.zero_le _, hdepth⟩
    rw [hspec.2]
    exact .holding houter hdepth hframe hp
  | openParen =>
    simp only [hkind] at h hspec
    split at h
    · rename_i hlt
      obtain rfl := Except.ok.inj h
      rw [← outer.depth_eq] at hframe
      have houter' := FramesReadFrom.cons hframe houter
      rw [hspec, ← List.append_nil (a ++ _)]
      exact .awaiting houter' hlt readFrom_empty
    · contradiction
  | operator op => simp [hkind] at h
  | closeParen => simp [hkind] at h
  | symbol => simp [hkind] at h

/-- `leave` finds that what was read is an expression, or adds the closing parenthesis, which makes
a term of it. -/
theorem leave_readFrom {frame : Frame} {outer : Outer} {a b : List Lexeme} {token : Token}
    {term : Measured} {p : Phrase none} {move : Move}
    (houter : FramesReadFrom limits outer.frames a) (hdepth : outer.depth ≤ limits.depth)
    (hframe : frame.ReadFrom limits outer.depth b) (hp : p.ReadAs limits outer.depth term)
    (htoken : token.toLexeme.WellFormed) (h : leave limits term frame outer token = .ok move) :
    move.ReadFrom limits (a ++ (b ++ p.lexemes)) token := by
  obtain ⟨m, hm, h⟩ := bind_eq_ok_iff.1 h
  obtain ⟨q, hq, hls⟩ := hframe.close hp hm
  rw [hls]
  rcases outer.eq_empty_or_eq_push with rfl | ⟨frame', outer', rfl⟩
  · obtain rfl := Except.ok.inj h
    cases houter
    exact ⟨q, hq, rfl⟩
  · rw [Outer.pop?_push] at h
    dsimp only at h
    split at h
    · rename_i hclose
      obtain rfl := Except.ok.inj h
      have hspec := Token.kind_spec htoken
      simp only [hclose] at hspec
      -- the open parenthesis of `frame'` is the last thing that was read before `frame`
      change FramesReadFrom limits (frame' :: outer'.frames) a at houter
      obtain _ | ⟨hframe', houter'⟩ := houter
      rw [outer'.depth_eq] at hframe'
      have hdepth' : outer'.depth + 1 ≤ limits.depth := hdepth
      have hparentheses : (Phrase.parentheses q).ReadAs limits outer'.depth m := by
        have hq' : outer'.depth + 1 + q.depth ≤ limits.depth := hq.depth_le
        refine ⟨hq.expr_eq, hq.height_le, ?_⟩
        show outer'.depth + (q.depth + 1) ≤ limits.depth
        omega
      have hread := ReadFrom.holding houter' (by omega) hframe' hparentheses
      show ReadFrom limits (.holding m frame' outer') (_ ++ [token.toLexeme])
      rw [hspec]
      simpa [Phrase.lexemes] using hread
    · contradiction

/-- `enter` adds the token also after a new link in the chain of terms. -/
theorem juxtapose_readFrom {frame : Frame} {outer : Outer} {a b : List Lexeme} {token : Token}
    {term : Measured} {p : Phrase none} {progress : Progress}
    (houter : FramesReadFrom limits outer.frames a) (hdepth : outer.depth ≤ limits.depth)
    (hframe : frame.ReadFrom limits outer.depth b) (hp : p.ReadAs limits outer.depth term)
    (htoken : token.toLexeme.WellFormed)
    (h : enter limits (frame.juxtapose term token.span) outer token = .ok progress) :
    progress.ReadFrom limits (a ++ (b ++ p.lexemes) ++ [token.toLexeme]) := by
  have hgoOn : (frame.juxtapose term token.span).ReadFrom limits outer.depth
      (b ++ (p.lexemes ++ [])) :=
    @Frame.ReadFrom.goOn _ _ _ _ .group p ⟨term, .mul, token.span⟩ hframe hp rfl
  have hread := enter_readFrom houter hdepth hgoOn htoken h
  rw [List.append_nil] at hread
  simpa using hread

/-- `operate` adds the operator to what was read. -/
theorem operate_readFrom {frame frame' : Frame} {outer : Outer} {a b : List Lexeme} {token : Token}
    {term : Measured} {p : Phrase none} {op : Op}
    (houter : FramesReadFrom limits outer.frames a) (hdepth : outer.depth ≤ limits.depth)
    (hframe : frame.ReadFrom limits outer.depth b) (hp : p.ReadAs limits outer.depth term)
    (htoken : token.toLexeme = .ofChar op.symbol)
    (h : frame.operate limits term op token.span = .ok frame') :
    ReadFrom limits (.awaiting frame' outer) (a ++ (b ++ p.lexemes) ++ [token.toLexeme]) := by
  rw [Frame.operate_eq] at h
  obtain ⟨left, hleft, h⟩ := bind_eq_ok_iff.1 h
  obtain rfl := Except.ok.inj h
  obtain ⟨c, q, hc, hq, hls⟩ := hframe.closeAt hp hleft
  have hgoOn := @Frame.ReadFrom.goOn _ _ _ _ op.tier q ⟨left, op, token.span⟩ hc hq op.joins_tier
  have hread := ReadFrom.awaiting houter hdepth hgoOn
  rw [hls]
  simpa [htoken] using hread

/-- `read` adds the token to what was read, or finds that this is an expression. -/
theorem read_readFrom {progress : Progress} {ls : List Lexeme} {token : Token} {move : Move}
    (hprogress : progress.ReadFrom limits ls) (htoken : token.toLexeme.WellFormed)
    (h : progress.read limits token = .ok move) : move.ReadFrom limits ls token := by
  cases hprogress with
  | awaiting houter hdepth hframe =>
    obtain ⟨progress, hprogress, h⟩ := bind_eq_ok_iff.1 h
    obtain rfl := Except.ok.inj h
    have hread := enter_readFrom houter hdepth hframe htoken hprogress
    rw [← List.append_assoc] at hread
    exact hread
  | holding houter hdepth hframe hp =>
    have hspec := Token.kind_spec htoken
    unfold read at h
    cases hkind : token.kind with
    | number | letter | openParen =>
      simp only [hkind] at h
      obtain ⟨progress, hprogress, h⟩ := bind_eq_ok_iff.1 h
      obtain rfl := Except.ok.inj h
      exact juxtapose_readFrom houter hdepth hframe hp htoken hprogress
    | operator op =>
      simp only [hkind] at h hspec
      obtain ⟨frame', hframe', h⟩ := bind_eq_ok_iff.1 h
      obtain rfl := Except.ok.inj h
      exact operate_readFrom houter hdepth hframe hp hspec hframe'
    | closeParen | symbol =>
      simp only [hkind] at h
      exact leave_readFrom houter hdepth hframe hp htoken h

/-- `finish` finds that what was read is an expression. -/
theorem finish_readFrom {progress : Progress} {ls : List Lexeme} {stop : Nat} {m : Measured}
    (hprogress : progress.ReadFrom limits ls) (h : progress.finish limits stop = .ok m) :
    ∃ p : Phrase (some .expression), p.ReadAs limits 0 m ∧ ls = p.lexemes := by
  cases hprogress with
  | awaiting _ _ _ => contradiction
  | @holding frame outer a b term p houter hdepth hframe hp =>
    obtain ⟨m', hm', h⟩ := bind_eq_ok_iff.1 h
    obtain ⟨q, hq, hls⟩ := hframe.close hp hm'
    rcases outer.eq_empty_or_eq_push with rfl | ⟨frame', outer', rfl⟩
    · obtain rfl := Except.ok.inj h
      cases houter
      exact ⟨q, hq, hls⟩
    · contradiction

/-! ### Runs -/

/-- Tokens are read one after the other, and lead from one progress to another. -/
inductive Onward (limits : Limits) : Progress → List Token → Progress → Prop where
  | nil (progress : Progress) : Onward limits progress [] progress
  | cons {progress next last : Progress} {token : Token} {tokens : List Token}
      (hread : progress.read limits token = .ok (.onward next))
      (hrest : Onward limits next tokens last) : Onward limits progress (token :: tokens) last

/-- A run comes to its result here: at the end of the text, or at the next token, which decides it
without being read. -/
def Stops (limits : Limits) (stop : Nat) (progress : Progress) (result : Except Error Measured) :
    List Token → Prop
  | [] => progress.finish limits stop = result
  | token :: _ => progress.read limits token = result.map .complete

/-- `run` reads tokens up to where it `Stops`. -/
theorem exists_onward_of_run {stop : Nat} {tokens rest : List Token} {progress : Progress}
    {result : Except Error Measured} {outer : Outer}
    (h : progress.run limits stop tokens = (result, rest, outer)) :
    ∃ before last, tokens = before ++ rest ∧ progress.Onward limits before last ∧
      last.Stops limits stop result rest := by
  induction tokens generalizing progress with
  | nil =>
    obtain ⟨hresult, rfl, -⟩ : _ = result ∧ [] = rest ∧ progress.outer = outer := by
      simpa [run] using h
    exact ⟨[], progress, rfl, .nil progress, hresult⟩
  | cons token tokens ih =>
    rw [run] at h
    cases hread : progress.read limits token with
    | error error =>
      obtain ⟨rfl, rfl, -⟩ : .error error = result ∧ token :: tokens = rest ∧ _ = outer := by
        simpa [hread] using h
      exact ⟨[], progress, rfl, .nil progress, hread⟩
    | ok move =>
      cases move with
      | onward next =>
        obtain ⟨before, last, rfl, honward, hstops⟩ := ih (by simpa [hread] using h)
        exact ⟨token :: before, last, rfl, .cons hread honward, hstops⟩
      | complete m =>
        obtain ⟨rfl, rfl, -⟩ : .ok m = result ∧ token :: tokens = rest ∧ _ = outer := by
          simpa [hread] using h
        exact ⟨[], progress, rfl, .nil progress, hread⟩

/-- `Onward` adds the tokens to what was read. -/
theorem Onward.readFrom {progress last : Progress} {tokens : List Token} {ls : List Lexeme}
    (h : progress.Onward limits tokens last)
    (htokens : ∀ token ∈ tokens, token.toLexeme.WellFormed)
    (hprogress : progress.ReadFrom limits ls) :
    last.ReadFrom limits (ls ++ tokens.map Token.toLexeme) := by
  induction h generalizing ls with
  | nil progress => simpa using hprogress
  | @cons _ _ _ token tokens hread _ ih =>
    have hnext := read_readFrom hprogress (htokens token (by simp)) hread
    have hlast := ih (fun t ht => htokens t (List.mem_cons_of_mem token ht)) hnext
    rwa [List.append_assoc, List.singleton_append] at hlast

/-- Where a reading `Stops` without an error, what was read is an expression. -/
theorem Stops.readFrom {progress : Progress} {ls : List Lexeme} {stop : Nat} {m : Measured}
    {rest : List Token} (h : progress.Stops limits stop (.ok m) rest)
    (hrest : ∀ token ∈ rest, token.toLexeme.WellFormed) (hprogress : progress.ReadFrom limits ls) :
    ∃ p : Phrase (some .expression), p.ReadAs limits 0 m ∧ ls = p.lexemes := by
  match rest, h with
  | [], h => exact finish_readFrom hprogress h
  | token :: _, h => exact read_readFrom hprogress (hrest token (by simp)) h

/-- If `run` succeeds, what it has read, along with what was read before, is an expression. -/
theorem run_readFrom {stop : Nat} {tokens rest : List Token} {progress : Progress}
    {ls : List Lexeme} {m : Measured} {outer : Outer}
    (htokens : ∀ token ∈ tokens, token.toLexeme.WellFormed)
    (hprogress : progress.ReadFrom limits ls)
    (h : progress.run limits stop tokens = (.ok m, rest, outer)) :
    ∃ p : Phrase (some .expression), p.ReadAs limits 0 m ∧
      ls ++ tokens.map Token.toLexeme = p.lexemes ++ rest.map Token.toLexeme := by
  obtain ⟨before, last, rfl, honward, hstops⟩ := exists_onward_of_run h
  rw [List.forall_mem_append] at htokens
  obtain ⟨p, hp, hls⟩ := hstops.readFrom htokens.2 (honward.readFrom htokens.1 hprogress)
  refine ⟨p, hp, ?_⟩
  rw [← hls, List.map_append, List.append_assoc]

end Progress

/-- Before the first token nothing was read. -/
theorem Progress.readFrom_start : Progress.start.ReadFrom limits [] :=
  @ReadFrom.awaiting limits {} .empty [] [] .nil (Nat.zero_le _) readFrom_empty

/-- `parseRaw` has the result of `run`, unless that leaves something of the text. -/
theorem parseRaw_of_run {text : List Char} {result : Except Error Measured} {rest : List Token}
    {outer : Outer}
    (h : Progress.start.run limits (byteLength text) (Token.scan text) = (result, rest, outer)) :
    parseRaw limits text = result >>= fun m =>
      match rest with
      | [] => .ok m.expr
      | token :: _ => .error ⟨[token.span], .trailingInput token.first⟩ := by
  unfold parseRaw Parser.sentence Parser.expression Parser.measured
  rw [Parser.start_eq]
  dsimp only [Parser.ofChars, Cursor.ofChars, Cursor.peek]
  rw [Progress.proceed_eq_run, h]
  cases result with
  | error error => rfl
  | ok m => cases rest <;> rfl

/-- `parseRaw` returns the `rawTree` of a phrase that `Spells` the text. -/
theorem exists_phrase_of_parseRaw_eq_ok {text : List Char} {e : Expr}
    (h : parseRaw limits text = .ok e) :
    ∃ p : Phrase (some .expression), p.Spells text ∧ p.rawTree = e ∧
      p.depth ≤ limits.depth ∧ e.height ≤ limits.height := by
  obtain ⟨⟨result, rest, outer⟩, hrun⟩ :
      ∃ r, Progress.start.run limits (byteLength text) (Token.scan text) = r := ⟨_, rfl⟩
  rw [parseRaw_of_run hrun] at h
  cases result with
  | error error => contradiction
  | ok m =>
    cases rest with
    | cons token rest => contradiction
    | nil =>
      obtain rfl := Except.ok.inj h
      obtain ⟨p, hp, hls⟩ := Progress.run_readFrom (fun _ => Token.wellFormed_of_mem_scan)
        Progress.readFrom_start hrun
      rw [Token.map_toLexeme_scan, List.nil_append, List.map_nil, List.append_nil] at hls
      have hdepth := hp.depth_le
      have hheight := hp.height_le
      rw [← m.height_eq] at hheight
      exact ⟨p, hls.symm, hp.expr_eq.symm, by omega, hheight⟩

end Reckon
