import Reckon.Proofs.Chain
import Reckon.Proofs.NextToken
import Reckon.Proofs.Phrase

/-!
# The chains of a frame

A frame holds one chain for each tier of the grammar. Here they are addressed by their tier, so that
what is proved of one of them is proved of all: `Frame.links` are the links of a chain, `Frame.goOn`
adds one, and `Frame.closeAt` ends every chain up to a tier.

Groups of terms are closed by nesting alone, without looking for runs. Since all their operators are
multiplications, that makes no difference (`Frame.closeAt_some_eq_ok_iff`).
-/

namespace Reckon

open Chain (Link)

namespace Frame

/-- The links of the chain of a tier. -/
def links (frame : Frame) : Tier → List Link
  | .group => frame.terms
  | .product => frame.groups
  | .expression => frame.products

/-- The frame without the chains up to a tier. -/
def above (frame : Frame) : Option Tier → Frame
  | none => frame
  | some .group => { frame with terms := [] }
  | some .product => { products := frame.products }
  | some .expression => {}

/-- The frame after a link in the chain of a tier, where the chains below begin anew. -/
def goOn (frame : Frame) (link : Link) : Tier → Frame
  | .group => { frame with terms := link :: frame.terms }
  | .product => { products := frame.products, groups := link :: frame.groups }
  | .expression => { products := link :: frame.products }

/-- Ends the chains up to a tier with the given term. -/
def closeAt (limits : Limits) (frame : Frame) (term : Measured) :
    Option Tier → Except Error Measured
  | none => .ok term
  | some .group => frame.closeGroup limits term
  | some .product => frame.closeProduct limits term
  | some .expression => frame.close limits term

/-- Every operand in a chain is within `limits.height`, and every operator joins the tier of its
chain. -/
def Kept (limits : Limits) (frame : Frame) : Prop :=
  ∀ tier, ∀ link ∈ frame.links tier,
    link.operand.height ≤ limits.height ∧ tier.joins link.op = true

/-! ### Addressing the chains -/

@[simp]
theorem links_goOn (frame : Frame) (link : Link) (tier : Tier) :
    (frame.goOn link tier).links tier = link :: frame.links tier := by
  cases tier <;> rfl

@[simp]
theorem above_some_goOn (frame : Frame) (link : Link) (tier : Tier) :
    (frame.goOn link tier).above (some tier) = frame.above (some tier) := by
  cases tier <;> rfl

@[simp]
theorem above_operand_goOn (frame : Frame) (link : Link) (tier : Tier) :
    (frame.goOn link tier).above tier.operand = frame.goOn link tier := by
  cases tier <;> rfl

@[simp]
theorem links_above_some (frame : Frame) (tier : Tier) :
    (frame.above (some tier)).links tier = [] := by
  cases tier <;> rfl

@[simp]
theorem links_above_operand (frame : Frame) (tier : Tier) :
    (frame.above tier.operand).links tier = frame.links tier := by
  cases tier <;> rfl

@[simp]
theorem above_operand_above_some (frame : Frame) (tier : Tier) :
    (frame.above tier.operand).above (some tier) = frame.above (some tier) := by
  cases tier <;> rfl

@[simp]
theorem above_some_above_operand (frame : Frame) (tier : Tier) :
    (frame.above (some tier)).above tier.operand = frame.above (some tier) := by
  cases tier <;> rfl

/-- `operate` ends the chains below `op.tier` and goes on there. -/
theorem operate_eq (limits : Limits) (frame : Frame) (term : Measured) (op : Op) (span : Span) :
    frame.operate limits term op span =
      frame.closeAt limits term op.tier.operand >>= fun left =>
        .ok (frame.goOn ⟨left, op, span⟩ op.tier) := by
  cases op <;> rfl

/-! ### Kept frames -/

theorem kept_empty (limits : Limits) : Kept limits {} := by
  intro tier
  cases tier <;> simp [links]

theorem Kept.goOn {limits : Limits} {frame : Frame} {link : Link} {tier : Tier}
    (h : frame.Kept limits) (hheight : link.operand.height ≤ limits.height)
    (hop : tier.joins link.op = true) : (frame.goOn link tier).Kept limits := by
  intro tier' l hl
  by_cases htier : tier' = tier
  · subst htier
    rw [links_goOn] at hl
    rcases List.mem_cons.1 hl with rfl | hl
    · exact ⟨hheight, hop⟩
    · exact h tier' l hl
  · -- the other chains are as they were or empty
    have hsub : (frame.goOn link tier).links tier' = frame.links tier' ∨
        (frame.goOn link tier).links tier' = [] := by
      cases tier <;> cases tier' <;> simp_all [links, Frame.goOn]
    rcases hsub with hsub | hsub <;> rw [hsub] at hl
    · exact h tier' l hl
    · simp at hl

/-! ### Closing the chains -/

theorem sameRun_of_joins_group {op op' : Op} (h : Tier.group.joins op = true)
    (h' : Tier.group.joins op' = true) : Chain.sameRun op op' = true := by
  obtain rfl : op = .mul := by simpa [Tier.joins] using h
  obtain rfl : op' = .mul := by simpa [Tier.joins] using h'
  rfl

/-- The terms of a group are `OneRun`, since all their operators are `.mul`. -/
theorem Kept.oneRun {limits : Limits} {frame : Frame} (h : frame.Kept limits) :
    Chain.OneRun frame.terms := by
  refine List.Pairwise.isChain (List.pairwise_of_forall_mem_list ?_)
  intro link hlink before hbefore
  exact sameRun_of_joins_group (h .group before hbefore).2 (h .group link hlink).2

section CloseAt

variable {limits : Limits} {frame : Frame} {term m : Measured}

/-- Products and expressions are closed by `Chain.close`, after the chains below. -/
theorem closeAt_some_eq_bind {tier : Tier} (htier : tier ≠ .group) :
    closeAt limits frame term (some tier) =
      closeAt limits frame term tier.operand >>= Chain.close limits.height (frame.links tier) := by
  cases tier with
  | group => contradiction
  | product | expression => rfl

/-- `closeAt` succeeds as `Chain.close` does, also for groups, which are only nested. -/
theorem closeAt_some_eq_ok_iff (h : frame.Kept limits) (hterm : term.height ≤ limits.height)
    (tier : Tier) :
    closeAt limits frame term (some tier) = .ok m ↔
      ∃ last, closeAt limits frame term tier.operand = .ok last ∧
        Chain.close limits.height (frame.links tier) last = .ok m := by
  have hbind : closeAt limits frame term (some tier) = .ok m ↔
      (closeAt limits frame term tier.operand >>=
        Chain.close limits.height (frame.links tier)) = .ok m := by
    cases tier with
    | group =>
      -- a group is nested without looking for runs, but it is a single run
      have hlinks : ∀ link ∈ frame.terms, link.operand.height ≤ limits.height :=
        fun link hlink => (h .group link hlink).1
      show Chain.nest limits.height frame.terms term = .ok m ↔
        Chain.close limits.height frame.terms term = .ok m
      rw [Chain.nest_eq_ok_iff hterm, Chain.close_eq_ok_iff hterm hlinks,
        Chain.rawTree_row_of_oneRun h.oneRun]
    | product => exact Iff.rfl
    | expression => exact Iff.rfl
  rw [hbind, bind_eq_ok_iff]

/-- What `closeAt` returns is within `limits.height`. -/
theorem height_le_of_closeAt_eq_ok (h : frame.Kept limits) (hterm : term.height ≤ limits.height)
    {level : Option Tier} (hm : closeAt limits frame term level = .ok m) :
    m.height ≤ limits.height := by
  induction level using Tier.levelInduction generalizing m with
  | terms =>
    obtain rfl := Except.ok.inj hm
    exact hterm
  | chain tier ih =>
    obtain ⟨last, hlast, hclose⟩ := (closeAt_some_eq_ok_iff h hterm tier).1 hm
    have hlinks : ∀ link ∈ frame.links tier, link.operand.height ≤ limits.height :=
      fun link hlink => (h tier link hlink).1
    exact ((Chain.close_eq_ok_iff (ih hlast) hlinks).1 hclose).2

/-- `closeAt` succeeds exactly if `rawTree` of the chain keeps within `limits.height`, given that it
does for the chains below. -/
theorem closeAt_eq_ok_iff (h : frame.Kept limits) (hterm : term.height ≤ limits.height)
    (tier : Tier) :
    closeAt limits frame term (some tier) = .ok m ↔
      ∃ last, closeAt limits frame term tier.operand = .ok last ∧
        m.expr = (Chain.row (frame.links tier) (.single last.expr)).rawTree ∧
          m.height ≤ limits.height := by
  rw [closeAt_some_eq_ok_iff h hterm]
  refine exists_congr fun last => and_congr_right ?_
  intro hlast
  exact Chain.close_eq_ok_iff (height_le_of_closeAt_eq_ok h hterm hlast) fun link hlink =>
    (h tier link hlink).1

/-- `closeAt` has no other fault than `expressionTooDeep`. -/
theorem fault_of_closeAt_eq_error {level : Option Tier} {error : Error}
    (h : closeAt limits frame term level = .error error) :
    error.fault = .expressionTooDeep limits.height := by
  induction level using Tier.levelInduction with
  | terms => contradiction
  | chain tier ih =>
    cases tier with
    | group => exact Chain.fault_of_nest_eq_error h
    | product | expression =>
      rw [closeAt_some_eq_bind (by simp)] at h
      rcases bind_eq_error_iff.1 h with hlower | ⟨last, -, hclose⟩
      · exact ih hlower
      · exact Chain.fault_of_close_eq_error hclose

end CloseAt

end Frame

end Reckon
