/-
What positions keep through every run of the chain.

Main results: `margin_not_stranded`, `positions_stay_in_range`.

A switch of the margin mode looks at the size of a position and not at its margin.  A fill checks the
range of what it stores; a settlement of funding does not.
-/
import PerpDex.Chain
import PerpDex.FundingLedger

namespace PerpDex

open Txn

variable {s t : State}
variable {p q : AccountPosition} {a m : ℕ} {u : Unit}

/-! ### Margin modes -/

/-- Margin modes are the same, and so is the margin of cross positions. -/
structure MarginFrame (s t : State) : Prop where
  mode : ∀ a m, (getPosition t a m).marginMode = (getPosition s a m).marginMode
  margin : ∀ a m, (getPosition s a m).marginMode = .cross →
    (getPosition t a m).allocatedMargin = (getPosition s a m).allocatedMargin

instance : IsPreorder State MarginFrame where
  refl _ := ⟨fun _ _ => rfl, fun _ _ _ => rfl⟩
  trans _ _ _ h h' := ⟨fun a m => (h'.mode a m).trans (h.mode a m), fun a m hcross =>
    (h'.margin a m ((h.mode a m).trans hcross)).trans (h.margin a m hcross)⟩

namespace MarginFrame

theorem of_positions (h : ∀ a m, getPosition t a m = getPosition s a m) : MarginFrame s t :=
  ⟨fun a m => by rw [h], fun a m _ => by rw [h]⟩

theorem of_put (hmode : p.marginMode = (getPosition s p.accountIndex p.marketIndex).marginMode)
    (hmargin : (getPosition s p.accountIndex p.marketIndex).marginMode = .cross →
      p.allocatedMargin = (getPosition s p.accountIndex p.marketIndex).allocatedMargin) :
    MarginFrame s (s.putPosition p) := by
  refine ⟨fun a m => ?_, fun a m hcross => ?_⟩
  · rw [getPosition_putPosition]
    split
    · rename_i hkey
      obtain ⟨rfl, rfl⟩ := hkey
      exact hmode
    · rfl
  · rw [getPosition_putPosition]
    split
    · rename_i hkey
      obtain ⟨rfl, rfl⟩ := hkey
      exact hmargin hcross
    · rfl

end MarginFrame

theorem Settled.marginFrame (h : Settled s t) : MarginFrame s t := by
  refine ⟨fun a m => ?_, fun a m _ => ?_⟩
  · obtain ⟨q, f, hp⟩ := h.position a m
    rw [hp]
  · obtain ⟨q, f, hp⟩ := h.position a m
    rw [hp]

theorem FundsFrame.positions (h : FundsFrame s t) (a m : ℕ) :
    getPosition t a m = getPosition s a m := by
  rw [h]
  rfl

theorem addCollateral_marginFrame (i : ℕ) (δ : ℤ) : Keeps MarginFrame (addCollateral i δ) :=
  (addCollateral_funds i δ).mono fun _ _ h => .of_positions h.positions

theorem updateOpenInterest_positions (m : ℕ) (δ : ℤ) :
    Keeps (fun s t => ∀ a m, getPosition t a m = getPosition s a m) (updateOpenInterest m δ) := by
  intro s
  rcases hrun : (updateOpenInterest m δ).run s with ⟨u, t⟩ | ⟨e, t⟩
  · rw [after_of_ok hrun]
    obtain ⟨d, -, -, rfl⟩ := updateOpenInterest_ok hrun
    exact fun _ _ => rfl
  · rw [after_of_error hrun, updateOpenInterest_error hrun]
    exact fun _ _ => rfl

theorem applyPositionChange_marginFrame (acc m price base : ℕ) (sign : ℤ) :
    Keeps MarginFrame (applyPositionChange acc m price base sign) := by
  refine Keeps.read.bind fun old => Keeps.bind (fun s => ?_) fun p => ?_
  · rw [after, updatePosition_run, boundedFill_eq]
    by_cases hin : ((getPosition s acc m).applyFill (base * sign) price).InBounds
    · rw [if_pos hin]
      refine MarginFrame.of_put ?_ fun _ => ?_
      · rw [AccountPosition.applyFill_accountIndex, AccountPosition.applyFill_marketIndex,
          getPosition_accountIndex, getPosition_marketIndex]
        rfl
      · rw [AccountPosition.applyFill_accountIndex, AccountPosition.applyFill_marketIndex,
          getPosition_accountIndex, getPosition_marketIndex]
        rfl
    · rw [if_neg hin]
      exact refl_of MarginFrame s
  · exact Keeps.require.bind fun _ => Keeps.pure

theorem updatePosition_allocate_marginFrame {δ : ℤ}
    (h : (getPosition s a m).marginMode = .isolated) :
    MarginFrame s (after (updatePosition a m fun p => .ok (p.allocate δ)) s) := by
  rw [after, updatePosition_run]
  refine MarginFrame.of_put ?_ fun hcross => ?_
  · simp [AccountPosition.allocate]
  · simp only [AccountPosition.allocate_accountIndex, AccountPosition.allocate_marketIndex,
      getPosition_accountIndex, getPosition_marketIndex, h] at hcross
    cases hcross

/-- A side of a fill, as its position change left it. -/
def SideMode (res : PositionChangeResult) (s : State) : Prop :=
  (getPosition s res.accountIdx res.marketIdx).marginMode = res.old.marginMode

theorem applyPositionChange_sideMode {acc price base : ℕ} {sign : ℤ} {res : PositionChangeResult}
    (h : (applyPositionChange acc m price base sign).run s = .ok res t) : SideMode res t := by
  have hframe := (applyPositionChange_marginFrame acc m price base sign).ok h
  obtain ⟨-, rfl, -, -⟩ := applyPositionChange_ok h
  exact hframe.mode acc m

/-- **A fill keeps margin modes, and only isolated positions have margin that moves**, whatever its
outcome. -/
theorem apply_marginFrame (f : Fill) : Keeps MarginFrame (apply f) := by
  refine ((prepareFill_keeps f).mono fun _ _ h => h.marginFrame).bind fun pre s => ?_
  refine after_bind (P := fun t => MarginFrame s t) (fun mr u hmaker => ?_) fun e u hmaker => ?_
  · have hmaker := run_mapError_ok.mp hmaker
    have hmakerFrame := (applyPositionChange_marginFrame _ _ _ _ _).ok hmaker
    refine trans_of MarginFrame hmakerFrame ?_
    refine after_bind (P := fun t => MarginFrame u t) (fun tr v htaker => ?_) fun e v htaker => ?_
    · have htaker := run_mapError_ok.mp htaker
      have htakerFrame := (applyPositionChange_marginFrame _ _ _ _ _).ok htaker
      refine trans_of MarginFrame htakerFrame ?_
      have hsides : SideMode mr v ∧ SideMode tr v :=
        ⟨(htakerFrame.mode _ _).trans (applyPositionChange_sideMode hmaker),
          applyPositionChange_sideMode htaker⟩
      -- the rest only has to keep margins as long as both sides have their modes
      have : IsPreorder State fun s t => SideMode mr s ∧ SideMode tr s → MarginFrame s t :=
        isPreorder_under fun s t h hs => ⟨(h.mode _ _).trans hs.1, (h.mode _ _).trans hs.2⟩
      refine finishFill_rule (R := fun s t => SideMode mr s ∧ SideMode tr s → MarginFrame s t)
        (fun i δ s _ => addCollateral_marginFrame i δ s) (fun hmode δ s hs => ?_)
        (fun hmode δ s hs => ?_) (fun δ s _ => ?_) pre.1 pre.2 v hsides
      · exact updatePosition_allocate_marginFrame (hs.1.trans hmode)
      · exact updatePosition_allocate_marginFrame (hs.2.trans hmode)
      · exact MarginFrame.of_positions (updateOpenInterest_positions _ _ s)
    · obtain ⟨e', htaker, -⟩ := run_mapError_error.mp htaker
      exact (applyPositionChange_marginFrame _ _ _ _ _).error htaker
  · obtain ⟨e', hmaker, -⟩ := run_mapError_error.mp hmaker
    exact (applyPositionChange_marginFrame _ _ _ _ _).error hmaker

theorem OrderFrame.positions (h : OrderFrame s t) (a m : ℕ) :
    getPosition t a m = getPosition s a m := by
  rw [h]
  rfl

theorem MarketFrame.positions (h : MarketFrame s t) (a m : ℕ) :
    getPosition t a m = getPosition s a m := by
  rw [h.frame]
  rfl

theorem tradingRule_marginFrame : TradingRule MarginFrame where
  order _ _ h := .of_positions h.positions
  market _ _ h := .of_positions h.positions
  fill := apply_marginFrame

/-- **A cross position has no margin of its own.** -/
def NoStranded (s : State) : Prop := ∀ a m, (getPosition s a m).marginMode = .cross →
  (getPosition s a m).allocatedMargin = 0

theorem MarginFrame.noStranded (h : MarginFrame s t) (hs : NoStranded s) : NoStranded t := by
  intro a m hcross
  rw [h.mode] at hcross
  rw [h.margin a m hcross]
  exact hs a m hcross

section Margin

variable [AddressCodec] {authority : String}

theorem updateMargin_marginFrame {msg : MsgUpdateMargin}
    (h : (updateMargin msg).run s = .ok u t) : MarginFrame s t := by
  obtain ⟨_, -, h⟩ := run_bind_lift_ok.mp h
  obtain ⟨_, s₁, howner, hgate⟩ := run_bind_ok.mp h
  obtain rfl := (requireOwner_same _ _).ok howner
  obtain ⟨_, s₁, pre, hsettle, -, hmove, -⟩ := underRiskGate_ok hgate
  refine trans_of MarginFrame ((settlePositionFunding_keeps _ _).ok hsettle).marginFrame ?_
  obtain ⟨pos, hpos, hmove⟩ := run_bind_read_ok.mp hmove
  obtain rfl : getPosition s₁ msg.accountIndex msg.marketIndex = pos := Except.ok.inj hpos
  obtain ⟨hisolated, hmove⟩ := run_bind_require_ok.mp hmove
  have hallocate : ∀ δ c r, (do
      let _ ← updatePosition msg.accountIndex msg.marketIndex fun p => .ok (p.allocate δ)
      addCollateral msg.accountIndex c).run s₁ = .ok r t → MarginFrame s₁ t := by
    intro δ c r hrun
    obtain ⟨p, s₂, hput, hrun⟩ := run_bind_ok.mp hrun
    have hput' := updatePosition_allocate_marginFrame (δ := δ) hisolated
    rw [after_of_ok hput] at hput'
    exact trans_of MarginFrame hput' ((addCollateral_marginFrame _ _).ok hrun)
  cases haction : msg.action with
  | addMargin =>
    rw [haction] at hmove
    exact hallocate _ _ _ hmove
  | removeMargin =>
    rw [haction] at hmove
    obtain ⟨-, hmove⟩ := run_bind_require_ok.mp hmove
    exact hallocate _ _ _ hmove

/-- A leverage update between the states switches to the cross mode only where no margin is
allocated. -/
def ClearsMargin (s t : State) : Prop := ∀ msg : MsgUpdateLeverage,
  (updateLeverage msg).run s = .ok () t → msg.newMarginMode = .cross →
    (getPosition s msg.accountIndex msg.marketIndex).allocatedMargin = 0

theorem updateLeverage_noStranded {msg : MsgUpdateLeverage} (hs : NoStranded s)
    (h : (updateLeverage msg).run s = .ok () t)
    (hclear : msg.newMarginMode = .cross →
      (getPosition s msg.accountIndex msg.marketIndex).allocatedMargin = 0) : NoStranded t := by
  obtain ⟨-, rfl⟩ := updateLeverage_ok h
  intro a m hcross
  rw [getPosition_putPosition] at hcross ⊢
  split at hcross
  · rename_i hkey
    rw [if_pos hkey]
    exact hclear hcross
  · rename_i hkey
    rw [if_neg hkey]
    exact hs a m hcross

theorem ChainStep.noStranded (h : ChainStep authority s t) (hclear : ClearsMargin s t)
    (hs : NoStranded s) : NoStranded t := by
  cases h with
  | trading h => exact (h.rule tradingRule_marginFrame).noStranded hs
  | outside h =>
    intro a m
    have hpos : getPosition t a m = getPosition s a m := by
      simp only [getPosition, h]
    rw [hpos]
    exact hs a m
  | account h =>
    have : IsPreorder State fun s t => NoStranded s → NoStranded t := isPreorder_invariant _
    refine h.rule (R := fun s t => NoStranded s → NoStranded t) (fun _ _ hfunds => ?_)
      (fun a m s => ?_) (fun msg hrun => ?_) (fun msg hrun hs => ?_) hs
    · exact (MarginFrame.of_positions hfunds.positions).noStranded
    · exact (settlePositionFunding_keeps a m s).marginFrame.noStranded
    · exact (updateMargin_marginFrame hrun).noStranded
    · exact updateLeverage_noStranded hs hrun (hclear msg hrun)

/-- **No stranded margin.**  From a state in which no cross position has margin of its own, no run
leads to one in which it has, if every leverage update to the cross mode finds none. -/
theorem margin_not_stranded (hs : NoStranded s)
    (hrun : Relation.ReflTransGen (fun s t => ChainStep authority s t ∧ ClearsMargin s t) s t) :
    NoStranded t := by
  induction hrun with
  | refl => exact hs
  | tail _ hstep ih => exact hstep.1.noStranded hstep.2 ih

end Margin

/-- One perpetual market and a trader without positions. -/
def soloTrader : State where
  account := { accounts := Table.ofRows [
    { accountIndex := 0 }, { accountIndex := 2, ownerAddress := "alice", collateral := 1000000 }] }
  market := {
    markets := Table.ofRows [{ marketIndex := 0 }]
    marketDetails := Table.ofRows [{
      marketIndex := 0, markPrice := 100, defaultInitialMarginFraction := 1000,
      minInitialMarginFraction := 500, maintenanceMarginFraction := 400,
      closeOutMarginFraction := 200 }] }

/-- The trader sets the mode of the empty position. -/
def switchTo (mode : MarginMode) : MsgUpdateLeverage where
  sender := "alice"
  accountIndex := 2
  marketIndex := 0
  newMarginMode := mode
  newInitialMarginFraction := 1000

/-- The trader puts margin into the empty position. -/
def fundEmpty : MsgUpdateMargin where
  sender := "alice"
  accountIndex := 2
  marketIndex := 0
  action := .addMargin
  amount := 400000

theorem soloTrader_position (a m : ℕ) :
    getPosition soloTrader a m = { accountIndex := a, marketIndex := m } := rfl

/-- Margin in an isolated position without a size, after two messages. -/
theorem margin_not_stranded_funded :
    let _ := AddressCodec.acceptAll
    let s₁ := after (updateLeverage (switchTo .isolated)) soloTrader
    let s₂ := after (updateMargin fundEmpty) s₁
    (getPosition s₂ 2 0).allocatedMargin = 400000 ∧ NoStranded s₂ := by
  intro _ s₁ s₂
  have h₁ : (updateLeverage (switchTo .isolated)).run soloTrader = .ok () s₁ :=
    run_of_succeeds (by decide +kernel)
  have h₂ : (updateMargin fundEmpty).run s₁ = .ok () s₂ := run_of_succeeds (by decide +kernel)
  have hclear₁ : ClearsMargin soloTrader s₁ := by
    intro msg _ _
    rw [soloTrader_position]
  have hclear₂ : ClearsMargin s₁ s₂ := by
    intro msg _ _
    obtain ⟨-, heq⟩ := updateLeverage_ok h₁
    rw [heq, getPosition_putPosition]
    split
    · rw [soloTrader_position]
    · rw [soloTrader_position]
  refine ⟨by decide +kernel, ?_⟩
  refine @margin_not_stranded soloTrader _ _ "gov" (fun _ _ _ => rfl) ?_
  exact (Relation.ReflTransGen.single ⟨.account (.updateLeverage _ h₁), hclear₁⟩).tail
    ⟨.account (.updateMargin _ h₂), hclear₂⟩

/-- **Margin is stranded.**  The trader opens an isolated position without a size, puts margin into it,
and goes back to the cross mode: the margin is nowhere. -/
theorem margin_stranded_by_switch :
    let _ := AddressCodec.acceptAll
    let s₁ := after (updateLeverage (switchTo .isolated)) soloTrader
    let s₂ := after (updateMargin fundEmpty) s₁
    let s₃ := after (updateLeverage (switchTo .cross)) s₂
    NoStranded soloTrader ∧ ChainRun "gov" soloTrader s₃ ∧
      (getPosition s₃ 2 0).marginMode = .cross ∧ (getPosition s₃ 2 0).allocatedMargin = 400000 ∧
      (s₃.account.accounts.get 2).map Account.collateral = some 600000 := by
  intro _ s₁ s₂ s₃
  have h₁ : (updateLeverage (switchTo .isolated)).run soloTrader = .ok () s₁ :=
    run_of_succeeds (by decide +kernel)
  have h₂ : (updateMargin fundEmpty).run s₁ = .ok () s₂ := run_of_succeeds (by decide +kernel)
  have h₃ : (updateLeverage (switchTo .cross)).run s₂ = .ok () s₃ :=
    run_of_succeeds (by decide +kernel)
  refine ⟨fun _ _ _ => rfl, ?_, by decide +kernel⟩
  exact ((Relation.ReflTransGen.single (.account (.updateLeverage _ h₁))).tail
    (.account (.updateMargin _ h₂))).tail (.account (.updateLeverage _ h₃))

/-! ### Ranges -/

/-- The position is one that a fill may store. -/
def AccountPosition.InRange (p : AccountPosition) : Prop :=
  isWithinPositionBounds p.baseSize p.entryQuote = true

instance (p : AccountPosition) : Decidable p.InRange := by
  unfold AccountPosition.InRange
  infer_instance

def InRange (s : State) : Prop := ∀ a m, (getPosition s a m).InRange

/-- The position would still be in range if its funding were settled now. -/
def PendingInRange (s : State) (a m : ℕ) : Prop := ∀ d, s.market.marketDetails.get m = some d →
  ((getPosition s a m).settleFunding d).InRange

/-- The position carries the prefix sum of its market. -/
def SettledAt (s : State) (a m : ℕ) : Prop := ∀ d, s.market.marketDetails.get m = some d →
  (getPosition s a m).lastFundingRatePrefixSum = d.fundingRatePrefixSum

/-- The two positions are in range, and settled, alike. -/
structure SameExposure (p q : AccountPosition) : Prop where
  size : q.baseSize = p.baseSize
  quote : q.entryQuote = p.entryQuote
  last : q.lastFundingRatePrefixSum = p.lastFundingRatePrefixSum

theorem SameExposure.refl (p : AccountPosition) : SameExposure p p := ⟨rfl, rfl, rfl⟩

theorem SameExposure.trans {r : AccountPosition} (h : SameExposure p q) (h' : SameExposure q r) :
    SameExposure p r :=
  ⟨h'.size.trans h.size, h'.quote.trans h.quote, h'.last.trans h.last⟩

theorem SameExposure.inRange (h : SameExposure p q) (hp : p.InRange) :
    q.InRange := by
  rw [AccountPosition.InRange, h.size, h.quote]
  exact hp

theorem SameExposure.settleFunding_inRange {d d' : MarketDetails}
    (h : SameExposure p q) (hd : d'.fundingRatePrefixSum = d.fundingRatePrefixSum)
    (hp : (p.settleFunding d).InRange) : (q.settleFunding d').InRange := by
  have hq := q.settleFunding_entryQuote d'
  have hp' := p.settleFunding_entryQuote d
  rw [h.size, h.last, hd] at hq
  have hquote := h.quote
  have heq : (q.settleFunding d').entryQuote = (p.settleFunding d).entryQuote := by omega
  rw [AccountPosition.InRange, AccountPosition.settleFunding_baseSize, heq, h.size,
    ← AccountPosition.settleFunding_baseSize p d]
  exact hp

/-- Every market has the prefix sum it had. -/
def SamePrefixSums (s t : State) : Prop := ∀ m,
  (t.market.marketDetails.get m).map MarketDetails.fundingRatePrefixSum
    = (s.market.marketDetails.get m).map MarketDetails.fundingRatePrefixSum

theorem SamePrefixSums.back (h : SamePrefixSums s t) {d : MarketDetails}
    (hd : t.market.marketDetails.get m = some d) : ∃ d', s.market.marketDetails.get m = some d' ∧
      d'.fundingRatePrefixSum = d.fundingRatePrefixSum := by
  have hm := h m
  rw [hd, Option.map_some, eq_comm] at hm
  exact Option.map_eq_some_iff.mp hm

theorem SamePrefixSums.symm (h : SamePrefixSums s t) : SamePrefixSums t s := fun m => (h m).symm

theorem SettledAt.congr (h : SettledAt s a m) (hsum : SamePrefixSums s t)
    (hlast : (getPosition t a m).lastFundingRatePrefixSum
      = (getPosition s a m).lastFundingRatePrefixSum) : SettledAt t a m := by
  intro d hd
  obtain ⟨d', hd', heq⟩ := hsum.back hd
  rw [hlast, h d' hd', heq]

theorem SettledAt.pendingInRange (h : SettledAt s a m) (hs : (getPosition s a m).InRange) :
    PendingInRange s a m := by
  intro d hd
  rw [(AccountPosition.settleFunding_eq_self_iff _ d).mpr (h d hd)]
  exact hs

/-- A position is as it was, or it is settled, and in range if it was so before and after its pending
funding. -/
def RangeMove (s t : State) (a m : ℕ) : Prop :=
  SameExposure (getPosition s a m) (getPosition t a m) ∨
    SettledAt t a m ∧ ((getPosition s a m).InRange → PendingInRange s a m →
      (getPosition t a m).InRange)

/-- The prefix sums are the same, and every position makes such a move. -/
structure RangeFrame (s t : State) : Prop where
  prefixSum : SamePrefixSums s t
  move : ∀ a m, RangeMove s t a m

namespace RangeFrame

theorem refl (s : State) : RangeFrame s s := ⟨fun _ => rfl, fun _ _ => Or.inl (.refl _)⟩

theorem trans {s t u : State} (h : RangeFrame s t) (h' : RangeFrame t u) : RangeFrame s u := by
  refine ⟨fun m => (h'.prefixSum m).trans (h.prefixSum m), fun a m => ?_⟩
  rcases h.move a m with hsame | ⟨hset, hrange⟩ <;> rcases h'.move a m with hsame' | ⟨hset', hrange'⟩
  · exact Or.inl (hsame.trans hsame')
  · refine Or.inr ⟨hset', fun hs hpending => hrange' (hsame.inRange hs) fun d hd => ?_⟩
    obtain ⟨d', hd', heq⟩ := h.prefixSum.back hd
    exact hsame.settleFunding_inRange heq.symm (hpending d' hd')
  · exact Or.inr ⟨hset.congr h'.prefixSum hsame'.last, fun hs hpending =>
      hsame'.inRange (hrange hs hpending)⟩
  · -- a second settlement finds no funding
    refine Or.inr ⟨hset', fun hs hpending => ?_⟩
    have ht := hrange hs hpending
    exact hrange' ht (hset.pendingInRange ht)

instance : IsPreorder State RangeFrame where
  refl := refl
  trans _ _ _ := trans

theorem settled (h : RangeFrame s t) (hs : SettledAt s a m) : SettledAt t a m := by
  rcases h.move a m with hsame | ⟨hset, -⟩
  · exact hs.congr h.prefixSum hsame.last
  · exact hset

theorem of_put
    (hlast : ∀ d, s.market.marketDetails.get p.marketIndex = some d →
      p.lastFundingRatePrefixSum = d.fundingRatePrefixSum)
    (hrange : PendingInRange s p.accountIndex p.marketIndex → p.InRange) :
    RangeFrame s (s.putPosition p) := by
  refine ⟨fun _ => rfl, fun a m => ?_⟩
  by_cases hkey : a = p.accountIndex ∧ m = p.marketIndex
  · obtain ⟨rfl, rfl⟩ := hkey
    refine Or.inr ⟨fun d hd => ?_, fun _ hpending => ?_⟩
    · rw [getPosition_putPosition, if_pos ⟨rfl, rfl⟩]
      exact hlast d hd
    · rw [getPosition_putPosition, if_pos ⟨rfl, rfl⟩]
      exact hrange hpending
  · refine Or.inl ?_
    rw [getPosition_putPosition, if_neg hkey]
    exact .refl _

theorem of_put_same (ha : p.accountIndex = a)
    (hm : p.marketIndex = m) (h : SameExposure (getPosition s a m) p) :
    RangeFrame s (s.putPosition p) := by
  subst ha hm
  refine ⟨fun _ => rfl, fun b m' => Or.inl ?_⟩
  rw [getPosition_putPosition]
  split
  · rename_i hkey
    obtain ⟨rfl, rfl⟩ := hkey
    exact h
  · exact .refl _

theorem of_positions (hsum : SamePrefixSums s t)
    (h : ∀ a m, getPosition t a m = getPosition s a m) : RangeFrame s t := by
  refine ⟨hsum, fun a m => Or.inl ?_⟩
  rw [h]
  exact .refl _

end RangeFrame

theorem settlePositionFunding_rangeFrame (a m : ℕ) :
    Keeps RangeFrame (settlePositionFunding a m) := by
  intro s
  rw [after, settlePositionFunding_run]
  cases hd : s.market.marketDetails.get m with
  | none => exact refl_of RangeFrame s
  | some d =>
    refine RangeFrame.of_put (fun d' hd' => ?_) fun hpending => ?_
    · rw [AccountPosition.settleFunding_marketIndex, getPosition_marketIndex, hd] at hd'
      cases hd'
      exact AccountPosition.settleFunding_snapshot _ d
    · rw [AccountPosition.settleFunding_accountIndex, AccountPosition.settleFunding_marketIndex,
        getPosition_accountIndex, getPosition_marketIndex] at hpending
      exact hpending d hd

theorem settlePositionFunding_settledAt
    (h : (settlePositionFunding a m).run s = .ok u t) : SettledAt t a m := by
  rw [settlePositionFunding_run] at h
  cases hd : s.market.marketDetails.get m with
  | none =>
    rw [hd] at h
    cases h
  | some d =>
    rw [hd] at h
    cases h
    intro d' hd'
    cases hd.symm.trans hd'
    rw [getPosition_putPosition, if_pos (by simp)]
    exact AccountPosition.settleFunding_snapshot _ d

theorem applyPositionChange_rangeFrame {acc price base : ℕ} {sign : ℤ} (hs : SettledAt s acc m) :
    RangeFrame s (after (applyPositionChange acc m price base sign) s) := by
  have hput : ((getPosition s acc m).applyFill (base * sign) price).InBounds →
      RangeFrame s (s.putPosition ((getPosition s acc m).applyFill (base * sign) price).position) := by
    refine fun hin => RangeFrame.of_put (fun d hd => ?_) fun _ => hin
    rw [AccountPosition.applyFill_marketIndex, getPosition_marketIndex] at hd
    exact hs d hd
  rw [after, applyPositionChange_run]
  dsimp only
  by_cases hin : ((getPosition s acc m).applyFill (base * sign) price).InBounds
  · rw [if_pos hin]
    split
    · rename_i heq
      split at heq
      · cases heq
        exact hput hin
      · cases heq
    · rename_i heq
      split at heq
      · cases heq
      · cases heq
        exact hput hin
  · rw [if_neg hin]
    exact refl_of RangeFrame s

theorem updatePosition_allocate_rangeFrame (a m : ℕ) (δ : ℤ) :
    Keeps RangeFrame (updatePosition a m fun p => .ok (p.allocate δ)) := by
  intro s
  rw [after, updatePosition_run]
  exact RangeFrame.of_put_same (getPosition_accountIndex s a m) (getPosition_marketIndex s a m)
    ⟨rfl, rfl, rfl⟩

theorem FundsFrame.rangeFrame (h : FundsFrame s t) : RangeFrame s t := by
  refine .of_positions (fun m => ?_) h.positions
  rw [h]

theorem updateOpenInterest_rangeFrame (m : ℕ) (δ : ℤ) :
    Keeps RangeFrame (updateOpenInterest m δ) := by
  intro s
  refine .of_positions (fun m' => ?_) (updateOpenInterest_positions m δ s)
  have hdetails := (updateOpenInterest_keeps m δ s).toTraded.details m'
  have hmap := congrArg (Option.map MarketDetails.fundingRatePrefixSum) hdetails
  rw [Option.map_map, Option.map_map] at hmap
  exact hmap

/-- **A fill keeps positions in range**, whatever its outcome, if their pending funding does. -/
theorem apply_rangeFrame (f : Fill) : Keeps RangeFrame (apply f) := by
  have hprepare : Keeps RangeFrame (prepareFill f) :=
    ((settlePositionFunding_rangeFrame _ _).bind fun _ => settlePositionFunding_rangeFrame _ _).bind
      fun _ => (snapshotSide_keeps _ _).bind fun _ => (snapshotSide_keeps _ _).bind fun _ => Keeps.pure
  intro s
  refine after_bind (P := fun t => RangeFrame s t) (fun pre u hpre => ?_) fun e u hpre => ?_
  · refine trans_of RangeFrame (hprepare.ok hpre) ?_
    -- both sides are settled, and stay so until the end
    let P : State → Prop := fun s =>
      SettledAt s f.makerAccountIndex f.marketIndex ∧ SettledAt s f.takerAccountIndex f.marketIndex
    have hP : P u := by
      obtain ⟨_, v, hsettle, hrest⟩ := run_bind_ok.mp hpre
      have hsame : Keeps Eq (do
          let makerPre ← snapshotSide (f.noRiskCheck || f.skipMakerRiskCheck) f.makerAccountIndex
          let takerPre ← snapshotSide (f.noRiskCheck || f.skipTakerRiskCheck) f.takerAccountIndex
          return (makerPre, takerPre)) :=
        (snapshotSide_keeps _ _).bind fun _ => (snapshotSide_keeps _ _).bind fun _ => Keeps.pure
      obtain rfl := hsame.ok hrest
      obtain ⟨_, w, hmaker, htaker⟩ := run_bind_ok.mp hsettle
      exact ⟨((settlePositionFunding_rangeFrame _ _).ok htaker).settled
        (settlePositionFunding_settledAt hmaker), settlePositionFunding_settledAt htaker⟩
    have : IsPreorder State fun s t => P s → RangeFrame s t :=
      isPreorder_under fun s t h hs => ⟨h.settled hs.1, h.settled hs.2⟩
    have hrest : Keeps (fun s t => P s → RangeFrame s t) (do
        let makerRes ← makerPositionChange f
        let takerRes ← takerPositionChange f
        finishFill f pre.1 pre.2 makerRes takerRes) := by
      refine Keeps.bind (Keeps.mapError fun s hs => applyPositionChange_rangeFrame hs.1) fun mr => ?_
      refine Keeps.bind (Keeps.mapError fun s hs => applyPositionChange_rangeFrame hs.2) fun tr => ?_
      exact finishFill_rule (R := fun s t => P s → RangeFrame s t)
        (fun i δ s _ => (addCollateral_funds i δ s).rangeFrame)
        (fun _ δ s _ => updatePosition_allocate_rangeFrame _ _ δ s)
        (fun _ δ s _ => updatePosition_allocate_rangeFrame _ _ δ s)
        (fun δ s _ => updateOpenInterest_rangeFrame _ δ s) pre.1 pre.2
    exact hrest u hP
  · exact hprepare.error hpre

theorem tradingRule_rangeFrame : TradingRule RangeFrame where
  order _ _ h := by
    refine .of_positions (fun m => ?_) h.positions
    rw [h]
  market _ _ h := .of_positions h.prefixSum h.positions
  fill := apply_rangeFrame

/-- Every position whose snapshot the step moves was in range with the funding that is settled then. -/
def SettlesInRange (s t : State) : Prop := ∀ a m,
  (getPosition t a m).lastFundingRatePrefixSum ≠ (getPosition s a m).lastFundingRatePrefixSum →
    PendingInRange s a m

theorem RangeFrame.inRange (h : RangeFrame s t) (hsettles : SettlesInRange s t) (hs : InRange s) :
    InRange t := by
  intro a m
  rcases h.move a m with hsame | ⟨hset, hrange⟩
  · exact hsame.inRange (hs a m)
  · refine hrange (hs a m) ?_
    by_cases hlast : (getPosition t a m).lastFundingRatePrefixSum
        = (getPosition s a m).lastFundingRatePrefixSum
    · exact (hset.congr h.prefixSum.symm hlast.symm).pendingInRange (hs a m)
    · exact hsettles a m hlast

section Range

variable [AddressCodec] {authority : String}

theorem updateMargin_rangeFrame {msg : MsgUpdateMargin}
    (h : (updateMargin msg).run s = .ok u t) : RangeFrame s t := by
  obtain ⟨s₁, c, al, hsettle, hmove⟩ := updateMargin_ok h
  refine trans_of RangeFrame ((settlePositionFunding_rangeFrame _ _).ok hsettle)
    ⟨fun m => ?_, fun a m => Or.inl ?_⟩
  · rw [hmove.frame]
  · rw [hmove.position]
    exact ⟨rfl, rfl, rfl⟩

theorem updateLeverage_rangeFrame {msg : MsgUpdateLeverage}
    (h : (updateLeverage msg).run s = .ok u t) : RangeFrame s t := by
  obtain ⟨-, rfl⟩ := updateLeverage_ok h
  exact RangeFrame.of_put_same (getPosition_accountIndex s _ _) (getPosition_marketIndex s _ _)
    ⟨rfl, rfl, rfl⟩

theorem ChainStep.inRange (h : ChainStep authority s t) (hsettles : SettlesInRange s t)
    (hs : InRange s) : InRange t := by
  cases h with
  | trading h => exact (h.rule tradingRule_rangeFrame).inRange hsettles hs
  | account h =>
    have hframe : RangeFrame s t := h.rule (fun _ _ h => h.rangeFrame)
      settlePositionFunding_rangeFrame (fun _ h => updateMargin_rangeFrame h)
      fun _ h => updateLeverage_rangeFrame h
    exact hframe.inRange hsettles hs
  | outside h =>
    intro a m
    have hpos : getPosition t a m = getPosition s a m := by
      simp only [getPosition, h]
    rw [hpos]
    exact hs a m

/-- **Positions stay in range.**  From a state in which every position is in range, every run leads to
such a state, if steps settle the funding of positions only that are in range with it. -/
theorem positions_stay_in_range (hs : InRange s)
    (hrun : Relation.ReflTransGen (fun s t => ChainStep authority s t ∧ SettlesInRange s t) s t) :
    InRange t := by
  induction hrun with
  | refl => exact hs
  | tail _ hstep ih => exact hstep.1.inRange hstep.2 ih

end Range

theorem settleAllMarkets_account (params : FundingParams) :
    Keeps (fun s t => t.account = s.account) (settleAllMarkets params) := by
  have : IsPreorder State fun s t => t.account = s.account :=
    { refl := fun _ => rfl, trans := fun _ _ _ h h' => h'.trans h }
  exact Keeps.read.bind fun _ => Keeps.forM fun _ _ => Keeps.when fun _ s =>
    settleMarket_account _ params s

def long (size quote : ℤ) : AccountPosition where
  accountIndex := 2
  marketIndex := 0
  baseSize := size
  entryQuote := quote
  marginMode := .isolated
  initialMarginFraction := 1000

/-- The trader is long in a market that charges longs at its next funding round. -/
def longTrader (size quote : ℤ) : State :=
  State.putPosition
    { soloTrader with
      market := {
        markets := Table.ofRows [{ marketIndex := 0 }]
        marketDetails := Table.ofRows [{
          marketIndex := 0, markPrice := 100, fundingClampBig := 100, aggregatePremiumSum := 24,
          totalPremiumSamples := 1, defaultInitialMarginFraction := 1000,
          minInitialMarginFraction := 500, maintenanceMarginFraction := 400,
          closeOutMarginFraction := 200 }] } }
    (long size quote)

/-- The end of the block closes the round. -/
def longCharged (size quote : ℤ) : State := after (settleAllMarkets {}) (longTrader size quote)

theorem longTrader_position (size quote : ℤ) (a m : ℕ) :
    getPosition (longTrader size quote) a m =
      if a = 2 ∧ m = 0 then long size quote else { accountIndex := a, marketIndex := m } :=
  getPosition_putPosition _ _ a m

theorem longCharged_position (size quote : ℤ) (a m : ℕ) :
    getPosition (longCharged size quote) a m =
      if a = 2 ∧ m = 0 then long size quote else { accountIndex := a, marketIndex := m } := by
  have haccount : (longCharged size quote).account = (longTrader size quote).account :=
    settleAllMarkets_account {} _
  rw [← longTrader_position, getPosition, haccount, getPosition]

theorem longTrader_inRange {size quote : ℤ} (h : (long size quote).InRange) :
    InRange (longTrader size quote) := by
  intro a m
  rw [longTrader_position]
  split
  · exact h
  · exact (by decide : isWithinPositionBounds 0 0 = true)

/-- A long whose entry quote leaves room for the funding pays it and stays in range. -/
theorem positions_stay_in_range_small_long :
    let _ := AddressCodec.acceptAll
    let t := after (updateMargin fundEmpty) (longCharged 500000 50000000)
    (getPosition t 2 0).entryQuote = 50000150 ∧ InRange t := by
  intro _ t
  have hmargin : (updateMargin fundEmpty).run (longCharged 500000 50000000) = .ok () t :=
    run_of_succeeds (by decide +kernel)
  have hround : SettlesInRange (longTrader 500000 50000000) (longCharged 500000 50000000) := by
    intro a m hlast
    rw [longCharged_position, longTrader_position] at hlast
    exact absurd rfl hlast
  have hsettle : SettlesInRange (longCharged 500000 50000000) t := by
    intro a m _ d hd
    rw [longCharged_position]
    split
    · rename_i hkey
      rw [hkey.2] at hd
      have hall : ∀ d ∈ (longCharged 500000 50000000).market.marketDetails.get 0,
          ((long 500000 50000000).settleFunding d).InRange := by decide +kernel
      exact hall d hd
    · exact (by decide : isWithinPositionBounds 0 0 = true)
  refine ⟨by decide +kernel, ?_⟩
  refine @positions_stay_in_range (longTrader 500000 50000000) _ _ "gov"
    (longTrader_inRange (by decide)) ?_
  exact (Relation.ReflTransGen.single ⟨.outside (settleAllMarkets_account {} _), hround⟩).tail
    ⟨.account (.updateMargin _ hmargin), hsettle⟩

/-- **A position out of range.**  The entry quote of a long is the largest that a fill may store, and
the next settlement adds to it. -/
theorem position_out_of_range_by_funding :
    let _ := AddressCodec.acceptAll
    let s := longTrader 720575940379279 maxEntryQuote
    let t := after (updateMargin fundEmpty) (longCharged 720575940379279 maxEntryQuote)
    InRange s ∧ ChainRun "gov" s t ∧
      (getPosition t 2 0).entryQuote = maxEntryQuote + 216172782113 ∧ ¬ InRange t := by
  intro _ s t
  have hmargin : (updateMargin fundEmpty).run (longCharged 720575940379279 maxEntryQuote)
      = .ok () t := run_of_succeeds (by decide +kernel)
  have hout : ¬ (getPosition t 2 0).InRange := by decide +kernel
  refine ⟨longTrader_inRange (by decide), ?_, by decide +kernel, fun h => hout (h 2 0)⟩
  exact (Relation.ReflTransGen.single (.outside (settleAllMarkets_account {} _))).tail
    (.account (.updateMargin _ hmargin))

end PerpDex
