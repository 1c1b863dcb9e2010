/-
Funding rounds of markets and settlement of funding on positions (`x/funding/keeper/settle.go`,
`x/funding/keeper/keeper.go`, `x/account/keeper/guards.go`).

* `settleMarket` — close the premium round of a market and advance its prefix sum by mark price times
  funding rate;
* `settlePositionFunding` — fold the funding accrued since the last settlement into the entry quote and
  move the snapshot of the prefix sum;
* `Settled` — what settlements can change: entry quotes and snapshots.
-/
import PerpDex.Account
import PerpDex.Market

namespace PerpDex

/-! ### Rounds -/

def clampInt (v lo hi : ℤ) : ℤ := if v < lo then lo else if hi < v then hi else v

/-- The average premium, pulled towards the interest rate, clamped and divided by the rounds of a
funding period. -/
def MarketDetails.fundingRate (d : MarketDetails) (params : FundingParams) : ℤ :=
  let avg := d.aggregatePremiumSum.tdiv d.totalPremiumSamples
  let correction := clampInt (d.interestRate - avg) (-d.fundingClampSmall) d.fundingClampSmall
  let smallClamped := avg + correction
  let bigClamped := clampInt smallClamped (-d.fundingClampBig) d.fundingClampBig
  let divisor := if params.fundingPeriodDivisor ≤ 0 then 1 else params.fundingPeriodDivisor
  bigClamped.tdiv divisor

def MarketDetails.closeRound (d : MarketDetails) (params : FundingParams) : MarketDetails :=
  let inc := d.markPrice * d.fundingRate params
  { d with
    fundingRatePrefixSum := d.fundingRatePrefixSum + inc
    aggregatePremiumSum := 0
    totalPremiumSamples := 0 }

def settleMarket (marketIdx : ℕ) (params : FundingParams) : Tx Unit := do
  match ← Txn.read fun s => .ok (s.market.marketDetails.get marketIdx) with
  | none => pure ()
  | some d => Txn.when (d.totalPremiumSamples ≠ 0) (setMarketDetails (d.closeRound params))

def settleAllMarkets (params : FundingParams) : Tx Unit := do
  let markets ← Txn.read fun s => .ok s.market.markets.toList
  markets.forM fun m => Txn.when (m.marketType = .perps ∧ m.status = .active)
    (settleMarket m.marketIndex params)

/-! ### Settlements -/

/-- The position with its funding settled against the market's prefix sum. -/
def AccountPosition.settleFunding (pos : AccountPosition) (d : MarketDetails) : AccountPosition :=
  if pos.baseSize = 0 then { pos with lastFundingRatePrefixSum := d.fundingRatePrefixSum }
  else
    let delta := d.fundingRatePrefixSum - pos.lastFundingRatePrefixSum
    if delta = 0 then { pos with lastFundingRatePrefixSum := d.fundingRatePrefixSum }
    else
      let pay := (pos.baseSize * delta).tdiv fundingRateTick
      { pos with
        entryQuote := pos.entryQuote + pay
        lastFundingRatePrefixSum := d.fundingRatePrefixSum }

def settlePositionFunding (accountIndex marketIndex : ℕ) : Tx Unit := do
  let d ← Txn.read (getMarketDetails marketIndex)
  let _ ← updatePosition accountIndex marketIndex fun pos => .ok (pos.settleFunding d)

def settleAllPositionFunding (accountIdx : ℕ) : Tx Unit := do
  let positions ← Txn.read fun s => .ok (positionsOf s accountIdx)
  positions.forM fun pos =>
    Txn.when (pos.baseSize ≠ 0) (settlePositionFunding accountIdx pos.marketIndex)

/-! ### One settlement -/

section

variable (p : AccountPosition) (d : MarketDetails)

theorem AccountPosition.settleFunding_eq :
    ∃ q, p.settleFunding d =
      { p with entryQuote := q, lastFundingRatePrefixSum := d.fundingRatePrefixSum } := by
  simp only [settleFunding]
  split
  · exact ⟨_, rfl⟩
  · split
    · exact ⟨_, rfl⟩
    · exact ⟨_, rfl⟩

@[simp] theorem AccountPosition.settleFunding_accountIndex :
    (p.settleFunding d).accountIndex = p.accountIndex := by
  obtain ⟨q, h⟩ := p.settleFunding_eq d
  rw [h]

@[simp] theorem AccountPosition.settleFunding_marketIndex :
    (p.settleFunding d).marketIndex = p.marketIndex := by
  obtain ⟨q, h⟩ := p.settleFunding_eq d
  rw [h]

@[simp] theorem AccountPosition.settleFunding_baseSize :
    (p.settleFunding d).baseSize = p.baseSize := by
  obtain ⟨q, h⟩ := p.settleFunding_eq d
  rw [h]

/-- Settlement leaves a position as it is exactly when it already carries the market's
prefix sum. -/
theorem AccountPosition.settleFunding_eq_self_iff :
    p.settleFunding d = p ↔ p.lastFundingRatePrefixSum = d.fundingRatePrefixSum := by
  constructor
  · intro h
    obtain ⟨q, hq⟩ := p.settleFunding_eq d
    rw [hq] at h
    rw [← h]
  · intro h
    simp [settleFunding, ← h]

theorem AccountPosition.settleFunding_settleFunding :
    (p.settleFunding d).settleFunding d = p.settleFunding d := by
  rw [settleFunding_eq_self_iff]
  obtain ⟨q, hq⟩ := p.settleFunding_eq d
  rw [hq]

end

theorem settlePositionFunding_run (a m : ℕ) (s : State) :
    (settlePositionFunding a m).run s =
      match s.market.marketDetails.get m with
      | some d => .ok () (s.putPosition ((getPosition s a m).settleFunding d))
      | none => .error ⟨.marketNotFound, s!"market_details_index={m}"⟩ s := by
  rw [settlePositionFunding, Txn.run_bind_read]
  unfold getMarketDetails
  cases s.market.marketDetails.get m with
  | none => rfl
  | some d =>
    show ((updatePosition a m _ >>= fun _ => pure ())).run s = _
    rw [EStateM.run_bind, updatePosition_run]
    rfl

/-! ### What settlements change -/

/-- Nothing but entry quotes and funding snapshots of positions differs. -/
structure Settled (s t : State) : Prop where
  position : ∀ a m, ∃ q f, getPosition t a m =
    { getPosition s a m with entryQuote := q, lastFundingRatePrefixSum := f }
  frame : t = { s with account := { s.account with
    accountPositions := t.account.accountPositions } }

namespace Settled

variable {s t : State}

instance : IsPreorder State Settled where
  refl s := ⟨fun a m => ⟨_, _, rfl⟩, rfl⟩
  trans s t u h h' := by
    refine ⟨fun a m => ?_, ?_⟩
    · obtain ⟨q, f, hp⟩ := h.position a m
      obtain ⟨q', f', hp'⟩ := h'.position a m
      exact ⟨q', f', by rw [hp', hp]⟩
    · rw [h'.frame, h.frame]

theorem baseSize (h : Settled s t) (a m : ℕ) :
    (getPosition t a m).baseSize = (getPosition s a m).baseSize := by
  obtain ⟨q, f, hp⟩ := h.position a m
  rw [hp]

theorem allocatedMargin (h : Settled s t) (a m : ℕ) :
    (getPosition t a m).allocatedMargin = (getPosition s a m).allocatedMargin := by
  obtain ⟨q, f, hp⟩ := h.position a m
  rw [hp]

theorem accounts (h : Settled s t) : t.account.accounts = s.account.accounts := by
  rw [h.frame]

theorem market (h : Settled s t) : t.market = s.market := by
  rw [h.frame]

theorem collateralOf_eq (h : Settled s t) (a : ℕ) : collateralOf t a = collateralOf s a := by
  unfold collateralOf
  rw [h.accounts]

theorem of_put (s : State) (a m : ℕ) (d : MarketDetails) :
    Settled s (s.putPosition ((getPosition s a m).settleFunding d)) where
  position b m' := by
    rw [getPosition_putPosition]
    by_cases h : b = a ∧ m' = m
    · obtain ⟨rfl, rfl⟩ := h
      obtain ⟨q, hq⟩ := (getPosition s b m').settleFunding_eq d
      rw [if_pos (by simp), hq]
      exact ⟨_, _, rfl⟩
    · rw [if_neg (by simpa using h)]
      exact ⟨_, _, rfl⟩
  frame := rfl

end Settled

theorem settlePositionFunding_keeps (a m : ℕ) : Txn.Keeps Settled (settlePositionFunding a m) := by
  intro s
  rw [Txn.after, settlePositionFunding_run]
  cases s.market.marketDetails.get m with
  | none => exact refl_of Settled s
  | some d => exact Settled.of_put s a m d

theorem settleAllPositionFunding_keeps (a : ℕ) :
    Txn.Keeps Settled (settleAllPositionFunding a) := by
  refine Txn.Keeps.bind Txn.Keeps.read fun positions => ?_
  exact Txn.Keeps.forM fun pos _ => Txn.Keeps.when fun _ => settlePositionFunding_keeps a _

def SamePositions (b : ℕ) (s t : State) : Prop := ∀ m, getPosition t b m = getPosition s b m

instance (b : ℕ) : IsPreorder State (SamePositions b) where
  refl _ _ := rfl
  trans _ _ _ h h' m := (h' m).trans (h m)

theorem settleAllPositionFunding_samePositions {a b : ℕ} (hne : b ≠ a) :
    Txn.Keeps (SamePositions b) (settleAllPositionFunding a) := by
  refine Txn.Keeps.bind Txn.Keeps.read fun positions => ?_
  refine Txn.Keeps.forM fun pos _ => Txn.Keeps.when fun _ s m => ?_
  rw [Txn.after, settlePositionFunding_run]
  cases s.market.marketDetails.get pos.marketIndex with
  | none => rfl
  | some d =>
    rw [getPosition_putPosition, if_neg]
    simp [hne]

end PerpDex
