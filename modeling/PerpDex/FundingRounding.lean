/-
What a family of settlements adds to the market as a whole.

Main result: `funding_creates_no_money_iff`.
-/
import Mathlib.Algebra.BigOperators.Ring.List
import PerpDex.FundingLedger

namespace PerpDex

open Txn

variable {s : State} {m : ℕ} {d : MarketDetails}

def settleEach (m : ℕ) (accts : List ℕ) : Tx Unit := accts.forM fun a => settlePositionFunding a m

/-- Every position of the family is settled against the prefix sum of the market, and no other
position moves. -/
theorem settleEach_ok (hd : s.market.marketDetails.get m = some d) (accts : List ℕ) :
    ∃ t, (settleEach m accts).run s = .ok () t ∧ ∀ b, getPosition t b m =
      if b ∈ accts then (getPosition s b m).settleFunding d else getPosition s b m := by
  induction accts generalizing s with
  | nil => exact ⟨s, rfl, fun b => by simp⟩
  | cons a rest ih =>
    have hfirst := settlePositionFunding_run a m s
    rw [hd] at hfirst
    obtain ⟨t, hrun, hpos⟩ := ih (s := s.putPosition ((getPosition s a m).settleFunding d)) hd
    refine ⟨t, run_bind_ok.mpr ⟨(), _, hfirst, hrun⟩, fun b => ?_⟩
    rw [hpos, getPosition_putPosition]
    simp only [AccountPosition.settleFunding_accountIndex, AccountPosition.settleFunding_marketIndex,
      getPosition_accountIndex, getPosition_marketIndex, and_true, List.mem_cons]
    by_cases hb : b = a
    · subst hb
      -- a second settlement of the account changes nothing
      simp only [if_true, true_or, AccountPosition.settleFunding_settleFunding, ite_self]
    · simp only [hb, if_false, false_or]

theorem AccountPosition.unrealizedPnL_settleFunding (p : AccountPosition) (d : MarketDetails)
    {mark : ℕ} (hmark : mark ≠ 0) :
    (p.settleFunding d).unrealizedPnL mark - p.unrealizedPnL mark =
      -(p.baseSize * (d.fundingRatePrefixSum - p.lastFundingRatePrefixSum)).tdiv fundingRateTick := by
  have hquote := p.settleFunding_entryQuote d
  unfold unrealizedPnL
  rw [settleFunding_baseSize]
  by_cases hzero : p.baseSize = 0
  · simp [hzero]
  · simp only [hzero, hmark, or_self, if_false]
    omega

/-- **When funding creates no money.**  Longs and shorts of the same total size with one snapshot are
each settled once.  Their profits do not rise in total exactly when the remainders of their exact
payments do not add up to more than zero, or nothing is priced. -/
theorem funding_creates_no_money_iff {last : ℤ} {accts : List ℕ} (mark : ℕ)
    (hd : s.market.marketDetails.get m = some d)
    (hlast : ∀ a ∈ accts, (getPosition s a m).lastFundingRatePrefixSum = last)
    (hsum : (accts.map fun a => (getPosition s a m).baseSize).sum = 0) :
    ∃ t, (settleEach m accts).run s = .ok () t ∧
      ((accts.map fun a => (getPosition t a m).unrealizedPnL mark
          - (getPosition s a m).unrealizedPnL mark).sum ≤ 0 ↔
        mark = 0 ∨ (accts.map fun a => ((getPosition s a m).baseSize
          * (d.fundingRatePrefixSum - last)).tmod fundingRateTick).sum ≤ 0) := by
  obtain ⟨t, hrun, hpos⟩ := settleEach_ok hd accts
  refine ⟨t, hrun, ?_⟩
  by_cases hmark : mark = 0
  · simp [AccountPosition.unrealizedPnL, hmark]
  have hpay : accts.map (fun a => (getPosition t a m).unrealizedPnL mark
        - (getPosition s a m).unrealizedPnL mark)
      = accts.map fun a => -((getPosition s a m).baseSize
        * (d.fundingRatePrefixSum - last)).tdiv fundingRateTick := by
    refine List.map_congr_left fun a ha => ?_
    rw [hpos, if_pos ha, AccountPosition.unrealizedPnL_settleFunding _ d hmark, hlast a ha]
  have hzero : (accts.map fun a => (getPosition s a m).baseSize
      * (d.fundingRatePrefixSum - last)).sum = 0 := by
    rw [List.sum_map_mul_right, hsum, zero_mul]
  rw [hpay, Arith.sum_neg_tdiv_nonpos_iff (by decide) hzero]
  simp [hmark]

/-- A short of two units against longs, in a market whose prefix sum has moved. -/
def splitLongs (sizes : List ℤ) (delta : ℤ) : State where
  account := { accountPositions := Table.ofRows (
    { accountIndex := 2, marketIndex := 0, baseSize := -2, entryQuote := -200 } ::
      sizes.mapIdx fun i n =>
        { accountIndex := 3 + i, marketIndex := 0, baseSize := n, entryQuote := 100 * n }) }
  market := { marketDetails := Table.ofRows [{
    marketIndex := 0, markPrice := 100, fundingRatePrefixSum := delta }] }

/-- One long pays what the short receives. -/
theorem funding_creates_no_money_one_long :
    ∃ t, (settleEach 0 [2, 3]).run (splitLongs [2] 600000) = .ok () t ∧
      (([2, 3] : List ℕ).map fun a => (getPosition t a 0).unrealizedPnL 100
        - (getPosition (splitLongs [2] 600000) a 0).unrealizedPnL 100).sum ≤ 0 := by
  obtain ⟨d, hd⟩ : ∃ d, (splitLongs [2] 600000).market.marketDetails.get 0 = some d ∧
      d.fundingRatePrefixSum = 600000 := ⟨_, rfl, rfl⟩
  have hlast : ∀ a ∈ ([2, 3] : List ℕ),
      (getPosition (splitLongs [2] 600000) a 0).lastFundingRatePrefixSum = 0 := by decide +kernel
  have hsum : (([2, 3] : List ℕ).map fun a =>
      (getPosition (splitLongs [2] 600000) a 0).baseSize).sum = 0 := by decide +kernel
  obtain ⟨t, hrun, hiff⟩ := funding_creates_no_money_iff 100 hd.1 hlast hsum
  rw [hd.2] at hiff
  exact ⟨t, hrun, hiff.mpr (Or.inr (by decide +kernel))⟩

/-- **Funding creates money.**  Two longs of one unit are spared their payments of six tenths, and the
short of two units receives one of its twelve tenths. -/
theorem funding_creates_money :
    let s := splitLongs [1, 1] 600000
    let t := after (settleEach 0 [2, 3, 4]) s
    (settleEach 0 [2, 3, 4]).run s = .ok () t ∧
      ([2, 3, 4].map fun a => (getPosition s a 0).lastFundingRatePrefixSum) = [0, 0, 0] ∧
      ([2, 3, 4].map fun a => (getPosition s a 0).baseSize).sum = 0 ∧
      (([2, 3, 4] : List ℕ).map fun a => (getPosition t a 0).unrealizedPnL 100
        - (getPosition s a 0).unrealizedPnL 100).sum = 1 := by
  intro s t
  exact ⟨run_of_succeeds (by decide +kernel), by decide +kernel, by decide +kernel,
    by decide +kernel⟩

end PerpDex
