/-
Who pays the liquidation improvement fee.

Main results: `liquidation_fee_bounded`, `feeOnVictim_iff`.

Rebalancing an isolated position moves margin between the two pools of its owner, so what a side pays is
visible only in their sum.
-/
import PerpDex.Funds
import PerpDex.Sweep

namespace PerpDex

variable {s t : State} {f : Fill}

/-! ### What a fill does to the pools of one account -/

/-- Collateral of an account and the margin allocated to its position in a market. -/
def ownFunds (s : State) (a m : ℕ) : ℤ := collateralOf s a + (getPosition s a m).allocatedMargin

theorem Fill.nextPosition_allocatedMargin (f : Fill) (s : State) (d : MarketDetails) (a m : ℕ) :
    (f.nextPosition s d a m).allocatedMargin = (getPosition s a m).allocatedMargin := by
  have hsettle : ∀ p : AccountPosition, (p.settleFunding d).allocatedMargin = p.allocatedMargin := by
    intro p
    obtain ⟨q, hq⟩ := p.settleFunding_eq d
    rw [hq]
  unfold nextPosition
  split_ifs with hm hmaker htaker
  · rw [hm, hmaker]
    exact hsettle _
  · rw [hm, htaker]
    exact hsettle _
  · rfl
  · rfl

theorem FillEffect.ownFunds_eq {d : MarketDetails} {c al : ℕ → ℤ}
    (h : FillEffect f d c al s t) (a : ℕ) :
    ownFunds t a f.marketIndex = ownFunds s a f.marketIndex + (c a + al a) := by
  have hcollateral : collateralOf t a = collateralOf s a + c a := by
    unfold collateralOf
    rw [h.account]
    rcases hs : s.account.accounts.get a with _ | r
    · have hc : c a = 0 := by
        by_contra hne
        simpa [hs] using h.exist a hne
      simp [hc]
    · simp [Account.credit]
  have hmargin : (getPosition t a f.marketIndex).allocatedMargin
      = (getPosition s a f.marketIndex).allocatedMargin + al a := by
    rw [h.position, if_pos rfl]
    show (f.nextPosition s d a f.marketIndex).allocatedMargin + al a = _
    rw [f.nextPosition_allocatedMargin]
  unfold ownFunds
  omega

/-! ### The improvement fee -/

/-- By how much the price of the fill is better for the victim than the zero price. -/
def Fill.improvement (f : Fill) : ℤ :=
  if f.isTakerAsk then (f.price : ℤ) - f.zeroPrice else (f.zeroPrice : ℤ) - f.price

def Fill.improvementRate (f : Fill) : ℤ := (f.improvement * feeTick).tdiv f.price

/-- The rate is zero, the price is no better for the victim than the zero price, or the fee is
less than one unit. -/
def Fill.NoImprovementFee (f : Fill) : Prop :=
  f.liquidationFeeBps = 0 ∨ f.improvement ≤ 0 ∨
    f.notional * min (f.liquidationFeeBps : ℤ) f.improvementRate < feeTick

theorem Fill.notional_nonneg (f : Fill) : 0 ≤ f.notional := by
  unfold notional
  positivity

theorem Fill.improvementRate_nonneg (himp : 0 < f.improvement) : 0 ≤ f.improvementRate :=
  Int.tdiv_nonneg (mul_nonneg himp.le (by decide)) (Int.natCast_nonneg _)

theorem Fill.chargedRate_nonneg (himp : 0 < f.improvement) :
    0 ≤ f.notional * min (f.liquidationFeeBps : ℤ) f.improvementRate :=
  mul_nonneg f.notional_nonneg (le_min (Int.natCast_nonneg _) (improvementRate_nonneg himp))

theorem liquidationImprovementFee_eq (f : Fill) :
    liquidationImprovementFee f f.notional = if 0 < f.improvement then
      (f.notional * min (f.liquidationFeeBps : ℤ) f.improvementRate).tdiv feeTick else 0 := by
  rw [liquidationImprovementFee]
  by_cases hempty : f.liquidationFeeBps = 0 ∨ f.baseAmount = 0 ∨ f.price = 0
  · rw [if_pos hempty]
    split
    · rename_i himp
      have hzero : f.notional * min (f.liquidationFeeBps : ℤ) f.improvementRate = 0 := by
        rcases hempty with h0 | h0 | h0
        · rw [h0, Nat.cast_zero, min_eq_left (Fill.improvementRate_nonneg himp), mul_zero]
        · simp [Fill.notional, h0]
        · simp [Fill.notional, h0]
      rw [hzero, Int.zero_tdiv]
    · rfl
  · rw [if_neg hempty]
    have hrate : (if (f.liquidationFeeBps : ℤ) < f.improvementRate then (f.liquidationFeeBps : ℤ)
        else f.improvementRate) = min (f.liquidationFeeBps : ℤ) f.improvementRate := by
      rw [min_def]
      split_ifs <;> omega
    show (if ¬ 0 < f.improvement then 0
      else if ¬ 0 < (if (f.liquidationFeeBps : ℤ) < f.improvementRate then (f.liquidationFeeBps : ℤ)
        else f.improvementRate) then 0
      else (f.notional * (if (f.liquidationFeeBps : ℤ) < f.improvementRate then
        (f.liquidationFeeBps : ℤ) else f.improvementRate)).tdiv feeTick) = _
    rw [hrate]
    by_cases himp : 0 < f.improvement
    · rw [if_neg (not_not.mpr himp), if_pos himp]
      split_ifs with hpos
      · rfl
      · -- the rate is not negative, so it is zero here
        have hnonneg : 0 ≤ min (f.liquidationFeeBps : ℤ) f.improvementRate :=
          le_min (Int.natCast_nonneg _) (Fill.improvementRate_nonneg himp)
        have hzero : min (f.liquidationFeeBps : ℤ) f.improvementRate = 0 := by omega
        rw [hzero]
        simp
    · rw [if_pos himp, if_neg himp]

theorem liqFee_eq (hfee : f.noFee = false) (hbps : 0 < f.liquidationFeeBps) :
    f.liqFee = if 0 < f.improvement then
      (f.notional * min (f.liquidationFeeBps : ℤ) f.improvementRate).tdiv feeTick else 0 := by
  rw [Fill.liqFee, if_pos ⟨hfee, hbps⟩, liquidationImprovementFee_eq]

theorem Fill.notional_mul_improvementRate_le (himp : 0 < f.improvement) :
    f.notional * f.improvementRate ≤ f.baseAmount * f.improvement * feeTick := by
  rcases Nat.eq_zero_or_pos f.price with hzero | hprice
  · have hbase : 0 ≤ (f.baseAmount : ℤ) * f.improvement * feeTick :=
      mul_nonneg (mul_nonneg (Int.natCast_nonneg _) himp.le) (by decide)
    simpa [notional, hzero] using hbase
  · have hround : f.improvementRate * f.price ≤ f.improvement * feeTick :=
      Arith.tdiv_mul_le (mul_nonneg himp.le (by decide)) (by exact_mod_cast hprice)
    calc f.notional * f.improvementRate
        = f.baseAmount * (f.improvementRate * f.price) := by
          rw [notional]
          ring
      _ ≤ f.baseAmount * (f.improvement * feeTick) :=
          mul_le_mul_of_nonneg_left hround (Int.natCast_nonneg _)
      _ = f.baseAmount * f.improvement * feeTick := (mul_assoc _ _ _).symm

/-- **The improvement fee leaves the victim its zero price.**  The fee is not negative, and neither
exceeds the improvement of the price over all units nor the configured share of the notional.  What a
sale brings after the fee is no less than the zero price for each unit, and what a purchase costs with
it no more, unless the price is already beyond the zero price, and then there is no fee. -/
theorem liquidation_fee_bounded (f : Fill) :
    let fee := liquidationImprovementFee f f.notional
    0 ≤ fee ∧ fee ≤ min (f.baseAmount * max 0 f.improvement)
        ((f.notional * f.liquidationFeeBps).tdiv feeTick) ∧
      if f.isTakerAsk then (f.baseAmount : ℤ) * min f.price f.zeroPrice ≤ f.notional - fee
      else f.notional + fee ≤ (f.baseAmount : ℤ) * max f.price f.zeroPrice := by
  intro fee
  have htick : (0 : ℤ) < feeTick := by decide
  have hshare : 0 ≤ f.notional * f.liquidationFeeBps :=
    mul_nonneg f.notional_nonneg (Int.natCast_nonneg _)
  obtain ⟨hnonneg, himprovement, hbps⟩ : 0 ≤ fee ∧ fee ≤ f.baseAmount * max 0 f.improvement ∧
      fee ≤ (f.notional * f.liquidationFeeBps).tdiv feeTick := by
    rw [show fee = _ from liquidationImprovementFee_eq f]
    split
    · rename_i himp
      have hcharged := Fill.chargedRate_nonneg himp
      refine ⟨Int.tdiv_nonneg hcharged htick.le, ?_, ?_⟩
      · rw [max_eq_right himp.le]
        refine Int.le_of_mul_le_mul_right (le_trans (Arith.tdiv_mul_le hcharged htick) ?_) htick
        refine le_trans ?_ (Fill.notional_mul_improvementRate_le himp)
        exact mul_le_mul_of_nonneg_left (min_le_right _ _) f.notional_nonneg
      · rw [Arith.le_tdiv_iff hshare htick]
        refine le_trans (Arith.tdiv_mul_le hcharged htick) ?_
        exact mul_le_mul_of_nonneg_left (min_le_left _ _) f.notional_nonneg
    · exact ⟨le_rfl, mul_nonneg (Int.natCast_nonneg _) (le_max_left _ _),
        Int.tdiv_nonneg hshare htick.le⟩
  refine ⟨hnonneg, le_min himprovement hbps, ?_⟩
  -- the improvement is the distance between the price and the zero price
  unfold Fill.improvement at himprovement
  unfold Fill.notional
  split
  · rename_i hask
    rw [if_pos hask] at himprovement
    have hmin : ((min f.price f.zeroPrice : ℕ) : ℤ)
        = f.price - max 0 ((f.price : ℤ) - f.zeroPrice) := by omega
    rw [hmin, mul_sub]
    omega
  · rename_i hbid
    rw [if_neg hbid] at himprovement
    have hmax : ((max f.price f.zeroPrice : ℕ) : ℤ)
        = f.price + max 0 ((f.zeroPrice : ℤ) - f.price) := by omega
    rw [hmax, mul_add]
    omega

theorem Fill.liqFee_nonneg (f : Fill) : 0 ≤ f.liqFee := by
  by_cases h : f.noFee = false ∧ 0 < f.liquidationFeeBps
  · rw [liqFee_eq h.1 h.2]
    split_ifs with himp
    · exact Int.tdiv_nonneg (chargedRate_nonneg himp) (by decide)
    · exact le_rfl
  · rw [liqFee, if_neg h]

theorem liqFee_eq_zero_iff (hfee : f.noFee = false) : f.liqFee = 0 ↔ f.NoImprovementFee := by
  unfold Fill.NoImprovementFee
  by_cases hbps : 0 < f.liquidationFeeBps
  · rw [liqFee_eq hfee hbps]
    split_ifs with himp
    · have hnonneg := Fill.chargedRate_nonneg himp
      rw [Int.tdiv_eq_ediv_of_nonneg hnonneg]
      simp only [feeTick]
      omega
    · simp only [true_iff]
      omega
  · rw [Fill.liqFee, if_neg fun h => hbps h.2]
    simp only [true_iff]
    omega

/-! ### Incidence of the fee -/

/-- The victim, who is the taker, carries the improvement fee, the recipient is credited with it,
and the maker's pools change by its realized PnL alone. -/
def FeeOnVictim (f : Fill) (d : MarketDetails) (s t : State) : Prop :=
  ∀ a, ownFunds t a f.marketIndex - ownFunds s a f.marketIndex =
    (Pi.single f.takerAccountIndex ((f.takerFill s d).realizedPnL - f.liqFee) : ℕ → ℤ) a
      + (Pi.single f.makerAccountIndex (f.makerFill s d).realizedPnL : ℕ → ℤ) a
      + (Pi.single f.recipient f.liqFee : ℕ → ℤ) a

theorem apply_ownFunds {u : Unit} (hne : f.makerAccountIndex ≠ f.takerAccountIndex)
    (htaker : f.takerFee = 0) (hmaker : f.makerFee = 0) (h : (apply f).run s = .ok u t) :
    ∃ d, s.market.marketDetails.get f.marketIndex = some d ∧ ∀ a,
      ownFunds t a f.marketIndex - ownFunds s a f.marketIndex =
        (Pi.single f.takerAccountIndex (f.takerFill s d).realizedPnL : ℕ → ℤ) a
          + (Pi.single f.makerAccountIndex ((f.makerFill s d).realizedPnL - f.liqFee) : ℕ → ℤ) a
          + (Pi.single f.recipient f.liqFee : ℕ → ℤ) a := by
  obtain ⟨d, ct, alt, cm, alm, heffect, hct, hcm, -, -⟩ := apply_ok hne h
  refine ⟨d, heffect.details, fun a => ?_⟩
  have htakerFee : f.takerFeeAmount = 0 := by simp [Fill.takerFeeAmount, feeOf, htaker]
  have hmakerFee : f.makerFeeAmount = 0 := by simp [Fill.makerFeeAmount, feeOf, hmaker]
  have hliq : liqFeeOf true f.liqFee = f.liqFee := by
    have hnonneg := f.liqFee_nonneg
    rw [liqFeeOf_maker]
    split_ifs <;> omega
  rw [htakerFee, sub_zero] at hct
  rw [hmakerFee, sub_zero, hliq] at hcm
  have hadd : ∀ (i : ℕ) (x y : ℤ),
      (Pi.single i (x + y) : ℕ → ℤ) a = (Pi.single i x : ℕ → ℤ) a + (Pi.single i y : ℕ → ℤ) a := by
    intro i x y
    rw [Pi.single_add, Pi.add_apply]
  rw [heffect.ownFunds_eq, ← hct, ← hcm, hadd, hadd]
  simp only [Pi.add_apply, Fill.feeCredits, htakerFee, hmakerFee, hliq, add_zero, Pi.single_zero,
    Pi.zero_apply]
  ring

/-- **Who pays the improvement fee.**  In a fill of a liquidation order the victim carries the
fee and the maker none of it exactly when there is no fee: the rate is zero, the price is no
better for the victim than the zero price, or the fee is less than one unit. -/
theorem feeOnVictim_iff {taker : Order} {maxFills zeroPrice feeBps recipient base : ℕ}
    {x : SweepState} {maker : OrderBookEntry} {u v : State}
    (h : MatchLiquidationCommits taker maxFills zeroPrice feeBps recipient s x maker base u v) :
    let f := liquidationFill x.taker maker base zeroPrice feeBps recipient
    ∃ d, u.market.marketDetails.get f.marketIndex = some d ∧
      (FeeOnVictim f d u v ↔ f.NoImprovementFee) := by
  intro f
  obtain ⟨-, -, hattempts, hcommitted⟩ := h
  obtain ⟨w, o, htrade, hfill⟩ := applyFill_committed hcommitted
  have hne : f.makerAccountIndex ≠ f.takerAccountIndex := (nextMaker_found hattempts.search).other
  obtain ⟨d, hd, hfunds⟩ := apply_ownFunds hne rfl rfl htrade
  refine ⟨d, hd, ?_⟩
  -- shrinking the maker's order afterwards moves no money
  have hbook : BookOnly w v := (fillMakerOrder_bookOnly _ _).ok hfill
  have hsame : ∀ a, ownFunds v a f.marketIndex = ownFunds w a f.marketIndex := by
    intro a
    rw [hbook]
    rfl
  rw [← liqFee_eq_zero_iff rfl]
  constructor
  · intro hvictim
    have hmaker := hvictim f.makerAccountIndex
    rw [hsame, hfunds, Pi.single_eq_same, Pi.single_eq_same, Pi.single_eq_of_ne hne,
      Pi.single_eq_of_ne hne] at hmaker
    omega
  · intro hzero a
    rw [hsame, hfunds, hzero, sub_zero, sub_zero]

/-- A user who is long and close to liquidation, and a second user with collateral. -/
def liquidatable : State where
  account := {
    accounts := Table.ofRows [{ accountIndex := 0 },
      { accountIndex := 1, accountType := .insuranceFund, publicPoolInfo := some {} },
      { accountIndex := 2, ownerAddress := "alice", collateral := 2300 },
      { accountIndex := 3, ownerAddress := "bob", collateral := 5000 }]
    accountPositions := Table.ofRows [
      { accountIndex := 1, marketIndex := 0, baseSize := -100, entryQuote := -12000 },
      { accountIndex := 2, marketIndex := 0, baseSize := 100, entryQuote := 12000 }] }
  market := {
    markets := Table.ofRows [{ marketIndex := 0, liquidationFee := 10000 }]
    marketDetails := Table.ofRows [{
      marketIndex := 0, markPrice := 100, openInterest := 100, defaultInitialMarginFraction := 1000,
      minInitialMarginFraction := 500, maintenanceMarginFraction := 400,
      closeOutMarginFraction := 200 }] }

/-- The same market before the price fell. -/
def beforeFall : State := liquidatable.putDetails { detailsOf liquidatable 0 with markPrice := 120 }

def bobBids : MsgCreateOrder where
  sender := "bob"
  accountIndex := 3
  marketIndex := 0
  isAsk := false
  baseAmount := 50
  price := 99
  expiry := 1000

def bidRests : State :=
  let _ := AddressCodec.acceptAll
  Txn.after (createOrder bobBids) liquidatable

/-- The order that closes 50 units of the first user at a zero price of 97. -/
def aliceLiquidated : Order := liquidationOrder 2 0 true 97 50

def bobEntry : OrderBookEntry where
  orderIndex := 1
  ownerAccountIndex := 3
  price := 99
  nonce := firstBidNonce
  remainingBaseAmount := 50
  expiry := 1000
  reduceOnly := false
  orderType := .limitOrder

theorem aliceLiquidated_commits :
    let u := Txn.after (nextMaker aliceLiquidated true (entryCount bidRests + 1)) bidRests
    MatchLiquidationCommits aliceLiquidated 100 97 10000 1 bidRests
      ⟨aliceLiquidated, 100, bidRests⟩ bobEntry 50 u
      (Txn.after (applyLiquidationFill 97 10000 1 aliceLiquidated bobEntry 50) u) :=
  ⟨⟨{ marketIndex := 0, liquidationFee := 10000 }, by decide +kernel, rfl⟩,
    Commits.of_values bidRests (by decide) (by decide) (by decide +kernel) (by decide +kernel)
      (by decide +kernel)⟩

theorem feeOnVictim_iff_bid_above_zero_price :
    let u := Txn.after (nextMaker aliceLiquidated true (entryCount bidRests + 1)) bidRests
    let v := Txn.after (applyLiquidationFill 97 10000 1 aliceLiquidated bobEntry 50) u
    let f := liquidationFill aliceLiquidated bobEntry 50 97 10000 1
    ∃ d, u.market.marketDetails.get f.marketIndex = some d ∧
      (FeeOnVictim f d u v ↔ f.NoImprovementFee) := by
  exact feeOnVictim_iff aliceLiquidated_commits

/-- The first user is liquidated against the bid at 99, two above the zero price.  The fee of 49
reaches the insurance fund and is taken from the bidder; the victim pays nothing. -/
theorem bidder_pays_liquidation_fee :
    let _ := AddressCodec.acceptAll
    let t := Txn.after (liquidate ⟨"keeper", 2, 0, 50⟩) bidRests
    Txn.succeeds (liquidate ⟨"keeper", 2, 0, 50⟩) bidRests = true ∧
      (liquidationFill aliceLiquidated bobEntry 50 97 10000 1).liqFee = 49 ∧
      ownFunds t 1 0 - ownFunds bidRests 1 0 = 49 ∧
      ownFunds t 3 0 - ownFunds bidRests 3 0 = -49 ∧
      ((getPosition bidRests 3 0).applyFill 50 99).realizedPnL = 0 ∧
      ownFunds t 2 0 - ownFunds bidRests 2 0
        = ((getPosition bidRests 2 0).applyFill (-50) 99).realizedPnL := by
  decide +kernel

end PerpDex
