/-
The perpetual engine (`x/trade/keeper/perp`): what one fill does to its two accounts.

The pipeline writes as it goes and does not undo anything itself: callers that want a failed fill to
leave no trace wrap it.  The source passes its intermediate result by pointer; here the steps that
change it return it.
-/
import PerpDex.Risk

namespace PerpDex

/-! ### Fills and fees -/

structure Fill where
  makerAccountIndex : ℕ
  takerAccountIndex : ℕ
  marketIndex : ℕ
  price : ℕ
  baseAmount : ℕ
  isTakerAsk : Bool
  takerFee : ℕ := 0
  makerFee : ℕ := 0
  noFee : Bool := false
  noRiskCheck : Bool := false
  skipMakerRiskCheck : Bool := false
  skipTakerRiskCheck : Bool := false
  zeroPrice : ℕ := 0
  liquidationFeeBps : ℕ := 0
  liquidationFeeRecipient : ℕ := 0
deriving DecidableEq, Repr

def feeOf (notional : ℤ) (bps : ℕ) : ℤ :=
  if bps = 0 ∨ notional = 0 then 0 else (notional * bps).tdiv feeTick

def liquidationImprovementFee (f : Fill) (notional : ℤ) : ℤ :=
  if f.liquidationFeeBps = 0 ∨ f.baseAmount = 0 ∨ f.price = 0 then 0
  else
    let priceInt : ℤ := f.price
    let zpInt : ℤ := f.zeroPrice
    -- a long victim is better off with a higher price, a short one with a lower price
    let improvement := if f.isTakerAsk then priceInt - zpInt else zpInt - priceInt
    if ¬ 0 < improvement then 0
    else
      let priceDiffRate := (improvement * feeTick).tdiv priceInt
      let feeBpsInt : ℤ := f.liquidationFeeBps
      let effectiveRate := if feeBpsInt < priceDiffRate then feeBpsInt else priceDiffRate
      if ¬ 0 < effectiveRate then 0
      else (notional * effectiveRate).tdiv feeTick

namespace Fill

variable (f : Fill)

def makerSign : ℤ := if f.isTakerAsk then 1 else -1

def takerSign : ℤ := -f.makerSign

def notional : ℤ := (f.baseAmount : ℤ) * f.price

/-- What the taker pays to the treasury. -/
def takerFeeAmount : ℤ := if f.noFee then 0 else feeOf f.notional f.takerFee

/-- What the maker pays to the treasury. -/
def makerFeeAmount : ℤ := if f.noFee then 0 else feeOf f.notional f.makerFee

def liqFee : ℤ :=
  if f.noFee = false ∧ 0 < f.liquidationFeeBps then liquidationImprovementFee f f.notional else 0

end Fill

/-! ### One side's position -/

structure PositionChangeResult where
  accountIdx : ℕ
  marketIdx : ℕ
  old : AccountPosition
  new : AccountPosition
  oiDelta : ℤ
  sideFlipped : Bool
  realizedPnL : ℤ
deriving DecidableEq

def isWithinPositionBounds (position entryQuote : ℤ) : Bool :=
  if |position| > maxPositionSize then false
  else if |entryQuote| > maxEntryQuote then false
  else true

/-- The position after a fill, unless its size or entry quote is too large to be stored. -/
def boundedFill (delta : ℤ) (price : ℕ) (pos : AccountPosition) : Except Err AccountPosition :=
  let next := (pos.applyFill delta price).position
  if isWithinPositionBounds next.baseSize next.entryQuote then .ok next
  else .error ⟨.positionOutOfBounds, "trade: post-trade position out of bounds"⟩

def applyPositionChange (accountIdx marketIdx price baseAmount : ℕ) (sign : ℤ) :
    Tx PositionChangeResult := do
  let delta : ℤ := baseAmount * sign
  let old ← Txn.read fun s => .ok (getPosition s accountIdx marketIdx)
  let updated ← updatePosition accountIdx marketIdx (boundedFill delta price)
  let oiDelta := |updated.baseSize| - |old.baseSize|
  Txn.require (minInt64 ≤ oiDelta ∧ oiDelta ≤ maxInt64) ⟨.goPanic, "Int64() out of bound"⟩
  return {
    accountIdx := accountIdx
    marketIdx := marketIdx
    old := old
    new := updated
    oiDelta := oiDelta
    sideFlipped := (old.applyFill delta price).sideFlipped
    realizedPnL := (old.applyFill delta price).realizedPnL }

/-! ### Margin -/

def ceilDivPositive (num den : ℤ) : ℤ :=
  if den = 0 then 0
  else if num % den = 0 then num.tdiv den
  else num.tdiv den + 1

/-- Margin to move from the cross pool into an isolated position after its size changed. -/
def calculateIsolatedMarginDelta (res : PositionChangeResult) (fee : ℤ) : Query ℤ := fun s =>
  let newPos := res.new
  let oldPos := res.old
  let allocated := newPos.allocatedMargin
  -- closed: what is left goes back
  if newPos.baseSize = 0 then
    if 0 < allocated then .ok (-allocated) else .ok 0
  else do
    let (markPrice, md) ← getMarkPriceAndDetails res.marketIdx s
    let posReq := md.initialMargin |newPos.baseSize| markPrice
    if res.sideFlipped then
      return posReq - (allocated + newPos.unrealizedPnL markPrice)
    else if res.oiDelta < 0 then
      -- shrunk: the value beyond the remaining share of the old value goes back
      let oldMV := oldPos.marketValue markPrice
      let newMV := newPos.marketValue markPrice
      let oldAbs := |oldPos.baseSize|
      let newAbs := |newPos.baseSize|
      let targetValue :=
        if 0 < oldMV ∧ oldAbs ≠ 0 then max (ceilDivPositive (oldMV * newAbs) oldAbs) posReq
        else posReq
      let excess := max (newMV - targetValue) 0
      let toMoveOut := max allocated 0
      return -(min excess toMoveOut)
    else
      let oiAbs := |res.oiDelta|
      if oiAbs = 0 then return 0
      else
        let oiReq := md.initialMargin oiAbs markPrice
        let tradePnL := newPos.unrealizedPnL markPrice - oldPos.unrealizedPnL markPrice - fee
        return max (oiReq - tradePnL) 0

/-- Change the allocated margin of a position and carry the stored row along. -/
def isolatedAddAllocatedMargin (res : PositionChangeResult) (delta : ℤ) :
    Tx PositionChangeResult :=
  if delta = 0 then pure res
  else do
    let updated ← updatePosition res.accountIdx res.marketIdx fun p => .ok (p.allocate delta)
    return { res with new := updated }

def isolatedDebit (res : PositionChangeResult) (amount : ℤ) : Tx PositionChangeResult :=
  isolatedAddAllocatedMargin res (-amount)

/-- Margin that has to come out of the cross pool must be available there. -/
def requireAvailableUsdc (accountIdx : ℕ) (delta : ℤ) (isMaker : Bool) : Tx Unit := do
  let avail ← Txn.read (getAvailableUsdcCollateral accountIdx)
  let text := s!"account {accountIdx} available {avail} need {delta}"
  Txn.require (¬ avail < delta)
    (if isMaker then ⟨.makerInsufficientCollateral, text⟩
      else ⟨.takerInsufficientCollateral, text⟩)

def rebalanceIsolatedMargin (res : PositionChangeResult) (fee : ℤ) (isMaker : Bool) (f : Fill) :
    Tx Unit := do
  let delta ← Txn.read (calculateIsolatedMarginDelta res fee)
  let skip := f.noRiskCheck || (isMaker && f.skipMakerRiskCheck)
  Txn.when (delta ≠ 0) do
    Txn.when (0 < delta ∧ skip = false) (requireAvailableUsdc res.accountIdx delta isMaker)
    let _ ← updatePosition res.accountIdx res.marketIdx fun p => .ok (p.allocate delta)
    addCollateral res.accountIdx (-delta)

def crossAddCollateral (accountIdx : ℕ) (delta : ℤ) : Tx Unit :=
  Txn.when (delta ≠ 0) (addCollateral accountIdx delta)

def crossDebit (accountIdx : ℕ) (amount : ℤ) : Tx Unit :=
  crossAddCollateral accountIdx (-amount)

/-- The part of the improvement fee that a side pays: all of it by the maker. -/
def liqFeeOf (isMaker : Bool) (liqFee : ℤ) : ℤ := if isMaker ∧ 0 < liqFee then liqFee else 0

def applyCrossAccount (res : PositionChangeResult) (fee : ℤ) (isMaker : Bool) (liqFee : ℤ) :
    Tx Unit := do
  crossAddCollateral res.accountIdx (res.realizedPnL - fee)
  crossDebit res.accountIdx (liqFeeOf isMaker liqFee)

def applyIsolatedAccount (res : PositionChangeResult) (fee : ℤ) (isMaker : Bool) (liqFee : ℤ)
    (f : Fill) : Tx Unit := do
  let res ← isolatedAddAllocatedMargin res (res.realizedPnL - fee)
  let res ← isolatedDebit res (liqFeeOf isMaker liqFee)
  rebalanceIsolatedMargin res fee isMaker f

/-- A side follows the margin mode its position had before the fill. -/
def applyAccount (res : PositionChangeResult) (fee : ℤ) (isMaker : Bool) (liqFee : ℤ)
    (f : Fill) : Tx Unit :=
  match res.old.marginMode with
  | .isolated => applyIsolatedAccount res fee isMaker liqFee f
  | .cross => applyCrossAccount res fee isMaker liqFee

/-! ### The pipeline -/

/-- An out-of-bounds position is reported for the side it belongs to. -/
def wrapPositionError (isMaker : Bool) (accountIdx marketIdx : ℕ) (e : Err) : Err :=
  let text := s!"account {accountIdx} market {marketIdx}"
  if e.sentinel = .positionOutOfBounds then
    if isMaker then ⟨.makerInvalidPosition, text⟩ else ⟨.takerInvalidPosition, text⟩
  else e

/-- Risk of a side before the fill, if it is going to be compared. -/
def snapshotSide (skip : Bool) (accountIdx : ℕ) : Tx PreRiskSnapshot :=
  if skip then pure {} else Txn.read (snapshotRisk accountIdx)

def settleSides (f : Fill) : Tx Unit := do
  settlePositionFunding f.makerAccountIndex f.marketIndex
  settlePositionFunding f.takerAccountIndex f.marketIndex

/-- Settle both sides and take the snapshots. -/
def prepareFill (f : Fill) : Tx (PreRiskSnapshot × PreRiskSnapshot) := do
  settleSides f
  let makerPre ← snapshotSide (f.noRiskCheck || f.skipMakerRiskCheck) f.makerAccountIndex
  let takerPre ← snapshotSide (f.noRiskCheck || f.skipTakerRiskCheck) f.takerAccountIndex
  return (makerPre, takerPre)

def makerPositionChange (f : Fill) : Tx PositionChangeResult :=
  Txn.mapError (wrapPositionError true f.makerAccountIndex f.marketIndex)
    (applyPositionChange f.makerAccountIndex f.marketIndex f.price f.baseAmount f.makerSign)

def takerPositionChange (f : Fill) : Tx PositionChangeResult :=
  Txn.mapError (wrapPositionError false f.takerAccountIndex f.marketIndex)
    (applyPositionChange f.takerAccountIndex f.marketIndex f.price f.baseAmount f.takerSign)

def Fill.recipient (f : Fill) : ℕ :=
  if f.liquidationFeeRecipient = 0 then insuranceFundOperatorAccountIdx
  else f.liquidationFeeRecipient

def creditFees (f : Fill) : Tx Unit :=
  Txn.when (f.noFee = false) do
    let treasuryFee := f.takerFeeAmount + f.makerFeeAmount
    Txn.when (treasuryFee ≠ 0) (addCollateral treasuryAccountIndex treasuryFee)
    Txn.when (0 < f.liqFee) (addCollateral f.recipient f.liqFee)

/-- Margin and fees of both sides; the improvement fee goes to the maker's side. -/
def routeMargin (f : Fill) (makerRes takerRes : PositionChangeResult) : Tx Unit := do
  applyAccount takerRes f.takerFeeAmount false 0 f
  applyAccount makerRes f.makerFeeAmount true f.liqFee f
  creditFees f

def checkSideRisk (f : Fill) (idx : ℕ) (pre : PreRiskSnapshot) : Tx Unit :=
  if f.skipMakerRiskCheck = true ∧ idx = f.makerAccountIndex then pure ()
  else if f.skipTakerRiskCheck = true ∧ idx = f.takerAccountIndex then pure ()
  else do
    let ok ← Txn.read (isValidRiskChangeFrom idx pre)
    let text := s!"account {idx}"
    Txn.require (ok = true)
      (if idx = f.makerAccountIndex then ⟨.makerRiskRegression, text⟩
        else ⟨.takerRiskRegression, text⟩)

/-- The change of open interest: half of what both sides' sizes changed by. -/
def oiDeltaOf (makerRes takerRes : PositionChangeResult) : ℤ :=
  (Arith.wrap64 (makerRes.oiDelta + takerRes.oiDelta)).tdiv 2

def finishFill (f : Fill) (makerPre takerPre : PreRiskSnapshot)
    (makerRes takerRes : PositionChangeResult) : Tx Unit := do
  routeMargin f makerRes takerRes
  updateOpenInterest f.marketIndex (oiDeltaOf makerRes takerRes)
  Txn.when (f.noRiskCheck = false) do
    checkSideRisk f f.takerAccountIndex takerPre
    checkSideRisk f f.makerAccountIndex makerPre

def apply (f : Fill) : Tx Unit := do
  let (makerPre, takerPre) ← prepareFill f
  let makerRes ← makerPositionChange f
  let takerRes ← takerPositionChange f
  finishFill f makerPre takerPre makerRes takerRes

def applyPerpsMatching (f : Fill) : Tx Unit := apply f

end PerpDex
