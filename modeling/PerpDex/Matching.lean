/-
The matching loop (`x/matching/keeper`) and the spot engine (`x/trade/keeper/spot.go`).

* `applySpotMatching` — what a spot fill does to the balances of its two accounts;
* `sweep` — the loop, shared by orders of users and by liquidation orders.

The source answers "no maker" with one Boolean for several reasons; the model names the reason
(`MakerSearch`, `SweepEnd`).  The loops run on the bound that entries and fill cap give, and fail with
`outOfFuel` beyond it.  A fill is applied on a cached context; evictions are written to the outer one.
-/
import PerpDex.Engine
import PerpDex.Orderbook

namespace PerpDex

/-! ### Spot fills -/

structure SpotFill where
  makerAccountIndex : ℕ
  takerAccountIndex : ℕ
  marketIndex : ℕ
  price : ℕ
  baseAmount : ℕ
  isTakerAsk : Bool
  takerFee : ℕ := 0
  makerFee : ℕ := 0
  noFee : Bool := false
deriving DecidableEq, Repr

/-- Move an amount between accounts; a shortfall is reported as `shortfall`. -/
def spotDebit (shortfall : Sentinel) (drainLockedFirst : Bool) (src dst assetID : ℕ)
    (amount : ℤ) : Tx Unit :=
  if amount < 0 then throw ⟨.invalidTransferAmount, ""⟩
  else
    Txn.mapError
      (fun e =>
        let text := e.detail
        if e.sentinel = .insufficientFunds then ⟨shortfall, s!"{text}: insufficient funds"⟩ else e)
      (transferAccountAssetBalance src dst assetID amount drainLockedFirst)

def spotMakerDebit : ℕ → ℕ → ℕ → ℤ → Tx Unit := spotDebit .makerInsufficientBalance true

def spotTakerDebit : ℕ → ℕ → ℕ → ℤ → Tx Unit := spotDebit .takerInsufficientBalance false

def SpotFill.notional (f : SpotFill) : ℤ := (f.baseAmount : ℤ) * f.price

def swapAssets (f : SpotFill) (baseAssetID quoteAssetID : ℕ) : Tx Unit :=
  if f.isTakerAsk then do
    spotMakerDebit f.makerAccountIndex f.takerAccountIndex quoteAssetID f.notional
    spotTakerDebit f.takerAccountIndex f.makerAccountIndex baseAssetID f.baseAmount
  else do
    spotMakerDebit f.makerAccountIndex f.takerAccountIndex baseAssetID f.baseAmount
    spotTakerDebit f.takerAccountIndex f.makerAccountIndex quoteAssetID f.notional

/-- Fees of a spot fill.  The maker's fee is debited like the maker's leg, locked part first. -/
def chargeSpotFees (f : SpotFill) (quoteAssetID : ℕ) : Tx Unit :=
  Txn.when (f.noFee = false) do
    let takerFee := feeOf f.notional f.takerFee
    let makerFee := feeOf f.notional f.makerFee
    Txn.when (0 < takerFee)
      (spotTakerDebit f.takerAccountIndex treasuryAccountIndex quoteAssetID takerFee)
    Txn.when (0 < makerFee)
      (spotMakerDebit f.makerAccountIndex treasuryAccountIndex quoteAssetID makerFee)

def applySpotMatching (f : SpotFill) (baseAssetID quoteAssetID : ℕ) : Tx Unit := do
  swapAssets f baseAssetID quoteAssetID
  chargeSpotFees f quoteAssetID

/-! ### One pass -/

def isRecoverableMakerError (e : Err) : Bool :=
  e.sentinel = .makerRiskRegression || e.sentinel = .makerInsufficientBalance ||
    e.sentinel = .makerInvalidPosition || e.sentinel = .makerInsufficientCollateral

def isRecoverableTakerError (e : Err) : Bool :=
  e.sentinel = .takerRiskRegression || e.sentinel = .takerInsufficientBalance ||
    e.sentinel = .takerInvalidPosition || e.sentinel = .takerInsufficientCollateral

/-- What the search for the next maker found, or why it stopped. -/
inductive MakerSearch where
  | found (maker : OrderBookEntry)
  | emptyBook
  | unreachable
  | selfTrade
  | reduceOnly
deriving DecidableEq, Repr

/-- A position that an order on the given side reduces. -/
def reducedBy (pos : AccountPosition) (isAsk : Bool) : Bool :=
  pos.baseSize ≠ 0 && (if isAsk then pos.openingIsBid else pos.openingIsAsk)

/-- The taker's price allows a trade with the maker; market orders have no price. -/
def priceAllows (taker : Order) (maker : OrderBookEntry) : Bool :=
  taker.orderType = .marketOrder || reaches taker.isAsk taker.price maker.price

/-- The maker is reduce-only and its owner no longer holds a position it would reduce. -/
def mustEvict (s : State) (taker : Order) (isPerp : Bool) (maker : OrderBookEntry) : Bool :=
  isPerp && maker.reduceOnly &&
    !reducedBy (getPosition s maker.ownerAccountIndex taker.marketIndex) (!taker.isAsk)

def nextMaker (taker : Order) (isPerp : Bool) : ℕ → Tx MakerSearch
  | 0 => throw ⟨.outOfFuel, ""⟩
  | fuel + 1 => do
    let s ← Txn.read fun s => .ok s
    match peekBest taker.marketIndex (!taker.isAsk) s with
    | none => return .emptyBook
    | some best =>
      if priceAllows taker best = false then return .unreachable
      else if best.ownerAccountIndex = taker.ownerAccountIndex then return .selfTrade
      else if 0 < best.expiry ∧ best.expiry ≤ s.now then do
        let _ ← evictMakerOrder best.orderIndex .cancelled
        nextMaker taker isPerp fuel
      else if isPerp = true ∧ taker.reduceOnly = true ∧
          reducedBy (getPosition s taker.ownerAccountIndex taker.marketIndex) taker.isAsk = false then
        return .reduceOnly
      else if mustEvict s taker isPerp best then do
        let _ ← evictMakerOrder best.orderIndex .cancelled
        nextMaker taker isPerp fuel
      else return .found best

/-- The size capped by the position of a reduce-only side; `none` if there is no position. -/
def capReduceOnly (applies : Bool) (account market base : ℕ) : Tx (Option ℕ) :=
  if applies then do
    let pos ← Txn.read fun s => .ok (getPosition s account market)
    let limit ← uint64Of |pos.baseSize|
    return if limit = 0 then none else some (min base limit)
  else return some base

def matchSize (taker : Order) (maker : OrderBookEntry) (isPerp : Bool) : Tx (Option ℕ) := do
  let base := min taker.remainingBaseAmount maker.remainingBaseAmount
  let capped ← capReduceOnly (isPerp && taker.reduceOnly) taker.ownerAccountIndex
    taker.marketIndex base
  match capped with
  | none => return none
  | some base => do
    let capped ← capReduceOnly (isPerp && maker.reduceOnly && decide (0 < base))
      maker.ownerAccountIndex taker.marketIndex base
    return capped.filter fun base => decide (base ≠ 0)

/-- What became of one attempted fill. -/
inductive FillOutcome where
  | committed
  | makerEvicted
  | takerRejected
deriving DecidableEq, Repr

/-- A maker at fault is evicted, a taker at fault stops the loop, anything else is an error. -/
def classifyApplyError (makerOrderIdx : ℕ) (e : Err) : Tx FillOutcome :=
  if isRecoverableMakerError e then do
    let _ ← evictMakerOrder makerOrderIdx .cancelled
    return .makerEvicted
  else if isRecoverableTakerError e then return .takerRejected
  else throw e

/-- Trade and shrink the maker's order on a cached context; a failure is classified. -/
def applyFill (maker : OrderBookEntry) (base : ℕ) (trade : Tx Unit) : Tx FillOutcome := do
  let done ← logged (Txn.atomic do
    trade
    let _ ← fillMakerOrder maker.orderIndex base)
  match done with
  | .ok _ => return .committed
  | .error e => classifyApplyError maker.orderIndex e

def applyPerpFill (maker : OrderBookEntry) (fill : Fill) : Tx FillOutcome :=
  applyFill maker fill.baseAmount (applyPerpsMatching fill)

def applySpotFill (maker : OrderBookEntry) (fill : SpotFill) (baseAssetID quoteAssetID : ℕ) :
    Tx FillOutcome :=
  applyFill maker fill.baseAmount (applySpotMatching fill baseAssetID quoteAssetID)

/-! ### The loop -/

/-- Why the loop ended. -/
inductive SweepEnd where
  | drained
  | fillCap
  | emptyBook
  | unreachable
  | selfTrade
  | reduceOnly
  | sizeZero
  | takerRejected
  | recovered
deriving DecidableEq, Repr

structure SweepResult where
  taker : Order
  totalFilled : ℕ := 0
  ended : SweepEnd
deriving DecidableEq, Repr

def entryCount (s : State) : ℕ := s.book.orderBookEntries.entries.length

/-- `attempt` tries a fill and `goOn` decides after it whether the loop continues.  The first number
bounds the passes, the last one the fills. -/
def sweep (isPerp : Bool) (attempt : Order → OrderBookEntry → ℕ → Tx FillOutcome)
    (goOn : Tx Bool) : ℕ → Order → ℕ → ℕ → Tx SweepResult
  | 0, _, _, _ => throw ⟨.outOfFuel, ""⟩
  | fuel + 1, taker, totalFilled, fillsLeft =>
    let stop : SweepEnd → Tx SweepResult := fun ended => return ⟨taker, totalFilled, ended⟩
    if taker.remainingBaseAmount = 0 then stop .drained
    else if fillsLeft = 0 then stop .fillCap
    else do
      let bound ← Txn.read fun s => .ok (entryCount s)
      let search ← nextMaker taker isPerp (bound + 1)
      match search with
      | .emptyBook => stop .emptyBook
      | .unreachable => stop .unreachable
      | .selfTrade => stop .selfTrade
      | .reduceOnly => stop .reduceOnly
      | .found maker => do
        let size ← matchSize taker maker isPerp
        match size with
        | none => stop .sizeZero
        | some base => do
          let outcome ← attempt taker maker base
          match outcome with
          | .takerRejected => stop .takerRejected
          | .makerEvicted => sweep isPerp attempt goOn fuel taker totalFilled fillsLeft
          | .committed => do
            let taker := { taker with remainingBaseAmount := taker.remainingBaseAmount - base }
            let more ← goOn
            if more then sweep isPerp attempt goOn fuel taker (totalFilled + base) (fillsLeft - 1)
            else return ⟨taker, totalFilled + base, .recovered⟩

/-- The loop with enough passes for the book as it stands. -/
def runSweep (isPerp : Bool) (attempt : Order → OrderBookEntry → ℕ → Tx FillOutcome)
    (goOn : Tx Bool) (taker : Order) (maxFills : ℕ) : Tx SweepResult := do
  let bound ← Txn.read fun s => .ok (entryCount s)
  sweep isPerp attempt goOn (maxFills + bound + 1) taker 0 maxFills

/-! ### Orders of users -/

def userPerpFill (market : Market) (taker : Order) (maker : OrderBookEntry) (base : ℕ) : Fill where
  makerAccountIndex := maker.ownerAccountIndex
  takerAccountIndex := taker.ownerAccountIndex
  marketIndex := taker.marketIndex
  price := maker.price
  baseAmount := base
  isTakerAsk := taker.isAsk
  takerFee := market.takerFee
  makerFee := market.makerFee

def userSpotFill (market : Market) (taker : Order) (maker : OrderBookEntry) (base : ℕ) :
    SpotFill where
  makerAccountIndex := maker.ownerAccountIndex
  takerAccountIndex := taker.ownerAccountIndex
  marketIndex := taker.marketIndex
  price := maker.price
  baseAmount := base
  isTakerAsk := taker.isAsk
  takerFee := market.takerFee
  makerFee := market.makerFee

def applyUserFill (market : Market) (taker : Order) (maker : OrderBookEntry) (base : ℕ) :
    Tx FillOutcome :=
  if market.marketType = .perps then applyPerpFill maker (userPerpFill market taker maker base)
  else applySpotFill maker (userSpotFill market taker maker base) market.baseAssetId
    market.quoteAssetId

/-- The status a swept order has before its time in force is looked at. -/
def SweepResult.status (r : SweepResult) : OrderStatus :=
  if r.ended = .takerRejected then .cancelled
  else if r.taker.remainingBaseAmount = 0 then .filled
  else if 0 < r.totalFilled then .partiallyFilled
  else .opened

def matchOrder (taker : Order) (maxFills : ℕ) : Tx SweepResult := do
  let market ← Txn.read (getMarket taker.marketIndex)
  runSweep (decide (market.marketType = .perps)) (applyUserFill market) (pure true) taker maxFills

/-! ### Liquidation orders -/

/-- The victim is still in one of the classes in which it is liquidated. -/
def needsLiquidation (victim marketIdx : ℕ) : Query Bool := fun s => do
  let pos := getPosition s victim marketIdx
  let h ← (if pos.marginMode = .isolated then getIsolatedHealthStatus victim marketIdx s
    else getHealthStatus victim s)
  return h = .partialLiquidation || h = .fullLiquidation || h = .bankruptcy

def liquidationFill (taker : Order) (maker : OrderBookEntry)
    (base zeroPrice liquidationFeeBps liquidationFeeRecipient : ℕ) : Fill where
  makerAccountIndex := maker.ownerAccountIndex
  takerAccountIndex := taker.ownerAccountIndex
  marketIndex := taker.marketIndex
  price := maker.price
  baseAmount := base
  isTakerAsk := taker.isAsk
  zeroPrice := zeroPrice
  liquidationFeeBps := liquidationFeeBps
  liquidationFeeRecipient := liquidationFeeRecipient

def applyLiquidationFill (zeroPrice liquidationFeeBps liquidationFeeRecipient : ℕ) (taker : Order)
    (maker : OrderBookEntry) (base : ℕ) : Tx FillOutcome :=
  applyPerpFill maker
    (liquidationFill taker maker base zeroPrice liquidationFeeBps liquidationFeeRecipient)

def matchLiquidation (taker : Order) (maxFills zeroPrice liquidationFeeBps
    liquidationFeeRecipient : ℕ) : Tx ℕ := do
  let market ← Txn.read (getMarket taker.marketIndex)
  Txn.require (market.marketType = .perps)
    ⟨.matchingInvalidOrder, "liquidation order requires perps market (got type=1)"⟩
  let r ← runSweep true
    (applyLiquidationFill zeroPrice liquidationFeeBps liquidationFeeRecipient)
    (Txn.read (needsLiquidation taker.ownerAccountIndex taker.marketIndex)) taker maxFills
  return r.totalFilled

/-- The order by which a victim is liquidated; it lives in memory only. -/
def liquidationOrder (victim marketIdx : ℕ) (isAsk : Bool) (zeroPrice baseAmount : ℕ) : Order where
  orderIndex := 0
  ownerAccountIndex := victim
  marketIndex := marketIdx
  isAsk := isAsk
  orderType := .liquidationOrder
  timeInForce := .ioc
  reduceOnly := true
  price := zeroPrice
  nonce := 0
  initialBaseAmount := baseAmount
  remainingBaseAmount := baseAmount

def matchLiquidationOrder (victim marketIdx zeroPrice baseAmount liquidationFeeBps
    liquidationFeeRecipient : ℕ) : Tx ℕ := do
  Txn.require (baseAmount ≠ 0) ⟨.matchingInvalidOrder, "liquidation base_amount must be > 0"⟩
  Txn.require (zeroPrice ≠ 0) ⟨.matchingInvalidOrder, "liquidation zero price must be > 0"⟩
  let pos ← Txn.read fun s => .ok (getPosition s victim marketIdx)
  Txn.require (pos.baseSize ≠ 0)
    ⟨.matchingInvalidOrder, s!"victim={victim} has no position in market={marketIdx}"⟩
  let abs ← uint64Of |pos.baseSize|
  let params ← Txn.read fun s => .ok s.matchingParams
  let maxFills := if params.maxFillsPerMsg = 0 then 64 else params.maxFillsPerMsg
  matchLiquidation
    (liquidationOrder victim marketIdx pos.openingIsBid zeroPrice (min baseAmount abs))
    maxFills zeroPrice liquidationFeeBps liquidationFeeRecipient

end PerpDex
