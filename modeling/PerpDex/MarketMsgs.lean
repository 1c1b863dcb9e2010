/-
Messages and genesis of the market module (`x/market/keeper/msg_server.go`, `x/market/types/msgs.go`,
`x/market/types/genesis.go`).

The keeper's `updateMarket`, `expireMarket` and the sweep of the end blocker are in `Liquidation.lean`,
beside the exit of positions they call.  The time a market was created at is left out.
-/
import PerpDex.Liquidation
import PerpDex.AccountMsgs

namespace PerpDex

/-! ### Stateless checks -/

/-- Fails with `e` unless the condition holds. -/
def ensure (c : Prop) [Decidable c] (e : Err) : Except Err Unit := if c then .ok () else .error e

@[simp] theorem ensure_ok {c : Prop} [Decidable c] {e : Err} {u : Unit} :
    ensure c e = .ok u ↔ c := by
  unfold ensure
  split <;> simp [*]

namespace MarketParams

def isPerpsIndex (p : MarketParams) (idx : ℕ) : Bool :=
  decide (idx ≤ p.maxPerpsMarketIndex) && decide (idx ≠ nilMarketIndex)

def isSpotIndex (p : MarketParams) (idx : ℕ) : Bool :=
  decide (p.minSpotMarketIndex ≤ idx) && decide (idx ≤ p.maxSpotMarketIndex)

def isValidIndex (p : MarketParams) (idx : ℕ) : Bool := p.isPerpsIndex idx || p.isSpotIndex idx

def validate (p : MarketParams) : Except Err Unit := do
  let perps := p.maxPerpsMarketIndex
  let staleness := p.maxMarkPriceStalenessMs
  ensure (¬ (p.minSpotMarketIndex = 0 ∨ p.maxSpotMarketIndex = 0))
    ⟨.marketInvalidParams, "spot index range must be > 0"⟩
  ensure (¬ p.minSpotMarketIndex ≤ p.maxPerpsMarketIndex)
    ⟨.marketInvalidParams, "perps index range overlaps spot range"⟩
  ensure (¬ p.maxSpotMarketIndex < p.minSpotMarketIndex)
    ⟨.marketInvalidParams, "min_spot_market_index > max_spot_market_index"⟩
  ensure (¬ nilMarketIndex ≤ p.maxPerpsMarketIndex)
    ⟨.marketInvalidParams, s!"max_perps_market_index={perps} must be < NilMarketIndex={nilMarketIndex}"⟩
  ensure (¬ p.maxMarkPriceStalenessMs < 0)
    ⟨.marketInvalidParams, s!"max_mark_price_staleness_ms={staleness} must be >= 0"⟩

end MarketParams

def validMarginChain (defaultImf minImf maintenanceMf closeOutMf : ℕ) : Bool :=
  !decide (defaultImf < minImf) && !decide (defaultImf ≤ maintenanceMf)
    && !decide (maintenanceMf ≤ closeOutMf)

def validateMarketIndexForType (idx : ℕ) (marketType : MarketType) : Except Err Unit := do
  ensure (idx ≠ nilMarketIndex) ⟨.marketIndexExceed, "market_index must not equal NilMarketIndex"⟩
  match marketType with
  | .perps => ensure (¬ maxPerpsMarketIndex < idx) ⟨.marketIndexExceed, ""⟩
  | .spot =>
    ensure (¬ (idx < minSpotMarketIndex ∨ maxSpotMarketIndex < idx)) ⟨.marketIndexExceed, ""⟩

/-- A fee rate is below the tick. -/
def checkFee (field : String) (fee : ℕ) : Except Err Unit :=
  ensure (¬ feeTick ≤ fee) ⟨.marketInvalidParams, s!"{field}={fee} >= FeeTick={feeTick}"⟩

/-- An amount or multiplier is positive. -/
def checkPositive (field : String) (amount : ℤ) : Except Err Unit :=
  ensure (0 < amount) ⟨.marketInvalidParams, s!"{field} must be > 0"⟩

/-- An expiry is zero or a time. -/
def checkExpiry (field : String) (expiry : ℤ) : Except Err Unit :=
  ensure (¬ expiry < 0) ⟨.invalidMarket, s!"{field} must be >= 0"⟩

def validateMarketStatics (m : Market) : Except Err Unit := do
  validateMarketIndexForType m.marketIndex m.marketType
  ensure (m.quoteAssetId ≠ nilAssetIndex) ⟨.invalidMarket, "quote_asset_id must be set"⟩
  ensure (¬ (m.marketType = .spot ∧ m.baseAssetId = nilAssetIndex))
    ⟨.invalidMarket, "spot market base_asset_id must be set"⟩
  ensure (¬ (m.marketType = .spot ∧ m.baseAssetId = m.quoteAssetId))
    ⟨.invalidMarket, "spot market base_asset_id must differ from quote_asset_id"⟩
  checkFee "taker_fee" m.takerFee
  checkFee "maker_fee" m.makerFee
  checkFee "liquidation_fee" m.liquidationFee
  checkPositive "min_base_amount" m.minBaseAmount
  checkPositive "min_quote_amount" m.minQuoteAmount
  ensure (¬ m.orderQuoteLimit < 0) ⟨.marketInvalidParams, "order_quote_limit must be >= 0"⟩
  checkPositive "size_extension_multiplier" m.sizeExtensionMultiplier
  checkPositive "quote_extension_multiplier" m.quoteExtensionMultiplier
  checkExpiry "expiry_timestamp" m.expiryTimestamp

def validateMarketDetailsStatics (d : MarketDetails) : Except Err Unit := do
  let rate := d.interestRate
  ensure (d.minInitialMarginFraction ≠ 0) ⟨.marketInvalidParams, "min_imf must be > 0"⟩
  ensure (¬ (marginTick < d.defaultInitialMarginFraction ∨ marginTick < d.minInitialMarginFraction ∨
      marginTick < d.maintenanceMarginFraction ∨ marginTick < d.closeOutMarginFraction))
    ⟨.marketInvalidParams, s!"margin fraction above MarginTick={marginTick}"⟩
  ensure (validMarginChain d.defaultInitialMarginFraction d.minInitialMarginFraction
      d.maintenanceMarginFraction d.closeOutMarginFraction = true) ⟨.invalidMarginChain, ""⟩
  ensure (¬ d.fundingClampBig < d.fundingClampSmall)
    ⟨.marketInvalidParams, "funding_clamp_small must be <= funding_clamp_big"⟩
  ensure (¬ fundingRateTick < d.interestRate)
    ⟨.marketInvalidParams, s!"interest_rate={rate} above FundingRateTick={fundingRateTick}"⟩

/-- A runtime field starts at zero. -/
def checkUnset (field : String) (value : ℤ) : Except Err Unit :=
  ensure (value = 0) ⟨.marketInvalidParams, s!"{field} must be 0 at creation"⟩

def validateMarketDetailsInit (d : MarketDetails) : Except Err Unit := do
  let ask := d.askNonce
  let bid := d.bidNonce
  ensure (d.askNonce = firstAskNonce)
    ⟨.nonceExhausted, s!"ask_nonce={ask} must equal FirstAskNonce={firstAskNonce} at creation"⟩
  ensure (d.bidNonce = firstBidNonce)
    ⟨.nonceExhausted, s!"bid_nonce={bid} must equal FirstBidNonce={firstBidNonce} at creation"⟩
  checkUnset "open_interest" d.openInterest
  checkUnset "aggregate_premium_sum" d.aggregatePremiumSum
  checkUnset "total_order_count" d.totalOrderCount
  checkUnset "total_premium_samples" d.totalPremiumSamples
  checkUnset "last_premium_sample_timestamp" d.lastPremiumSampleTimestamp
  ensure (d.markPrice = 0 ∧ d.indexPrice = 0 ∧ d.impactBidPrice = 0 ∧ d.impactAskPrice = 0 ∧
      d.impactPrice = 0) ⟨.marketInvalidParams, "mark/index/impact prices must be 0 at creation"⟩
  checkUnset "funding_rate_prefix_sum" d.fundingRatePrefixSum

/-! ### Messages -/

structure MsgCreateMarket where
  authority : String
  market : Market
  marketDetails : MarketDetails

structure MsgUpdateMarket where
  authority : String
  marketIndex : ℕ
  newStatus : MarketStatus
  newTakerFee : ℕ
  newMakerFee : ℕ
  newLiquidationFee : ℕ
  newMinBaseAmount : ℕ
  newMinQuoteAmount : ℕ
  newOrderQuoteLimit : ℤ
  newExpiryTimestamp : ℤ

structure MsgUpdateMarketDetails where
  authority : String
  marketIndex : ℕ
  newDefaultImf : ℕ
  newMinImf : ℕ
  newMaintenanceMf : ℕ
  newCloseOutMf : ℕ
  newFundingClampSmall : ℕ
  newFundingClampBig : ℕ
  newInterestRate : ℕ
  newOpenInterestLimit : ℕ

structure MsgUpdateMarketParams where
  authority : String
  params : MarketParams

section Handlers

variable [AddressCodec]

def validAuth (addr : String) : Except Err Unit :=
  ensure (AddressCodec.valid addr = true) ⟨.invalidAddress, ""⟩

def MsgCreateMarket.validateBasic (msg : MsgCreateMarket) : Except Err Unit := do
  validAuth msg.authority
  ensure (msg.market.marketIndex = msg.marketDetails.marketIndex)
    ⟨.invalidMarket, "market and details index mismatch"⟩
  ensure (msg.market.status = .active) ⟨.invalidMarket, "status=0 must be ACTIVE at creation"⟩
  validateMarketStatics msg.market
  validateMarketDetailsStatics msg.marketDetails
  validateMarketDetailsInit msg.marketDetails

def MsgUpdateMarket.validateBasic (msg : MsgUpdateMarket) : Except Err Unit := do
  validAuth msg.authority
  ensure (msg.marketIndex ≠ nilMarketIndex)
    ⟨.marketIndexExceed, "market_index must not equal NilMarketIndex"⟩
  checkFee "new_taker_fee" msg.newTakerFee
  checkFee "new_maker_fee" msg.newMakerFee
  checkFee "new_liquidation_fee" msg.newLiquidationFee
  checkPositive "new_min_base_amount" msg.newMinBaseAmount
  checkPositive "new_min_quote_amount" msg.newMinQuoteAmount
  ensure (¬ msg.newOrderQuoteLimit < 0)
    ⟨.marketInvalidParams, "new_order_quote_limit must be >= 0"⟩
  checkExpiry "new_expiry_timestamp" msg.newExpiryTimestamp
  ensure (¬ (msg.newStatus = .expired ∧ 0 < msg.newExpiryTimestamp))
    ⟨.invalidMarket, "new_status=EXPIRED is incompatible with a future new_expiry_timestamp"⟩

def MsgUpdateMarketDetails.validateBasic (msg : MsgUpdateMarketDetails) : Except Err Unit := do
  let limit := msg.newOpenInterestLimit
  validAuth msg.authority
  ensure (msg.marketIndex ≠ nilMarketIndex)
    ⟨.marketIndexExceed, "market_index must not equal NilMarketIndex"⟩
  validateMarketDetailsStatics {
    marketIndex := 0
    defaultInitialMarginFraction := msg.newDefaultImf
    minInitialMarginFraction := msg.newMinImf
    maintenanceMarginFraction := msg.newMaintenanceMf
    closeOutMarginFraction := msg.newCloseOutMf
    fundingClampSmall := msg.newFundingClampSmall
    fundingClampBig := msg.newFundingClampBig
    interestRate := msg.newInterestRate }
  ensure (¬ maxOrderBaseAmount < msg.newOpenInterestLimit) ⟨.marketInvalidParams,
    s!"new_open_interest_limit={limit} above MaxOrderBaseAmount={maxOrderBaseAmount}"⟩

def MsgUpdateMarketParams.validateBasic (msg : MsgUpdateMarketParams) : Except Err Unit := do
  validAuth msg.authority
  msg.params.validate

end Handlers

/-! ### Keeper -/

/-- Store a market; the caller has made sure that its index is free. -/
def createMarket (m : Market) : Tx Unit := do
  Txn.write fun s => { s with market := { s.market with markets := s.market.markets.put m } }
  Txn.when (m.isIndexed = true) do
    Txn.write fun s => { s with market := { s.market with
      expiryIndex := s.market.expiryIndex.set (toLex (m.expiryTimestamp, m.marketIndex)) () } }

/-- Close the positions of a market that has expired; a failed exit is logged. -/
def applyMarketExit (m : Market) : Tx Unit := do
  let _ ← logged (applyExitPosition m.marketIndex)

/-- The fields that trading and funding move, at their first values. -/
def resetRuntimeDetails (d : MarketDetails) : MarketDetails :=
  { d with
    markPrice := 0
    indexPrice := 0
    impactBidPrice := 0
    impactAskPrice := 0
    impactPrice := 0
    openInterest := 0
    aggregatePremiumSum := 0
    totalOrderCount := 0
    totalPremiumSamples := 0
    lastPremiumSampleTimestamp := 0
    fundingRatePrefixSum := 0
    quoteMultiplier := 0 }

/-! ### Handlers -/

namespace MarketServer

variable [AddressCodec]

omit [AddressCodec] in
/-- The index lies in the range the current parameters leave to the type. -/
def checkIndexRange (market : Market) : Tx Unit := do
  let params ← Txn.read fun s => .ok s.market.params
  let idx := market.marketIndex
  let perps := params.maxPerpsMarketIndex
  let low := params.minSpotMarketIndex
  let high := params.maxSpotMarketIndex
  match market.marketType with
  | .perps => Txn.require (params.isPerpsIndex idx = true) ⟨.marketIndexExceed,
      s!"market_index={idx} outside current perps Params range (0..{perps})"⟩
  | .spot => Txn.require (params.isSpotIndex idx = true) ⟨.marketIndexExceed,
      s!"market_index={idx} outside current spot Params range ({low}..{high})"⟩

omit [AddressCodec] in
def checkAssets (market : Market) : Tx Unit := do
  let quoteId := market.quoteAssetId
  let baseId := market.baseAssetId
  let quote ← Txn.read (getAsset market.quoteAssetId)
  Txn.require (quote.enabled = true) ⟨.invalidMarket, s!"quote_asset_id={quoteId} is disabled"⟩
  match market.marketType with
  | .perps => Txn.require (market.quoteAssetId = usdcAssetIndex) ⟨.invalidMarket,
      s!"perps market quote_asset_id={quoteId} must equal USDC={usdcAssetIndex}"⟩
  | .spot => do
    let base ← Txn.read (getAsset market.baseAssetId)
    Txn.require (base.enabled = true) ⟨.invalidMarket, s!"base_asset_id={baseId} is disabled"⟩

def createMarket (authority : String) (msg : MsgCreateMarket) : Tx Unit := do
  Txn.lift msg.validateBasic
  Txn.require (msg.authority = authority) ⟨.marketInvalidAuthority, ""⟩
  let taken ← Txn.read fun s => .ok (s.market.markets.get msg.market.marketIndex).isSome
  Txn.require (taken = false) ⟨.marketExists, ""⟩
  checkIndexRange msg.market
  checkAssets msg.market
  PerpDex.createMarket { msg.market with status := .active }
  setMarketDetails (resetRuntimeDetails msg.marketDetails)

omit [AddressCodec] in
def overlay (msg : MsgUpdateMarket) (market : Market) : Market :=
  { market with
    takerFee := msg.newTakerFee
    makerFee := msg.newMakerFee
    liquidationFee := msg.newLiquidationFee
    minBaseAmount := msg.newMinBaseAmount
    minQuoteAmount := msg.newMinQuoteAmount
    orderQuoteLimit := msg.newOrderQuoteLimit
    expiryTimestamp := msg.newExpiryTimestamp
    status := msg.newStatus }

def updateMarket (authority : String) (msg : MsgUpdateMarket) : Tx Unit := do
  Txn.lift msg.validateBasic
  Txn.require (msg.authority = authority) ⟨.marketInvalidAuthority, ""⟩
  let market ← Txn.read (getMarket msg.marketIndex)
  Txn.require (market.status ≠ .expired) ⟨.invalidMarket, "cannot update expired market"⟩
  let now ← Txn.read fun s => .ok s.now
  let expiry := msg.newExpiryTimestamp
  Txn.require (¬ (0 < expiry ∧ expiry ≤ now))
    ⟨.invalidMarket, s!"new_expiry_timestamp={expiry} must be > now={now}"⟩
  PerpDex.updateMarket market (overlay msg market)
  Txn.when (msg.newStatus = .expired) (applyMarketExit (overlay msg market))

def updateMarketDetails (authority : String) (msg : MsgUpdateMarketDetails) : Tx Unit := do
  Txn.lift msg.validateBasic
  Txn.require (msg.authority = authority) ⟨.marketInvalidAuthority, ""⟩
  let d ← Txn.read (getMarketDetails msg.marketIndex)
  setMarketDetails { d with
    defaultInitialMarginFraction := msg.newDefaultImf
    minInitialMarginFraction := msg.newMinImf
    maintenanceMarginFraction := msg.newMaintenanceMf
    closeOutMarginFraction := msg.newCloseOutMf
    fundingClampSmall := msg.newFundingClampSmall
    fundingClampBig := msg.newFundingClampBig
    interestRate := msg.newInterestRate
    openInterestLimit := msg.newOpenInterestLimit }

def updateParams (authority : String) (msg : MsgUpdateMarketParams) : Tx Unit := do
  Txn.lift msg.validateBasic
  Txn.require (msg.authority = authority) ⟨.marketInvalidAuthority, ""⟩
  Txn.write fun s => { s with market := { s.market with params := msg.params } }

end MarketServer

/-! ### Genesis -/

structure MarketGenesis where
  params : MarketParams := {}
  markets : List Market := []
  marketDetails : List MarketDetails := []

namespace MarketGenesis

/-- The markets one after the other; `seen` are the indexes before. -/
def validateMarkets (params : MarketParams) : List ℕ → List Market → Except Err Unit
  | _, [] => .ok ()
  | seen, m :: rest => do
    let idx := m.marketIndex
    ensure (idx ∉ seen) ⟨.marketExists, s!"duplicate market_index {idx}"⟩
    validateMarketStatics m
    ensure (params.isValidIndex idx = true)
      ⟨.marketIndexExceed, s!"market_index={idx} outside Params range"⟩
    validateMarkets params (idx :: seen) rest

/-- The details, each of a market of the list `markets`. -/
def validateDetails (markets : List ℕ) : List ℕ → List MarketDetails → Except Err Unit
  | _, [] => .ok ()
  | seen, d :: rest => do
    let idx := d.marketIndex
    ensure (idx ∉ seen)
      ⟨.invalidMarket, s!"duplicate market_details for market_index {idx}"⟩
    ensure (idx ∈ markets)
      ⟨.invalidMarket, s!"market_details references unknown market_index {idx}"⟩
    validateMarketDetailsStatics d
    validateDetails markets (idx :: seen) rest

def validate (gs : MarketGenesis) : Except Err Unit := do
  let indexes := gs.markets.map Market.marketIndex
  gs.params.validate
  validateMarkets gs.params [] gs.markets
  validateDetails indexes [] gs.marketDetails
  match indexes.find? fun idx => decide (idx ∉ gs.marketDetails.map MarketDetails.marketIndex) with
  | some idx =>
    .error ⟨.invalidMarket, s!"market_index {idx} has no matching market_details"⟩
  | none => .ok ()

def init (gs : MarketGenesis) : Tx Unit := do
  Txn.write fun s => { s with market := { s.market with params := gs.params } }
  gs.markets.forM createMarket
  gs.marketDetails.forM setMarketDetails

end MarketGenesis

end PerpDex
