/-
The data of the exchange: constants, enumerations, stored records and the chain state.

Fields keep the names of the source records; a field that no modelled function reads is left out.
Unsigned integers are `ℕ`, `math.Int` and the signed machine integers are `ℤ`; where a 64-bit result can
wrap, the function that computes it says so.
-/
import Mathlib.Data.String.Basic
import PerpDex.KVStore
import PerpDex.Txn

namespace PerpDex

/-! ### Constants -/

def fundingRateTick : ℤ := 1000000
def usdcToCollateralMultiplier : ℤ := 1000000
def feeTick : ℤ := 1000000
def marginTick : ℕ := 10000
def shareTick : ℤ := 10000

def maxMasterAccountIndex : ℕ := 140737488355327
def minSubAccountIndex : ℕ := 140737488355328
def maxAccountIndex : ℕ := 281474976710654
def nilMasterAccountIndex : ℕ := 0
def treasuryAccountIndex : ℕ := 0
def insuranceFundOperatorAccountIdx : ℕ := 1
def firstUserMasterAccountIndex : ℕ := 2

def usdcAssetIndex : ℕ := 3
def nilAssetIndex : ℕ := 0

def maxPerpsMarketIndex : ℕ := 254
def minSpotMarketIndex : ℕ := 2048
def maxSpotMarketIndex : ℕ := 4094
def nilMarketIndex : ℕ := 255

def maxOrderPrice : ℕ := 4294967295
def maxOrderBaseAmount : ℕ := 281474976710655
def maxOrderQuoteAmount : ℕ := 281474976710655
def maxClientOrderIndex : ℕ := 281474976710655
def firstAskNonce : ℤ := 1
def firstBidNonce : ℤ := 281474976710655

def maxPositionSize : ℤ := 2 ^ 56 - 1
def maxEntryQuote : ℤ := 2 ^ 56 - 1

def sharesListSize : ℕ := 16
def nbStrategies : ℕ := 8
def initialPoolShareValue : ℤ := 1000

def maxUint32 : ℕ := 2 ^ 32 - 1
def maxUint64 : ℕ := 2 ^ 64 - 1
def maxInt64 : ℤ := 2 ^ 63 - 1
def minInt64 : ℤ := -2 ^ 63

/-! ### Enumerations -/

inductive AccountType where
  | master
  | sub
  | publicPool
  | insuranceFund
deriving DecidableEq, Repr

inductive PublicPoolStatus where
  | active
  | frozen
deriving DecidableEq, Repr

inductive MarketType where
  | perps
  | spot
deriving DecidableEq, Repr

inductive MarketStatus where
  | expired
  | active
deriving DecidableEq, Repr

inductive RouteType where
  | perps
  | spot
deriving DecidableEq, Repr

inductive MarginMode where
  | cross
  | isolated
deriving DecidableEq, Repr

inductive MarginAction where
  | removeMargin
  | addMargin
deriving DecidableEq, Repr

inductive OrderType where
  | limitOrder
  | marketOrder
  | stopLossOrder
  | stopLossLimitOrder
  | takeProfitOrder
  | takeProfitLimitOrder
  | twapOrder
  | twapSubOrder
  | liquidationOrder
deriving DecidableEq, Repr

inductive TimeInForce where
  | ioc
  | gtt
  | postOnly
deriving DecidableEq, Repr

inductive OrderStatus where
  | opened
  | partiallyFilled
  | filled
  | cancelled
  | triggeredPending
deriving DecidableEq, Repr

/-- Health classes, from best to worst; the source numbers them 0 to 4. -/
inductive Health where
  | healthy
  | preLiquidation
  | partialLiquidation
  | fullLiquidation
  | bankruptcy
deriving DecidableEq, Repr

def Health.rank : Health → ℕ
  | healthy => 0
  | preLiquidation => 1
  | partialLiquidation => 2
  | fullLiquidation => 3
  | bankruptcy => 4

/-! ### Errors -/

/-- Registered errors.  `goPanic` stands for a run-time panic and `outOfFuel` for a loop of the model
that was cut off; neither is a value the code returns. -/
inductive Sentinel where
  | invalidAuthority
  | accountNotFound
  | accountExists
  | unauthorized
  | insufficientFunds
  | invalidRoute
  | assetDisabled
  | assetNotMargin
  | amountTooSmall
  | invalidAccountType
  | invalidMarginAction
  | positionNotIsolated
  | positionNotEmpty
  | accountIndexExceed
  | riskRegression
  | poolFrozen
  | poolNotActive
  | cooldownNotElapsed
  | operatorRateViolation
  | sharesListFull
  | insufficientShares
  | invalidPoolAccount
  | poolGenericMsg
  | invalidMarginMode
  | invalidDepositorIndex
  | notInsuranceFund
  | invalidStrategyIdx
  | poolMustBeEmpty
  | invalidPoolUpdate
  | accountInvalidParams
  | assetNotFound
  | assetExists
  | invalidAssetParams
  | marketInvalidAuthority
  | marketNotFound
  | marketExists
  | marketIndexExceed
  | marketNotActive
  | invalidMarket
  | marketInvalidParams
  | invalidMarginChain
  | nonceExhausted
  | openInterestLimit
  | zeroMarkPrice
  | staleMarkPrice
  | missingPrice
  | priceNotFound
  | stalePrice
  | fundingInvalidParams
  | positionOutOfBounds
  | makerRiskRegression
  | makerInsufficientBalance
  | takerRiskRegression
  | takerInsufficientBalance
  | makerInvalidPosition
  | takerInvalidPosition
  | makerInsufficientCollateral
  | takerInsufficientCollateral
  | invalidTransferAmount
  | notLiquidatable
  | notBankrupt
  | liquidationInvalidParams
  | invalidADLCounterparty
  | insufficientCollateral
  | invariantViolation
  | orderNotFound
  | orderbookInvariantViolated
  | quoteOverflow
  | priceLevelOverflow
  | orderNotCancelable
  | collectionNotFound
  | matchingInvalidOrder
  | matchingUnauthorized
  | postOnlyCross
  | matchingOrderNotFound
  | poolCannotPlaceOrder
  | duplicateClientOrder
  | matchingOrderNotCancelable
  | unimplemented
  | quoteLimitExceeded
  | accountUnderLiquidation
  | tooManyOpenOrders
  | tooManyCancels
  | reduceOnlyViolated
  | matchingInvalidParams
  | bankInsufficientFunds
  | invalidAddress
  | goPanic
  | outOfFuel
deriving DecidableEq, Repr

/-- A returned error: the registered error it wraps and the wrapping text. -/
structure Err where
  sentinel : Sentinel
  detail : String := ""
deriving DecidableEq, Repr

/-- Errors a caller can observe as a value; a panic unwinds through every caller. -/
def Err.isValue (e : Err) : Bool := e.sentinel ≠ .goPanic && e.sentinel ≠ .outOfFuel

/-! ### Rows of x/account -/

structure PublicPoolShare where
  publicPoolIndex : ℕ
  shareAmount : ℤ
  principalAmount : ℤ
  entryTimestamp : ℤ
deriving DecidableEq, Repr

structure PublicPoolInfo where
  status : PublicPoolStatus := .active
  operatorFee : ℕ := 0
  minOperatorShareRate : ℕ := 0
  totalShares : ℤ := 0
  operatorShares : ℤ := 0
  strategies : List ℤ := []
deriving DecidableEq, Repr

structure Account where
  accountIndex : ℕ
  masterAccountIndex : ℕ := 0
  ownerAddress : String := ""
  accountType : AccountType := .master
  collateral : ℤ := 0
  totalOrderCount : ℤ := 0
  publicPoolShares : List PublicPoolShare := []
  publicPoolInfo : Option PublicPoolInfo := none
deriving DecidableEq, Repr

structure AccountAsset where
  accountIndex : ℕ
  assetIndex : ℕ
  balance : ℤ := 0
  lockedBalance : ℤ := 0
deriving DecidableEq, Repr

structure AccountPosition where
  accountIndex : ℕ
  marketIndex : ℕ
  baseSize : ℤ := 0
  entryQuote : ℤ := 0
  lastFundingRatePrefixSum : ℤ := 0
  initialMarginFraction : ℕ := 0
  marginMode : MarginMode := .cross
  allocatedMargin : ℤ := 0
deriving DecidableEq, Repr

def AccountAsset.key (a : AccountAsset) : ℕ ×ₗ ℕ := toLex (a.accountIndex, a.assetIndex)

def AccountPosition.key (p : AccountPosition) : ℕ ×ₗ ℕ := toLex (p.accountIndex, p.marketIndex)

structure AccountParams where
  minPartialTransferAmount : ℕ := 10000000
  minPartialWithdrawAmount : ℕ := 10000000
  liquidityPoolIndex : ℕ := 1
  liquidityPoolCooldownPeriodMs : ℤ := 604800000
deriving DecidableEq, Repr

/-! ### Rows of x/asset and x/market -/

structure Asset where
  assetIndex : ℕ
  denom : String
  extensionMultiplier : ℕ
  minTransferAmount : ℕ := 0
  minWithdrawalAmount : ℕ := 0
  marginEnabled : Bool := false
  enabled : Bool := true
  /-- Genesis and registration both refuse a zero multiplier. -/
  extensionMultiplier_pos : 0 < extensionMultiplier

structure Market where
  marketIndex : ℕ
  status : MarketStatus := .active
  marketType : MarketType := .perps
  baseAssetId : ℕ := 0
  quoteAssetId : ℕ := 0
  takerFee : ℕ := 0
  makerFee : ℕ := 0
  liquidationFee : ℕ := 0
  sizeExtensionMultiplier : ℤ := 0
  quoteExtensionMultiplier : ℤ := 0
  minBaseAmount : ℕ := 0
  minQuoteAmount : ℕ := 0
  orderQuoteLimit : ℤ := 0
  expiryTimestamp : ℤ := 0
  maxOpenOrdersPerAccount : ℕ := 0
deriving DecidableEq, Repr

structure MarketDetails where
  marketIndex : ℕ
  defaultInitialMarginFraction : ℕ := 0
  minInitialMarginFraction : ℕ := 0
  maintenanceMarginFraction : ℕ := 0
  closeOutMarginFraction : ℕ := 0
  fundingRatePrefixSum : ℤ := 0
  openInterest : ℤ := 0
  markPrice : ℕ := 0
  openInterestLimit : ℕ := 0
  askNonce : ℤ := firstAskNonce
  bidNonce : ℤ := firstBidNonce
  lastMarkPriceRefreshTimestamp : ℤ := 0
  markPremiumEma : ℤ := 0
  interestRate : ℕ := 0
  fundingClampSmall : ℕ := 0
  fundingClampBig : ℕ := 0
  aggregatePremiumSum : ℤ := 0
  totalPremiumSamples : ℕ := 0
  lastPremiumSampleTimestamp : ℤ := 0
  indexPrice : ℕ := 0
  impactBidPrice : ℕ := 0
  impactAskPrice : ℕ := 0
  impactPrice : ℕ := 0
  totalOrderCount : ℤ := 0
  quoteMultiplier : ℕ := 0
deriving DecidableEq, Repr

structure FundingParams where
  fundingPeriodMs : ℤ := 3600000
  fundingPeriodDivisor : ℤ := 8
  maxPremiumSampleCount : ℕ := 60
deriving DecidableEq, Repr

structure MarketParams where
  maxPerpsMarketIndex : ℕ := PerpDex.maxPerpsMarketIndex
  minSpotMarketIndex : ℕ := PerpDex.minSpotMarketIndex
  maxSpotMarketIndex : ℕ := PerpDex.maxSpotMarketIndex
  maxMarketsExpiredPerBlock : ℕ := 0
  maxMarkPriceStalenessMs : ℤ := 0
deriving DecidableEq, Repr

/-! ### Rows of x/orderbook -/

structure Order where
  orderIndex : ℕ
  clientOrderIndex : ℕ := 0
  ownerAccountIndex : ℕ
  marketIndex : ℕ
  isAsk : Bool
  orderType : OrderType := .limitOrder
  timeInForce : TimeInForce := .gtt
  reduceOnly : Bool := false
  price : ℕ
  nonce : ℤ
  initialBaseAmount : ℕ
  remainingBaseAmount : ℕ
  triggerPrice : ℕ := 0
  expiry : ℤ := 0
  status : OrderStatus := .opened
deriving DecidableEq, Repr

structure OrderBookEntry where
  orderIndex : ℕ
  ownerAccountIndex : ℕ
  price : ℕ
  nonce : ℤ
  remainingBaseAmount : ℕ
  expiry : ℤ
  reduceOnly : Bool
  orderType : OrderType
deriving DecidableEq, Repr

structure PriceLevelAggregate where
  marketIndex : ℕ
  price : ℕ
  askBaseSum : ℕ := 0
  askQuoteSum : ℕ := 0
  bidBaseSum : ℕ := 0
  bidQuoteSum : ℕ := 0
  askCount : ℕ := 0
  bidCount : ℕ := 0
deriving DecidableEq, Repr

def PriceLevelAggregate.key (p : PriceLevelAggregate) : ℕ ×ₗ ℕ := toLex (p.marketIndex, p.price)

/-- Side, price word and nonce word of a book key.  The source writes the three in big-endian bytes, so
its byte order is the lexicographic one. -/
abbrev SortKey : Type := ℕ ×ₗ ℕ ×ₗ ℕ

/-! ### The chain state -/

structure AccountStore where
  accounts : Table Account.accountIndex := Table.empty
  accountPositions : Table AccountPosition.key := Table.empty
  accountAssets : Table AccountAsset.key := Table.empty
  ownerToIndex : KVStore String ℕ := KVStore.empty
  nextMasterIndex : ℕ := 2
  nextSubIndex : ℕ := minSubAccountIndex
  params : AccountParams := {}

structure MarketStore where
  markets : Table Market.marketIndex := Table.empty
  marketDetails : Table MarketDetails.marketIndex := Table.empty
  expiryIndex : KVStore (ℤ ×ₗ ℕ) Unit := KVStore.empty
  params : MarketParams := {}

structure BookStore where
  orders : Table Order.orderIndex := Table.empty
  nextOrderIndex : ℕ := 1
  orderBookEntries : KVStore (ℕ ×ₗ SortKey) OrderBookEntry := KVStore.empty
  orderToSortKey : KVStore (ℕ ×ₗ ℕ) SortKey := KVStore.empty
  priceLevels : Table PriceLevelAggregate.key := Table.empty
  userOrderIndex : KVStore (ℕ ×ₗ ℕ ×ₗ ℕ) ℕ := KVStore.empty
  triggerIndex : KVStore (ℕ ×ₗ ℕ ×ₗ ℕ) Unit := KVStore.empty
  accountOpenOrders : KVStore (ℕ ×ₗ ℕ ×ₗ ℕ) Unit := KVStore.empty
  accountOpenOrderCount : KVStore (ℕ ×ₗ ℕ) ℕ := KVStore.empty
  expiryIndex : KVStore (ℤ ×ₗ ℕ) Unit := KVStore.empty

structure LiquidationParams where
  maxAdlAttemptsPerBlock : ℕ := 0
  maxAdlCandidatesPerVictim : ℕ := 0
deriving DecidableEq, Repr

structure MatchingParams where
  maxFillsPerMsg : ℕ := 100
  maxCancelsPerMsg : ℕ := 200
deriving DecidableEq, Repr

/-- The chain state and the time of the block.  `bank` is the ledger of the bank module, by address and
denomination. -/
structure State where
  now : ℤ := 0
  account : AccountStore := {}
  assets : Table Asset.assetIndex := Table.empty
  bank : KVStore (String ×ₗ String) ℕ := KVStore.empty
  market : MarketStore := {}
  book : BookStore := {}
  liquidationParams : LiquidationParams := {}
  matchingParams : MatchingParams := {}
  fundingParams : FundingParams := {}
  lastFundingRoundTimestamp : ℤ := 0

/-- A handler or hook: it reads and writes the chain state and may return an error. -/
abbrev Tx (α : Type) : Type := Txn Err State α

abbrev Query (α : Type) : Type := State → Except Err α

/-- Run `x` and go on with its error as a value, as a caller that logs it does. -/
def logged {α : Type} (x : Tx α) : Tx (Except Err α) := Txn.attempt Err.isValue x

/-- An integer as an unsigned machine word; one that does not fit panics. -/
def uint64Of (x : ℤ) : Tx ℕ := do
  Txn.require (0 ≤ x ∧ x ≤ maxUint64) ⟨.goPanic, "Uint64() out of bounds"⟩
  return x.toNat

end PerpDex
