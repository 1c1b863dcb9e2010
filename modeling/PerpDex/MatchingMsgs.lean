/-
Message handlers and block hook of `x/matching`, and the liquidation message.

Main result: `market_limits_exact_iff`.

The protobuf enumerations are inductive types, so the checks of unknown numbers have no counterpart.
`createOrder` is split where the source begins to write (`prepareOrder`) and where it begins to match
(`placeOrder`); the trigger hook runs the same match, without the check of a spot residue.
-/
import PerpDex.AccountMsgs
import PerpDex.Liquidation
import PerpDex.Matching

namespace PerpDex

/-! ### Messages and their stateless checks -/

structure MsgCreateOrder where
  sender : String
  accountIndex : ℕ
  marketIndex : ℕ
  clientOrderIndex : ℕ := 0
  isAsk : Bool
  orderType : OrderType := .limitOrder
  timeInForce : TimeInForce := .gtt
  baseAmount : ℕ
  price : ℕ
  triggerPrice : ℕ := 0
  expiry : ℤ := 0
  reduceOnly : Bool := false
  price_le : price ≤ maxUint32 := by decide

theorem hundred_le_maxUint32 : 100 ≤ maxUint32 := by decide

structure MsgCancelOrder where
  sender : String
  orderIndex : ℕ

inductive CancelAllMode where
  | immediate
  | scheduled
  | abortScheduled
deriving DecidableEq, Repr

def CancelAllMode.code : CancelAllMode → ℕ
  | immediate => 0
  | scheduled => 1
  | abortScheduled => 2

structure MsgCancelAllOrders where
  sender : String
  accountIndex : ℕ
  marketIndexFilter : ℕ := 0
  mode : CancelAllMode := .immediate

structure MsgModifyOrder where
  sender : String
  orderIndex : ℕ
  newPrice : ℕ
  newBaseAmount : ℕ
  newTriggerPrice : ℕ := 0
  newPrice_le : newPrice ≤ maxUint32 := by decide

structure MsgLiquidate where
  sender : String
  victimAccountIndex : ℕ
  marketIndex : ℕ
  baseAmount : ℕ

/-- Stop and take-profit orders wait for a price before they are matched. -/
def isTriggerOrder : OrderType → Bool
  | .stopLossOrder | .stopLossLimitOrder | .takeProfitOrder | .takeProfitLimitOrder => true
  | _ => false

def requiresLimitPrice : OrderType → Bool
  | .limitOrder | .stopLossLimitOrder | .takeProfitLimitOrder | .twapSubOrder
  | .liquidationOrder => true
  | _ => false

section Handlers

variable [AddressCodec]

def validAddr (addr : String) : Except Err Unit :=
  if AddressCodec.valid addr then pure () else throw ⟨.invalidAddress, ""⟩

/-- The checks of an order message that do not look at the state. -/
def MsgCreateOrder.checkFields (msg : MsgCreateOrder) : Except Err Unit :=
  let base := msg.baseAmount
  let clientIndex := msg.clientOrderIndex
  if base = 0 ∨ maxOrderBaseAmount < base then
    throw ⟨.matchingInvalidOrder, s!"base_amount out of range (got {base})"⟩
  else if clientIndex ≠ 0 ∧ maxClientOrderIndex < clientIndex then
    throw ⟨.matchingInvalidOrder, s!"client_order_index={clientIndex} out of range"⟩
  else if requiresLimitPrice msg.orderType = true ∧ msg.price = 0 then
    throw ⟨.matchingInvalidOrder, "limit price must be > 0 for limit-style orders"⟩
  else if isTriggerOrder msg.orderType = true ∧ msg.triggerPrice = 0 then
    throw ⟨.matchingInvalidOrder, "trigger_price must be > 0 for trigger orders"⟩
  else if msg.timeInForce = .postOnly ∧ msg.orderType ≠ .limitOrder then
    throw ⟨.matchingInvalidOrder, "PostOnly only allowed on limit orders"⟩
  else if msg.timeInForce = .gtt ∧ msg.expiry ≤ 0 then
    throw ⟨.matchingInvalidOrder, "GTT orders require expiry > 0"⟩
  else pure ()

def MsgCreateOrder.validateBasic (msg : MsgCreateOrder) : Except Err Unit := do
  validAddr msg.sender
  msg.checkFields

def MsgModifyOrder.validateBasic (msg : MsgModifyOrder) : Except Err Unit := do
  let base := msg.newBaseAmount
  validAddr msg.sender
  if base = 0 ∨ maxOrderBaseAmount < base then
    throw ⟨.matchingInvalidOrder, s!"new_base_amount out of range (got {base})"⟩

def MsgLiquidate.validateBasic (msg : MsgLiquidate) : Except Err Unit := do
  validAddr msg.sender
  if msg.baseAmount = 0 then throw ⟨.liquidationInvalidParams, "base_amount must be > 0"⟩

/-! ### New orders -/

def quoteExceedsLimit (base price : ℕ) (limit : ℤ) : Bool :=
  if limit ≤ 0 ∨ base = 0 ∨ price = 0 then false else decide (((base * price : ℕ) : ℤ) > limit)

/-- Whether the order could be left on the book or in the trigger index. -/
def willConsumeOpenSlot (msg : MsgCreateOrder) : Bool :=
  isTriggerOrder msg.orderType || decide (msg.timeInForce ≠ .ioc)

/-- Healthy accounts may place any order, accounts before liquidation reduce-only orders. -/
def checkPreLiquidationGate (accIdx marketIdx : ℕ) (reduceOnly : Bool) : Query Unit := fun s => do
  let cross ← getHealthStatus accIdx s
  let iso ← getIsolatedHealthStatus accIdx marketIdx s
  let worst := if cross.rank < iso.rank then iso else cross
  let rank := worst.rank
  match worst with
  | .healthy => return ()
  | .preLiquidation =>
    if reduceOnly then return ()
    else throw ⟨.accountUnderLiquidation,
      s!"account={accIdx} in pre-liquidation; only reduce-only orders allowed"⟩
  | _ => throw ⟨.accountUnderLiquidation,
      s!"account={accIdx} health={rank}; user orders blocked"⟩

/-- The account has a position that an order on the given side reduces. -/
def reduceOnlyCompatible (accIdx marketIdx : ℕ) (isAsk : Bool) (s : State) : Bool :=
  reducedBy (getPosition s accIdx marketIdx) isAsk

/-- The account exists and is a pool or the insurance fund. -/
def isPoolTypeAt (accIdx : ℕ) (s : State) : Bool :=
  match getAccount accIdx s with
  | .ok acc => acc.isPoolType
  | .error _ => false

/-- The limits of the market on the size of an order. -/
def checkMarketLimits (market : Market) (msg : MsgCreateOrder) : Tx Unit := do
  let base := msg.baseAmount
  let minBase := market.minBaseAmount
  let minQuote := market.minQuoteAmount
  Txn.require (¬ (0 < minBase ∧ base < minBase))
    ⟨.matchingInvalidOrder, s!"base_amount {base} below market min {minBase}"⟩
  -- the notional is a 64-bit product here and wraps
  Txn.require (¬ (0 < minQuote ∧ 0 < msg.price ∧ msg.price * base % 2 ^ 64 < minQuote))
    ⟨.matchingInvalidOrder, s!"quote notional below market min {minQuote}"⟩
  Txn.require (quoteExceedsLimit base msg.price market.orderQuoteLimit = false)
    ⟨.quoteLimitExceeded, ""⟩

/-- The limits on the open orders of an account. -/
def checkOpenOrders (market : Market) (msg : MsgCreateOrder) : Tx Unit := do
  let account := msg.accountIndex
  let marketIdx := msg.marketIndex
  let cap := market.maxOpenOrdersPerAccount
  let has ← Txn.read fun s => .ok (hasOpenClientOrder marketIdx account msg.clientOrderIndex s)
  Txn.require (has = false) ⟨.duplicateClientOrder, ""⟩
  let count ← Txn.read fun s => .ok (getAccountOpenOrderCount s account marketIdx)
  Txn.require (¬ (0 < cap ∧ willConsumeOpenSlot msg = true ∧ cap ≤ count))
    ⟨.tooManyOpenOrders, s!"account={account} market={marketIdx} count={count} cap={cap}"⟩

/-- Everything that is checked before anything is written; returns the market. -/
def admitOrder (msg : MsgCreateOrder) : Tx Market := do
  Txn.lift msg.validateBasic
  let ok ← Txn.read (isAuthorized msg.sender msg.accountIndex)
  Txn.require (ok = true) ⟨.matchingUnauthorized, ""⟩
  let pool ← Txn.read fun s => .ok (isPoolTypeAt msg.accountIndex s)
  Txn.require (pool = false) ⟨.poolCannotPlaceOrder, ""⟩
  let market ← Txn.read (getMarket msg.marketIndex)
  Txn.require (market.status = .active) ⟨.matchingInvalidOrder, "market not active"⟩
  Txn.read (checkPreLiquidationGate msg.accountIndex msg.marketIndex msg.reduceOnly)
  checkMarketLimits market msg
  checkOpenOrders market msg
  let cross ← Txn.read fun s => .ok (wouldCross msg.marketIndex msg.isAsk msg.price s)
  Txn.require (¬ (msg.timeInForce = .postOnly ∧ cross = true)) ⟨.postOnlyCross, ""⟩
  let reduces ← Txn.read fun s =>
    .ok (reduceOnlyCompatible msg.accountIndex msg.marketIndex msg.isAsk s)
  Txn.require (¬ (msg.reduceOnly = true ∧ reduces = false)) ⟨.reduceOnlyViolated, ""⟩
  return market

/-- The order of a message, with the index and the nonce it was given. -/
def MsgCreateOrder.toOrder (msg : MsgCreateOrder) (idx : ℕ) (nonce : ℤ) : Order where
  orderIndex := idx
  clientOrderIndex := msg.clientOrderIndex
  ownerAccountIndex := msg.accountIndex
  marketIndex := msg.marketIndex
  isAsk := msg.isAsk
  orderType := msg.orderType
  timeInForce := msg.timeInForce
  reduceOnly := msg.reduceOnly
  price := msg.price
  nonce := nonce
  initialBaseAmount := msg.baseAmount
  remainingBaseAmount := msg.baseAmount
  triggerPrice := msg.triggerPrice
  expiry := msg.expiry

/-- Check a message and give its order an index and a nonce. -/
def prepareOrder (msg : MsgCreateOrder) : Tx (Market × Order) := do
  let market ← admitOrder msg
  let idx ← allocateOrderIndex
  let nonce ← allocateNonce msg.marketIndex msg.isAsk
  return (market, msg.toOrder idx nonce)

structure MsgCreateOrderResponse where
  orderIndex : ℕ
  status : OrderStatus
  filledBaseAmount : ℕ := 0
deriving DecidableEq, Repr

/-- What is left of an immediate-or-cancel order is cancelled. -/
def killResidue (o : Order) : Order :=
  if o.timeInForce = .ioc ∧ 0 < o.remainingBaseAmount then { o with status := .cancelled } else o

/-- The order of a finished sweep, with the status it has before it is stored. -/
def SweepResult.settled (r : SweepResult) : Order := killResidue { r.taker with status := r.status }

def spotResidueLock (o : Order) (market : Market) : ℕ × ℤ := computeSpotLock o market

/-- A residue on a spot book that the account cannot lock in full is cancelled. -/
def gateSpotResidue (market : Market) (o : Order) (s : State) : Order :=
  if o.status.isResting = true ∧ market.marketType = .spot ∧ 0 < o.remainingBaseAmount ∧
      availableBalance o.ownerAccountIndex (spotResidueLock o market).1 s
        < (spotResidueLock o market).2 then
    { o with status := .cancelled }
  else o

/-- Match an order and let what remains of it rest, if it may. -/
def placeOrder (market : Market) (order : Order) : Tx MsgCreateOrderResponse := do
  let params ← Txn.read fun s => .ok s.matchingParams
  let r ← matchOrder order params.maxFillsPerMsg
  let o ← Txn.read fun s => .ok (gateSpotResidue market r.settled s)
  openOrder o
  return ⟨o.orderIndex, o.status, r.totalFilled⟩

def parkOrder (order : Order) : Tx MsgCreateOrderResponse := do
  openTriggerOrder { order with status := .triggeredPending }
  return ⟨order.orderIndex, .triggeredPending, 0⟩

def createOrder (msg : MsgCreateOrder) : Tx MsgCreateOrderResponse := do
  let prepared ← prepareOrder msg
  if isTriggerOrder msg.orderType then parkOrder prepared.2
  else placeOrder prepared.1 prepared.2

/-! ### Cancelling and modifying -/

/-- The order of a message whose sender may act for its owner. -/
def getOwnOrder (sender : String) (orderIndex : ℕ) : Tx Order := do
  let o ← Txn.read (getOrder orderIndex)
  let ok ← Txn.read (isAuthorized sender o.ownerAccountIndex)
  Txn.require (ok = true) ⟨.matchingUnauthorized, ""⟩
  return o

def cancelOrderMsg (msg : MsgCancelOrder) : Tx Unit := do
  Txn.lift (validAddr msg.sender)
  let o ← getOwnOrder msg.sender msg.orderIndex
  let _ ← cancelOrder o.orderIndex

/-- Cancel the live orders of an account, at most as many as the parameters allow. -/
def cancelOpenOrders (account marketFilter : ℕ) : Tx Unit := do
  let params ← Txn.read fun s => .ok s.matchingParams
  let maxCancels := if params.maxCancelsPerMsg = 0 then 128 else params.maxCancelsPerMsg
  let targets ← Txn.read fun s =>
    .ok (((accountOpenOrdersOf s account marketFilter).filter (·.status.isLive)).take maxCancels)
  targets.forM fun o => do
    let _ ← cancelOrder o.orderIndex

def cancelAllOrders (msg : MsgCancelAllOrders) : Tx Unit := do
  Txn.lift (validAddr msg.sender)
  let ok ← Txn.read (isAuthorized msg.sender msg.accountIndex)
  Txn.require (ok = true) ⟨.matchingUnauthorized, ""⟩
  let mode := msg.mode.code
  Txn.require (msg.mode = .immediate)
    ⟨.unimplemented, s!"cancel-all mode={mode} not supported"⟩
  cancelOpenOrders msg.accountIndex msg.marketIndexFilter

/-- The order that replaces `o`. -/
def MsgModifyOrder.toCreate (msg : MsgModifyOrder) (o : Order) : MsgCreateOrder where
  sender := msg.sender
  accountIndex := o.ownerAccountIndex
  marketIndex := o.marketIndex
  clientOrderIndex := o.clientOrderIndex
  isAsk := o.isAsk
  orderType := o.orderType
  timeInForce := o.timeInForce
  baseAmount := msg.newBaseAmount
  price := msg.newPrice
  triggerPrice := msg.newTriggerPrice
  expiry := o.expiry
  reduceOnly := o.reduceOnly
  price_le := msg.newPrice_le

/-- Only a resting order can be modified. -/
def requireModifiable (o : Order) : Tx Unit := do
  let idx := o.orderIndex
  let status := o.status.code
  Txn.require (o.status.isResting = true)
    ⟨.matchingOrderNotCancelable, s!"order_index={idx} status={status}"⟩
  Txn.require (o.remainingBaseAmount ≠ 0)
    ⟨.matchingOrderNotCancelable, s!"order_index={idx} already fully filled"⟩

/-- Take the order to be modified off the book; returns the message that replaces it. -/
def withdrawOrder (msg : MsgModifyOrder) : Tx MsgCreateOrder := do
  Txn.lift msg.validateBasic
  let o ← getOwnOrder msg.sender msg.orderIndex
  requireModifiable o
  Txn.read (checkPreLiquidationGate o.ownerAccountIndex o.marketIndex o.reduceOnly)
  let _ ← cancelOrder o.orderIndex
  return msg.toCreate o

def modifyOrder (msg : MsgModifyOrder) : Tx ℕ := do
  let create ← withdrawOrder msg
  let resp ← createOrder create
  return resp.orderIndex

/-! ### Liquidation of a position -/

def cancelAllOpenOrdersForAccount (account : ℕ) : Tx Unit := cancelOpenOrders account 0

def liquidatePosition (victim marketIdx baseAmount : ℕ) : Tx Unit := do
  let snap ← Txn.read (getZeroPriceSnapshot victim marketIdx)
  let pos := snap.position
  Txn.require (pos.baseSize ≠ 0) ⟨.notLiquidatable, "victim has no position"⟩
  let status ← Txn.read (healthEnvelopeFor victim marketIdx pos.marginMode)
  let rank := status.rank
  Txn.require (status = .partialLiquidation) ⟨.notLiquidatable,
    s!"victim status={rank} not partial; FULL/BANKRUPTCY routes via EndBlocker LLP→ADL"⟩
  Txn.require (baseAmount ≠ 0) ⟨.liquidationInvalidParams, "base_amount must be > 0"⟩
  let absVictim := |pos.baseSize|
  Txn.require (¬ (baseAmount : ℤ) > absVictim) ⟨.liquidationInvalidParams,
    s!"base_amount={baseAmount} exceeds victim position size {absVictim}"⟩
  cancelAllOpenOrdersForAccount victim
  let market ← Txn.read (getMarket marketIdx)
  let _ ← matchLiquidationOrder victim marketIdx snap.zeroPrice baseAmount market.liquidationFee
    insuranceFundOperatorAccountIdx

def liquidate (msg : MsgLiquidate) : Tx Unit := do
  Txn.lift msg.validateBasic
  liquidatePosition msg.victimAccountIndex msg.marketIndex msg.baseAmount

end Handlers

/-! ### Limits on the notional of an order -/

/-- What `checkMarketLimits` is for: its checks with products of unbounded numbers. -/
def exactMarketLimits (market : Market) (msg : MsgCreateOrder) : Tx Unit := do
  let base := msg.baseAmount
  let minBase := market.minBaseAmount
  let minQuote := market.minQuoteAmount
  Txn.require (¬ base < minBase)
    ⟨.matchingInvalidOrder, s!"base_amount {base} below market min {minBase}"⟩
  Txn.require (¬ (0 < msg.price ∧ msg.price * base < minQuote))
    ⟨.matchingInvalidOrder, s!"quote notional below market min {minQuote}"⟩
  Txn.require (¬ (0 < market.orderQuoteLimit ∧
    market.orderQuoteLimit < (msg.price * base : ℕ))) ⟨.quoteLimitExceeded, ""⟩

theorem quoteExceedsLimit_eq_false {base price : ℕ} {limit : ℤ} :
    quoteExceedsLimit base price limit = false ↔ ¬ (0 < limit ∧ limit < (price * base : ℕ)) := by
  rw [Nat.mul_comm, quoteExceedsLimit]
  split_ifs with h
  · rcases h with h | rfl | rfl <;> simp
    all_goals omega
  · push Not at h
    simp [h.1]

/-- The limits of a market are checked exactly if and only if the notional is less than `2 ^ 64` or
wraps to a word that is not below the least notional; too small a base is refused before that. -/
theorem market_limits_exact_iff (market : Market) (msg : MsgCreateOrder)
    (hword : market.minQuoteAmount < 2 ^ 64) :
    (∀ s, (checkMarketLimits market msg).run s = (exactMarketLimits market msg).run s) ↔
      msg.baseAmount < market.minBaseAmount ∨ msg.price * msg.baseAmount < 2 ^ 64 ∨
        market.minQuoteAmount ≤ msg.price * msg.baseAmount % 2 ^ 64 := by
  have hbase : ¬ (0 < market.minBaseAmount ∧ msg.baseAmount < market.minBaseAmount) ↔
      ¬ msg.baseAmount < market.minBaseAmount := by omega
  simp only [checkMarketLimits, exactMarketLimits, EStateM.run_bind, Txn.run_require, hbase,
    quoteExceedsLimit_eq_false]
  constructor
  · intro h
    by_contra! hcon
    obtain ⟨hmin, hbig, hsmall⟩ := hcon
    have hpos : 0 < msg.price := by
      by_contra hzero
      rw [Nat.eq_zero_of_not_pos hzero] at hbig
      omega
    -- the order is refused as too small, and is none of the smallest
    have hs := h {}
    rw [if_pos hmin.not_gt] at hs
    simp only [hpos, hsmall, (hword.trans_le hbig).not_gt, Nat.zero_lt_of_lt hsmall,
      not_true_eq_false, and_self, and_false, not_false_eq_true, if_true, if_false] at hs
    split_ifs at hs
    cases hs
  · intro h s
    by_cases hmin : msg.baseAmount < market.minBaseAmount
    · rw [if_neg (not_not.mpr hmin)]
    · have hle := Nat.mod_le (msg.price * msg.baseAmount) (2 ^ 64)
      have hquote : ¬ (0 < market.minQuoteAmount ∧ 0 < msg.price ∧
          msg.price * msg.baseAmount % 2 ^ 64 < market.minQuoteAmount) ↔
          ¬ (0 < msg.price ∧ msg.price * msg.baseAmount < market.minQuoteAmount) := by
        rcases h.resolve_left hmin with hsmall | hlow
        · rw [Nat.mod_eq_of_lt hsmall]
          omega
        · omega
      simp only [hquote]

/-- An order for `2 ^ 33` units at a price of `2 ^ 31` is refused as too small for a market in which an
order may be worth one. -/
theorem large_order_too_small :
    let _ := AddressCodec.acceptAll
    let msg : MsgCreateOrder := {
      sender := "alice", accountIndex := 2, marketIndex := 0, isAsk := false, expiry := 1
      baseAmount := 2 ^ 33, price := 2 ^ 31 }
    let market : Market := { marketIndex := 0, minQuoteAmount := 1 }
    msg.validateBasic = .ok () ∧
      (∀ s, (checkMarketLimits market msg).run s =
        .error ⟨.matchingInvalidOrder, "quote notional below market min 1"⟩ s) ∧
      ∀ s, (exactMarketLimits market msg).run s = .ok () s :=
  ⟨rfl, fun _ => rfl, fun _ => rfl⟩

/-- The same market takes an order for half as much. -/
theorem market_limits_exact_iff_half :
    let msg : MsgCreateOrder := {
      sender := "alice", accountIndex := 2, marketIndex := 0, isAsk := false, expiry := 1
      baseAmount := 2 ^ 32, price := 2 ^ 31 }
    let market : Market := { marketIndex := 0, minQuoteAmount := 1 }
    market.minQuoteAmount < 2 ^ 64 ∧
      ∀ s, (checkMarketLimits market msg).run s = (exactMarketLimits market msg).run s :=
  ⟨by decide, (market_limits_exact_iff _ _ (by decide)).mpr (.inr (.inl (by decide)))⟩

/-! ### Triggers -/

/-- The mark price has reached the trigger: a stop protects against a move, a take-profit
waits for one. -/
def triggerReached (o : Order) (markPrice : ℕ) : Bool :=
  match o.orderType with
  | .stopLossOrder | .stopLossLimitOrder =>
    if o.isAsk then decide (markPrice ≤ o.triggerPrice) else decide (o.triggerPrice ≤ markPrice)
  | .takeProfitOrder | .takeProfitLimitOrder =>
    if o.isAsk then decide (o.triggerPrice ≤ markPrice) else decide (markPrice ≤ o.triggerPrice)
  | _ => false

/-- The trigger has a mark price to look at and that price has reached it. -/
def isDue (s : State) (o : Order) : Bool :=
  match getMarkPriceAndDetails o.marketIndex s with
  | .error _ => false
  | .ok (markPrice, _) => decide (markPrice ≠ 0) && triggerReached o markPrice

def dueTriggers (s : State) : List ℕ := ((triggersOf s).filter (isDue s)).map (·.orderIndex)

/-- The order a trigger becomes: a limit order, or a market order that cannot rest. -/
def executableTwin (o : Order) : Order :=
  match o.orderType with
  | .stopLossLimitOrder | .takeProfitLimitOrder => { o with orderType := .limitOrder }
  | _ => { o with orderType := .marketOrder, timeInForce := .ioc, price := 0 }

/-- Match an activated trigger and let what remains of it rest, if it may. -/
def fireOrder (o : Order) : Tx Unit := do
  let params ← Txn.read fun s => .ok s.matchingParams
  let r ← matchOrder o params.maxFillsPerMsg
  openOrder r.settled

/-- Activate one trigger.  If it cannot be matched or stored it is cancelled, and an error of
that is dropped. -/
def fireTrigger (orderIndex : ℕ) : Tx Unit := do
  let activated ← logged (activateTrigger orderIndex)
  match activated with
  | .error _ => pure ()
  | .ok o => do
    let fired ← logged (fireOrder (executableTwin o))
    match fired with
    | .ok _ => pure ()
    | .error _ => do
      let _ ← logged (cancelOrder o.orderIndex)

def matchingEndBlocker : Tx Unit := do
  let due ← Txn.read fun s => .ok (dueTriggers s)
  due.forM fireTrigger

end PerpDex
