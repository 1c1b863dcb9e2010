/-
The order book keeper (`x/orderbook/keeper`): entries, orders and their life cycle.

* `sortableKey`, `peekBest`, `wouldCross` — the book of a market in price-time order;
* `openOrder`, `openTriggerOrder`, `activateTrigger`, `fillMakerOrder`, `evictMakerOrder`,
  `cancelOrder`, `orderbookEndBlocker` — the life cycle of an order;
* `OrderbookGenesis.init` — all but the orders is rebuilt.

Entry and order are written separately, as in the source: a life cycle function that fails half-way
leaves the writes it made, and only a surrounding transaction undoes them.
-/
import PerpDex.Account
import PerpDex.Market

namespace PerpDex

def modifyBook (f : BookStore → BookStore) : Tx Unit := Txn.write fun s => { s with book := f s.book }

/-! ### Keys -/

def nonceWord (nonce : ℤ) : ℕ := (nonce % 2 ^ 64).toNat

/-- First component of a book key. -/
def sideByte (isAsk : Bool) : ℕ := if isAsk then 0 else 1

/-- Bids store the complements of price and nonce, so that both sides list their best first. -/
def sortableKey (price : ℕ) (nonce : ℤ) (isAsk : Bool) : SortKey :=
  if isAsk then toLex (sideByte isAsk, toLex (price, nonceWord nonce))
  else toLex (sideByte isAsk, toLex (maxUint32 - price, maxUint64 - nonceWord nonce))

/-- Whether a key lies on the given side of a market. -/
def onSide (market : ℕ) (isAsk : Bool) (k : ℕ ×ₗ SortKey) : Bool :=
  (ofLex k).1 == market && (ofLex (ofLex k).2).1 == sideByte isAsk

def peekBest (market : ℕ) (isAsk : Bool) (s : State) : Option OrderBookEntry :=
  (s.book.orderBookEntries.first (onSide market isAsk)).map Prod.snd

/-- Whether an order at `price` trades with an opposite order at `best`. -/
def reaches (isAsk : Bool) (price best : ℕ) : Bool :=
  if isAsk then decide (price ≤ best) else decide (best ≤ price)

def wouldCross (market : ℕ) (isAsk : Bool) (price : ℕ) (s : State) : Bool :=
  match peekBest market (!isAsk) s with
  | none => false
  | some best => reaches isAsk price best.price

/-! ### Sums per price -/

/-- Direction of a change. -/
inductive Sign where
  | plus
  | zero
  | minus
deriving DecidableEq, Repr

def applyMagDelta (cur mag : ℕ) : Sign → Except Err ℕ
  | .zero => .ok cur
  | .plus => if cur > maxUint64 - mag then .error ⟨.priceLevelOverflow, ""⟩ else .ok (cur + mag)
  | .minus => if mag > cur then .error ⟨.orderbookInvariantViolated,
      s!"price-level aggregate under-subtract: cur={cur} delta=-{mag}"⟩
    else .ok (cur - mag)

def applyCountDelta (cur : ℕ) (delta : ℤ) : Except Err ℕ :=
  let next : ℤ := cur + delta
  if next < 0 then .error ⟨.orderbookInvariantViolated,
    s!"price-level count under-subtract: cur={cur} delta={delta}"⟩
  else if next > maxUint32 then .error ⟨.priceLevelOverflow,
    s!"price-level count overflow: cur={cur} delta={delta}"⟩
  else .ok next.toNat

/-- The sums of a price after one side changed. -/
def PriceLevelAggregate.adjust (pl : PriceLevelAggregate) (isAsk : Bool) (baseMag quoteMag : ℕ)
    (sign : Sign) (countDelta : ℤ) : Except Err PriceLevelAggregate :=
  if isAsk then do
    let base ← applyMagDelta pl.askBaseSum baseMag sign
    let quote ← applyMagDelta pl.askQuoteSum quoteMag sign
    let count ← applyCountDelta pl.askCount countDelta
    return { pl with askBaseSum := base, askQuoteSum := quote, askCount := count }
  else do
    let base ← applyMagDelta pl.bidBaseSum baseMag sign
    let quote ← applyMagDelta pl.bidQuoteSum quoteMag sign
    let count ← applyCountDelta pl.bidCount countDelta
    return { pl with bidBaseSum := base, bidQuoteSum := quote, bidCount := count }

/-- All six sums are zero. -/
def PriceLevelAggregate.isEmpty (pl : PriceLevelAggregate) : Bool :=
  pl.askBaseSum == 0 && pl.bidBaseSum == 0 && pl.askQuoteSum == 0 && pl.bidQuoteSum == 0 &&
    pl.askCount == 0 && pl.bidCount == 0

def priceLevelOf (s : State) (market price : ℕ) : PriceLevelAggregate :=
  (s.book.priceLevels.get (toLex (market, price))).getD { marketIndex := market, price := price }

def adjustPriceLevel (market : ℕ) (isAsk : Bool) (price baseMag quoteMag : ℕ) (sign : Sign)
    (countDelta : ℤ) : Tx Unit := do
  let pl ← Txn.read fun s =>
    (priceLevelOf s market price).adjust isAsk baseMag quoteMag sign countDelta
  modifyBook fun b => { b with priceLevels :=
    if pl.isEmpty then b.priceLevels.remove (toLex (market, price)) else b.priceLevels.put pl }

def checkedQuote (base price : ℕ) : Except Err ℕ :=
  let product := base * price
  if base = 0 ∨ price = 0 then .ok 0
  else if product > maxOrderQuoteAmount then .error ⟨.quoteOverflow, ""⟩
  else if (product : ℤ) > maxInt64 then
    .error ⟨.quoteOverflow, s!"product {product} exceeds math.MaxInt64"⟩
  else .ok product

/-! ### Entries -/

def insertEntry (market : ℕ) (isAsk : Bool) (e : OrderBookEntry) : Tx Unit := do
  let quote ← Txn.lift (checkedQuote e.remainingBaseAmount e.price)
  let sk := sortableKey e.price e.nonce isAsk
  modifyBook fun b => { b with orderBookEntries := b.orderBookEntries.set (toLex (market, sk)) e }
  modifyBook fun b => { b with
    orderToSortKey := b.orderToSortKey.set (toLex (market, e.orderIndex)) sk }
  adjustPriceLevel market isAsk e.price e.remainingBaseAmount quote .plus 1

/-- The entry of an order with its key, if it has one. -/
def entryOf (s : State) (market orderIndex : ℕ) : Option (SortKey × OrderBookEntry) := do
  let sk ← s.book.orderToSortKey.get (toLex (market, orderIndex))
  let entry ← s.book.orderBookEntries.get (toLex (market, sk))
  return (sk, entry)

def dropEntry (market orderIndex : ℕ) (sk : SortKey) : Tx Unit := do
  modifyBook fun b => { b with orderBookEntries := b.orderBookEntries.remove (toLex (market, sk)) }
  modifyBook fun b => { b with
    orderToSortKey := b.orderToSortKey.remove (toLex (market, orderIndex)) }

/-- Remove the entry of an order; an order without one is left alone. -/
def removeEntry (market : ℕ) (isAsk : Bool) (orderIndex : ℕ) : Tx Unit := do
  let found ← Txn.read fun s => .ok (entryOf s market orderIndex)
  match found with
  | none => pure ()
  | some (sk, entry) => do
    dropEntry market orderIndex sk
    let quote ← Txn.lift (checkedQuote entry.remainingBaseAmount entry.price)
    adjustPriceLevel market isAsk entry.price entry.remainingBaseAmount quote .minus (-1)

/-- Take `delta` off an entry; `true` if nothing is left and the entry was removed. -/
def shrinkEntryResidue (market : ℕ) (isAsk : Bool) (orderIndex delta : ℕ) : Tx Bool := do
  let (sk, entry) ← Txn.read fun s => match entryOf s market orderIndex with
    | some found => .ok found
    | none => .error ⟨.collectionNotFound, ""⟩
  let delta := min delta entry.remainingBaseAmount
  let rest := entry.remainingBaseAmount - delta
  let filledQuote ← Txn.lift (checkedQuote delta entry.price)
  adjustPriceLevel market isAsk entry.price delta filledQuote .minus 0
  if rest = 0 then do
    dropEntry market orderIndex sk
    adjustPriceLevel market isAsk entry.price 0 0 .zero (-1)
    return true
  else do
    let entry := { entry with remainingBaseAmount := rest }
    modifyBook fun b => { b with
      orderBookEntries := b.orderBookEntries.set (toLex (market, sk)) entry }
    return false

/-! ### Orders and their indexes -/

def allocateOrderIndex : Tx ℕ := do
  let idx ← Txn.read fun s => .ok s.book.nextOrderIndex
  modifyBook fun b => { b with nextOrderIndex := idx + 1 }
  return idx

def getOrder (idx : ℕ) : Query Order := fun s =>
  match s.book.orders.get idx with
  | some o => .ok o
  | none => .error ⟨.orderNotFound, s!"order_index={idx}"⟩

def setOrder (o : Order) : Tx Unit := modifyBook fun b => { b with orders := b.orders.put o }

namespace OrderStatus

def isResting (st : OrderStatus) : Bool := st = .opened || st = .partiallyFilled

def isLive (st : OrderStatus) : Bool := st.isResting || st = .triggeredPending

def code : OrderStatus → ℕ
  | opened => 0
  | partiallyFilled => 1
  | filled => 2
  | cancelled => 3
  | triggeredPending => 4

end OrderStatus

def Order.clientKey (o : Order) : ℕ ×ₗ ℕ ×ₗ ℕ :=
  toLex (o.marketIndex, toLex (o.ownerAccountIndex, o.clientOrderIndex))

def indexClientOrder (o : Order) : Tx Unit :=
  Txn.when (o.clientOrderIndex ≠ 0) do
    modifyBook fun b => { b with userOrderIndex := b.userOrderIndex.set o.clientKey o.orderIndex }

def unindexClientOrder (o : Order) : Tx Unit :=
  Txn.when (o.clientOrderIndex ≠ 0) do
    modifyBook fun b => { b with userOrderIndex := b.userOrderIndex.remove o.clientKey }

def unindexClientOrderIfMatches (o : Order) : Tx Unit :=
  Txn.when (o.clientOrderIndex ≠ 0) do
    modifyBook fun b => { b with
      userOrderIndex := if b.userOrderIndex.get o.clientKey = some o.orderIndex then
        b.userOrderIndex.remove o.clientKey else b.userOrderIndex }

def hasOpenClientOrder (market account clientID : ℕ) (s : State) : Bool :=
  if clientID = 0 then false
  else
    match s.book.userOrderIndex.get (toLex (market, toLex (account, clientID))) with
    | none => false
    | some idx =>
      match s.book.orders.get idx with
      | none => false
      | some o => o.status.isLive

def Order.accountOpenOrderKey (o : Order) : ℕ ×ₗ ℕ ×ₗ ℕ :=
  toLex (o.ownerAccountIndex, toLex (o.marketIndex, o.orderIndex))

def getAccountOpenOrderCount (s : State) (account market : ℕ) : ℕ :=
  (s.book.accountOpenOrderCount.get (toLex (account, market))).getD 0

def bumpAccountOpenOrderCount (account market : ℕ) (delta : ℤ) : Tx Unit := do
  let cur ← Txn.read fun s => .ok (getAccountOpenOrderCount s account market)
  let next : ℤ := cur + delta
  Txn.require (¬ next < 0) ⟨.orderbookInvariantViolated,
    s!"account_open_order_count under-subtract: account={account} market={market} cur={cur} delta={delta}"⟩
  Txn.require (¬ next > maxUint32) ⟨.orderbookInvariantViolated,
    s!"account_open_order_count overflow: account={account} market={market} cur={cur} delta={delta}"⟩
  modifyBook fun b => { b with
    accountOpenOrderCount := if next = 0 then
      b.accountOpenOrderCount.remove (toLex (account, market))
      else b.accountOpenOrderCount.set (toLex (account, market)) next.toNat }

/-- Mark an order as open; an order that is already marked is not counted twice. -/
def indexAccountOpenOrder (o : Order) : Tx Unit := do
  let had ← Txn.read fun s => .ok (s.book.accountOpenOrders.has o.accountOpenOrderKey)
  modifyBook fun b => { b with
    accountOpenOrders := b.accountOpenOrders.set o.accountOpenOrderKey () }
  Txn.when (had = false) (bumpAccountOpenOrderCount o.ownerAccountIndex o.marketIndex 1)

def unindexAccountOpenOrder (o : Order) : Tx Unit := do
  let had ← Txn.read fun s => .ok (s.book.accountOpenOrders.has o.accountOpenOrderKey)
  modifyBook fun b => { b with
    accountOpenOrders := b.accountOpenOrders.remove o.accountOpenOrderKey }
  Txn.when (had = true) (bumpAccountOpenOrderCount o.ownerAccountIndex o.marketIndex (-1))

/-- The orders marked as open for an account, in one market or, with filter 0, in all. -/
def accountOpenOrdersOf (s : State) (account marketFilter : ℕ) : List Order :=
  (s.book.accountOpenOrders.range fun k => (ofLex k).1 == account &&
    (marketFilter == 0 || (ofLex (ofLex k).2).1 == marketFilter)).filterMap fun e =>
      s.book.orders.get (ofLex (ofLex e.1).2).2

def triggerKey (market triggerPrice orderIndex : ℕ) : ℕ ×ₗ ℕ ×ₗ ℕ :=
  toLex (market, toLex (triggerPrice, orderIndex))

def addTrigger (market triggerPrice orderIndex : ℕ) : Tx Unit := modifyBook fun b =>
  { b with triggerIndex := b.triggerIndex.set (triggerKey market triggerPrice orderIndex) () }

def removeTrigger (market triggerPrice orderIndex : ℕ) : Tx Unit := modifyBook fun b =>
  { b with triggerIndex := b.triggerIndex.remove (triggerKey market triggerPrice orderIndex) }

/-- The orders waiting for their trigger, in the order of the index. -/
def triggersOf (s : State) : List Order :=
  s.book.triggerIndex.entries.filterMap fun e => s.book.orders.get (ofLex (ofLex e.1).2).2

def indexExpiry (o : Order) : Bool := o.timeInForce = .gtt && decide (0 < o.expiry)

def addExpiryIndex (o : Order) : Tx Unit :=
  Txn.when (indexExpiry o = true) do
    modifyBook fun b => { b with
      expiryIndex := b.expiryIndex.set (toLex (o.expiry, o.orderIndex)) () }

def removeExpiryIndex (o : Order) : Tx Unit :=
  Txn.when (o.expiry ≠ 0) do
    modifyBook fun b => { b with
      expiryIndex := b.expiryIndex.remove (toLex (o.expiry, o.orderIndex)) }

/-! ### Locks of spot orders -/

/-- Asset and amount an order holds while it rests: an ask holds base, a bid holds quote. -/
def computeSpotLock (o : Order) (market : Market) : ℕ × ℤ :=
  if o.isAsk then (market.baseAssetId, o.remainingBaseAmount)
  else (market.quoteAssetId, (o.remainingBaseAmount : ℤ) * o.price)

/-- Run `f` on the lock of a spot order; orders of perp markets have none. -/
def withSpotLock (f : ℕ → ℕ → ℤ → Tx Unit) (o : Order) : Tx Unit := do
  let market ← Txn.read (getMarket o.marketIndex)
  Txn.when (market.marketType = .spot) do
    let lock := computeSpotLock o market
    f o.ownerAccountIndex lock.1 lock.2

def applySpotLockOnOpen : Order → Tx Unit := withSpotLock increaseLockedBalance

def releaseSpotLockOnClose : Order → Tx Unit := withSpotLock decreaseLockedBalance

/-! ### Life cycle -/

def Order.toEntry (o : Order) : OrderBookEntry where
  orderIndex := o.orderIndex
  ownerAccountIndex := o.ownerAccountIndex
  price := o.price
  nonce := o.nonce
  remainingBaseAmount := o.remainingBaseAmount
  expiry := o.expiry
  reduceOnly := o.reduceOnly
  orderType := o.orderType

/-- Indexes an order has while it is open. -/
def indexOpenOrder (o : Order) : Tx Unit := do
  indexClientOrder o
  indexAccountOpenOrder o
  addExpiryIndex o

def unindexOpenOrder (o : Order) : Tx Unit := do
  unindexClientOrderIfMatches o
  unindexAccountOpenOrder o
  removeExpiryIndex o

/-- Store an order: on the book if it is to rest, otherwise with its indexes dropped. -/
def openOrder (o : Order) : Tx Unit :=
  if o.status.isResting then do
    applySpotLockOnOpen o
    insertEntry o.marketIndex o.isAsk o.toEntry
    indexOpenOrder o
    setOrder o
  else do
    unindexOpenOrder o
    setOrder o

def openTriggerOrder (o : Order) : Tx Unit := do
  addTrigger o.marketIndex o.triggerPrice o.orderIndex
  indexOpenOrder o
  setOrder o

def activateTrigger (orderIndex : ℕ) : Tx Order := do
  let o ← Txn.read (getOrder orderIndex)
  removeTrigger o.marketIndex o.triggerPrice o.orderIndex
  removeExpiryIndex o
  let o := { o with status := .opened }
  setOrder o
  return o

/-- The order after `delta` of it was filled. -/
def applyOrderResidue (o : Order) (delta : ℕ) : Order :=
  let rest := o.remainingBaseAmount - min delta o.remainingBaseAmount
  { o with
    remainingBaseAmount := rest
    status := if rest = 0 then .filled else .partiallyFilled }

def fillMakerOrder (makerIndex filledBase : ℕ) : Tx Order := do
  let maker ← Txn.read (getOrder makerIndex)
  let filledBase := min filledBase maker.remainingBaseAmount
  let entryRemoved ← shrinkEntryResidue maker.marketIndex maker.isAsk makerIndex filledBase
  let filled := applyOrderResidue maker filledBase
  let drained := decide (filled.remainingBaseAmount = 0)
  Txn.require (entryRemoved = drained) ⟨.orderbookInvariantViolated,
    s!"FillMakerOrder: entry_removed={entryRemoved} order_drained={drained} for order_index={makerIndex} (entry/order residue desync)"⟩
  Txn.when (drained = true) do
    unindexClientOrder filled
    unindexAccountOpenOrder filled
    removeExpiryIndex filled
  setOrder filled
  return filled

/-- Drop the indexes of an order and store it with its final status. -/
def closeOrder (o : Order) (terminalStatus : OrderStatus) : Tx Order := do
  let o := { o with status := terminalStatus }
  unindexOpenOrder o
  setOrder o
  return o

def evictMakerOrder (makerIndex : ℕ) (terminalStatus : OrderStatus) : Tx Order := do
  let maker ← Txn.read (getOrder makerIndex)
  removeEntry maker.marketIndex maker.isAsk makerIndex
  releaseSpotLockOnClose maker
  closeOrder maker terminalStatus

/-- Take an order out of the book or out of the trigger index, where its status has it. -/
def detachOrder (o : Order) : Tx Unit :=
  let idx := o.orderIndex
  let status := o.status.code
  if o.status.isResting then do
    Txn.require (o.remainingBaseAmount ≠ 0)
      ⟨.orderNotCancelable, s!"order_index={idx} already fully filled"⟩
    removeEntry o.marketIndex o.isAsk o.orderIndex
    releaseSpotLockOnClose o
  else if o.status = .triggeredPending then
    removeTrigger o.marketIndex o.triggerPrice o.orderIndex
  else throw ⟨.orderNotCancelable, s!"order_index={idx} status={status}"⟩

def cancelOrder (orderIndex : ℕ) : Tx Order := do
  let o ← Txn.read (getOrder orderIndex)
  detachOrder o
  closeOrder o .cancelled

/-! ### Expiry -/

/-- Only good-till-time orders expire. -/
def isExpired (o : Order) (now : ℤ) : Bool :=
  if o.timeInForce ≠ .gtt then false
  else decide (0 < o.expiry) && decide (o.expiry ≤ now)

def collectExpiredOrders (s : State) : List ℕ :=
  (s.book.expiryIndex.range fun k => decide ((ofLex k).1 ≤ s.now)).map fun e => (ofLex e.1).2

/-- Cancel every order whose expiry has passed; an order that cannot be cancelled is skipped. -/
def orderbookEndBlocker : Tx Unit := do
  let expired ← Txn.read fun s => .ok (collectExpiredOrders s)
  expired.forM fun idx => do
    let _ ← logged (cancelOrder idx)

/-! ### Genesis -/

/-- The exported state of the order book; its parameters have no fields. -/
structure OrderbookGenesis where
  nextOrderIndex : ℕ := 1
  orders : List Order := []
deriving DecidableEq, Repr

/-- Write again what belongs to an order that is not closed. -/
def restoreGenesisOrderIndexes (o : Order) : Tx Unit :=
  if o.status.isResting then do
    insertEntry o.marketIndex o.isAsk o.toEntry
    indexOpenOrder o
  else if o.status = .triggeredPending then do
    addTrigger o.marketIndex o.triggerPrice o.orderIndex
    indexOpenOrder o
  else pure ()

def restoreGenesisOrder (o : Order) : Tx Unit := do
  restoreGenesisOrderIndexes o
  setOrder o

def OrderbookGenesis.init (gs : OrderbookGenesis) : Tx Unit := do
  let next := if gs.nextOrderIndex < 1 then 1 else gs.nextOrderIndex
  modifyBook fun b => { b with nextOrderIndex := next }
  gs.orders.forM restoreGenesisOrder

def exportOrderbookGenesis (s : State) : OrderbookGenesis where
  nextOrderIndex := s.book.nextOrderIndex
  orders := s.book.orders.toList

end PerpDex
