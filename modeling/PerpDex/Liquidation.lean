/-
The liquidation waterfall and market expiry (`x/liquidation`, `x/market/keeper/abci.go`).

* `deleverage`, `tryLLPAbsorb`, `autoADL` — close a victim against a chosen counterparty, the insurance
  fund, or ranked counterparties;
* `liquidationEndBlocker`, `marketEndBlocker` — the waterfall, and the exit of expiring markets.

Block hooks run outside a transaction: an error of a single fill is logged and the hook goes on with
what the fill had written (`Txn.attempt`).  A panic is not caught.  Where the source returns an error
after having moved the counter of fills, both are returned.
-/
import Mathlib.Data.List.Sort
import PerpDex.Takeover

namespace PerpDex

/-! ### Deleverage -/

def healthEnvelopeFor (accIdx marketIdx : ℕ) (marginMode : MarginMode) : Query Health :=
  match marginMode with
  | .isolated => getIsolatedHealthStatus accIdx marketIdx
  | .cross => getHealthStatus accIdx

/-- The classes in which the waterfall closes positions. -/
def Health.isTerminal (h : Health) : Bool := h = .fullLiquidation || h = .bankruptcy

/-- The fill by which a counterparty takes over from a victim; the victim is the maker. -/
def deleverageFill (victim deleverager marketIdx price baseAmount : ℕ) (takerIsAsk : Bool) :
    Fill where
  makerAccountIndex := victim
  takerAccountIndex := deleverager
  marketIndex := marketIdx
  price := price
  baseAmount := baseAmount
  isTakerAsk := takerIsAsk
  noFee := true
  skipTakerRiskCheck := true

/-- A pool that takes over has to be active. -/
def requireActivePool (deleverager : ℕ) (dAcc : Account) : Except Err Unit :=
  match ensureActive dAcc.publicPoolInfo with
  | .ok _ => .ok ()
  | .error _ => .error ⟨.poolFrozen, s!"deleverager pool {deleverager} is not ACTIVE"⟩

/-- A user that takes over needs an opposite position of at least the size. -/
def requireOppositePosition (pos dPos : AccountPosition) (baseAmount : ℕ) : Except Err Unit :=
  let absDeleverager := |dPos.baseSize|
  if dPos.baseSize = 0 then .error ⟨.invalidADLCounterparty, "deleverager has no position"⟩
  else if dPos.isLong = pos.isLong then
    .error ⟨.invalidADLCounterparty, "deleverager is on the same side as victim"⟩
  else if (baseAmount : ℤ) > absDeleverager then .error ⟨.invalidADLCounterparty,
    s!"base_amount={baseAmount} exceeds deleverager position size {absDeleverager}"⟩
  else .ok ()

/-- A user that took over has to be healthy afterwards. -/
def requireHealthyAfter (deleverager zeroPrice baseAmount : ℕ) : Query Unit := fun s => do
  let postCross ← computeCrossRisk deleverager s
  let tav := postCross.totalAccountValue
  let imr := postCross.initialMarginRequirement
  if postCross.healthStatus = .healthy then return ()
  else throw ⟨.invalidADLCounterparty, s!"deleverage at price={zeroPrice} size={baseAmount} would push deleverager {deleverager} out of HEALTHY (post.TAV={tav} post.IMR={imr})"⟩

def deleverage (victim marketIdx deleverager baseAmount : ℕ) : Tx Unit := do
  let snap ← Txn.read (getZeroPriceSnapshot victim marketIdx)
  let pos := snap.position
  Txn.require (pos.baseSize ≠ 0) ⟨.notLiquidatable, "victim has no position"⟩
  let status ← Txn.read (healthEnvelopeFor victim marketIdx pos.marginMode)
  let rank := status.rank
  Txn.require (status.isTerminal = true) ⟨.notBankrupt, s!"status={rank}"⟩
  Txn.require (deleverager ≠ victim) ⟨.invalidADLCounterparty, "deleverager equals victim"⟩
  Txn.require (baseAmount ≠ 0) ⟨.liquidationInvalidParams, "base_amount must be > 0"⟩
  let absVictim := |pos.baseSize|
  Txn.require (¬ (baseAmount : ℤ) > absVictim) ⟨.invalidADLCounterparty,
    s!"base_amount={baseAmount} exceeds victim position size {absVictim}"⟩
  let zeroPrice := snap.zeroPrice
  let dAcc ← Txn.read (getAccount deleverager)
  Txn.when (dAcc.isPoolType = true) (Txn.lift (requireActivePool deleverager dAcc))
  let isUser := deleverager ≠ insuranceFundOperatorAccountIdx ∧ dAcc.isPoolType = false
  Txn.when isUser (Txn.read fun s =>
    requireOppositePosition pos (getPosition s deleverager marketIdx) baseAmount)
  applyPerpsMatching
    (deleverageFill victim deleverager marketIdx zeroPrice baseAmount pos.openingIsAsk)
  Txn.when isUser (Txn.read (requireHealthyAfter deleverager zeroPrice baseAmount))

/-! ### The insurance fund -/

/-- Offer a position to the insurance fund; `true` if it took all of it. -/
def tryLLPAbsorb (victim marketIdx attemptsLeft : ℕ) : Tx Bool :=
  if attemptsLeft = 0 then pure false
  else do
    let llp ← Txn.read fun s => .ok (getAccount insuranceFundOperatorAccountIdx s)
    match llp with
    | .error _ => pure false
    | .ok llp =>
      match ensureActive llp.publicPoolInfo with
      | .error _ => pure false
      | .ok _ => do
        let snap ← Txn.read (getLiquidationRiskSnapshot victim marketIdx)
        if snap.position.baseSize = 0 then pure false
        else do
          let llpDelta := -snap.position.baseSize
          let postRP ← Txn.read (simulateRiskAfterTakeover insuranceFundOperatorAccountIdx
            marketIdx llpDelta snap.zeroPrice)
          if postRP.totalAccountValue < postRP.initialMarginRequirement then pure false
          else do
            let size ← uint64Of |snap.position.baseSize|
            deleverage victim marketIdx insuranceFundOperatorAccountIdx size
            pure true

/-! ### Automatic deleveraging -/

structure ADLCandidate where
  accountIndex : ℕ
  positionSize : ℤ
  unrealizedPnL : ℤ
  zeroPrice : ℕ
  leverage : ℤ
  score : ℤ

def computeLeverage (rp : RiskParameters) : ℤ :=
  if rp.initialMarginRequirement = 0 then 1
  else
    let collateral := if 0 < rp.collateral then rp.collateral else 1
    (rp.initialMarginRequirement * marginTick).tdiv collateral

/-- The candidate an account is on the given side of a market, if it is one. -/
def adlCandidateOf (s : State) (marketIdx : ℕ) (oppositeIsLong : Bool) (a : Account) :
    Option ADLCandidate :=
  if a.accountIndex = treasuryAccountIndex ∨ a.accountIndex = insuranceFundOperatorAccountIdx ∨
      a.isPoolType = true then none
  else
    match getLiquidationRiskSnapshot a.accountIndex marketIdx s with
    | .error _ => none
    | .ok snap =>
      let pos := snap.position
      let uPnL := pos.unrealizedPnL snap.markPrice
      if pos.baseSize = 0 then none
      else if pos.isLong ≠ oppositeIsLong then none
      else if ¬ 0 < uPnL then none
      else
        let leverage := computeLeverage snap.crossRisk
        let entryAbs := if 0 < |pos.entryQuote| then |pos.entryQuote| else 1
        let uPnLRatio := (uPnL * marginTick).tdiv entryAbs
        some {
          accountIndex := a.accountIndex
          positionSize := pos.baseSize
          unrealizedPnL := uPnL
          zeroPrice := snap.zeroPrice
          leverage := leverage
          score := leverage * uPnLRatio }

/-- Higher scores first, ties by account index. -/
def ADLCandidate.before (c c' : ADLCandidate) : Prop :=
  c.score > c'.score ∨ (c.score = c'.score ∧ c.accountIndex ≤ c'.accountIndex)

instance : DecidableRel ADLCandidate.before := by
  unfold ADLCandidate.before
  infer_instance

def buildADLQueue (marketIdx : ℕ) (oppositeIsLong : Bool) (limit : ℕ) (s : State) :
    List ADLCandidate :=
  (((accountsOf s).filterMap (adlCandidateOf s marketIdx oppositeIsLong)).insertionSort
    ADLCandidate.before).take limit

/-- Midpoint of two zero prices, rounded in favour of the victim. -/
def zeroPriceMid (a b : ℕ) (victimIsLong : Bool) : ℕ :=
  if victimIsLong then (a + b + 1) / 2 else (a + b) / 2

/-- The fill by which a ranked counterparty closes part of a victim. -/
def adlFill (victim candidate marketIdx price baseAmount : ℕ) (takerIsAsk : Bool) : Fill where
  makerAccountIndex := victim
  takerAccountIndex := candidate
  marketIndex := marketIdx
  price := price
  baseAmount := baseAmount
  isTakerAsk := takerIsAsk
  noFee := true

/-- Walk the queue.  After a fill the victim is read again; a failed fill is logged. -/
def adlLoop (victim marketIdx : ℕ) (oppositeIsLong takerIsAsk : Bool) :
    List ADLCandidate → ℕ → ℕ → ℤ → Tx (ℕ × Except Err Unit)
  | [], attemptsLeft, _, _ => pure (attemptsLeft, .ok ())
  | c :: cands, attemptsLeft, victimZP, remaining =>
    if attemptsLeft = 0 ∨ remaining = 0 then pure (attemptsLeft, .ok ())
    else if (if oppositeIsLong then victimZP < c.zeroPrice else victimZP > c.zeroPrice) then
      adlLoop victim marketIdx oppositeIsLong takerIsAsk cands attemptsLeft victimZP remaining
    else
      let settlePrice := zeroPriceMid victimZP c.zeroPrice (!oppositeIsLong)
      let size := min |c.positionSize| remaining
      if ¬ 0 < size then
        adlLoop victim marketIdx oppositeIsLong takerIsAsk cands attemptsLeft victimZP remaining
      else do
        let base ← uint64Of size
        let fill := adlFill victim c.accountIndex marketIdx settlePrice base takerIsAsk
        let done ← logged (applyPerpsMatching fill)
        match done with
        | .error _ =>
          adlLoop victim marketIdx oppositeIsLong takerIsAsk cands attemptsLeft victimZP remaining
        | .ok _ => do
          let snap ← Txn.read fun s => .ok (getLiquidationRiskSnapshot victim marketIdx s)
          match snap with
          | .error e => pure (attemptsLeft - 1, .error e)
          | .ok snap =>
            if snap.position.baseSize = 0 then pure (attemptsLeft - 1, .ok ())
            else if snap.risk.healthStatus.isTerminal = false then pure (attemptsLeft - 1, .ok ())
            else
              adlLoop victim marketIdx oppositeIsLong takerIsAsk cands (attemptsLeft - 1)
                snap.zeroPrice |snap.position.baseSize|

/-- Close a victim against ranked counterparties; returns what is left of the budget. -/
def autoADL (victim marketIdx candCap attemptsLeft : ℕ) : Tx (ℕ × Except Err Unit) :=
  if attemptsLeft = 0 then pure (attemptsLeft, .ok ())
  else do
    let snap ← Txn.read fun s => .ok (getLiquidationRiskSnapshot victim marketIdx s)
    match snap with
    | .error e => pure (attemptsLeft, .error e)
    | .ok snap =>
      let pos := snap.position
      if pos.baseSize = 0 then pure (attemptsLeft, .ok ())
      else if snap.risk.healthStatus.isTerminal = false then pure (attemptsLeft, .ok ())
      else do
        let cands ← Txn.read fun s => .ok (buildADLQueue marketIdx pos.isShort candCap s)
        adlLoop victim marketIdx pos.isShort pos.openingIsAsk cands attemptsLeft snap.zeroPrice
          |pos.baseSize|

/-! ### The waterfall -/

structure RankedPosition where
  marketIndex : ℕ
  marginMode : MarginMode
  unrealizedPnL : ℤ

/-- Lower unrealized PnL first, ties by market. -/
def RankedPosition.before (r r' : RankedPosition) : Prop :=
  r.unrealizedPnL < r'.unrealizedPnL ∨
    (r.unrealizedPnL = r'.unrealizedPnL ∧ r.marketIndex ≤ r'.marketIndex)

instance : DecidableRel RankedPosition.before := by
  unfold RankedPosition.before
  infer_instance

/-- The rank entry of a position; empty positions have none. -/
def rankedPositionOf (s : State) (pos : AccountPosition) : Except Err (Option RankedPosition) :=
  if pos.baseSize = 0 then .ok none
  else do
    let (markPrice, _) ← getMarkPriceAndDetails pos.marketIndex s
    return some {
      marketIndex := pos.marketIndex
      marginMode := pos.marginMode
      unrealizedPnL := pos.unrealizedPnL markPrice }

def rankVictimPositionsByUPnL (victim : ℕ) : Query (List RankedPosition) := fun s => do
  let rows ← (positionsOf s victim).mapM (rankedPositionOf s)
  return (rows.filterMap id).insertionSort RankedPosition.before

/-- The waterfall over the ranked positions of one account. -/
def processRanked (accountIdx candCap : ℕ) : List RankedPosition → ℕ → Tx ℕ
  | [], attemptsLeft => pure attemptsLeft
  | rp :: rest, attemptsLeft =>
    if attemptsLeft = 0 then pure attemptsLeft
    else do
      let status ← Txn.read fun s => .ok (healthEnvelopeFor accountIdx rp.marketIndex rp.marginMode s)
      match status with
      | .error _ => pure attemptsLeft
      | .ok status =>
        if status.isTerminal = false then processRanked accountIdx candCap rest attemptsLeft
        else do
          let absorbed ← logged (tryLLPAbsorb accountIdx rp.marketIndex attemptsLeft)
          match absorbed with
          | .ok true => processRanked accountIdx candCap rest (attemptsLeft - 1)
          | _ => do
            let (attemptsLeft, _) ← autoADL accountIdx rp.marketIndex candCap attemptsLeft
            processRanked accountIdx candCap rest attemptsLeft

def processAccount (accountIdx attemptsLeft candCap : ℕ) : Tx ℕ := do
  let ranked ← Txn.read fun s => .ok (rankVictimPositionsByUPnL accountIdx s)
  match ranked with
  | .error _ => pure attemptsLeft
  | .ok ranked => processRanked accountIdx candCap ranked attemptsLeft

def defaultMaxADLCandidatesPerVictim : ℕ := 16

def processAccounts (candCap : ℕ) : List Account → ℕ → Tx Unit
  | [], _ => pure ()
  | a :: rest, attemptsLeft =>
    if a.accountIndex = insuranceFundOperatorAccountIdx then processAccounts candCap rest attemptsLeft
    else do
      let attemptsLeft ← processAccount a.accountIndex attemptsLeft candCap
      processAccounts candCap rest attemptsLeft

def liquidationEndBlocker : Tx Unit := do
  let params ← Txn.read fun s => .ok s.liquidationParams
  let candCap := if params.maxAdlCandidatesPerVictim = 0 then defaultMaxADLCandidatesPerVictim
    else params.maxAdlCandidatesPerVictim
  let accounts ← Txn.read fun s => .ok (accountsOf s)
  processAccounts candCap accounts params.maxAdlAttemptsPerBlock

/-! ### Market expiry -/

/-- The fill that closes a position of an expiring market against the insurance fund. -/
def exitFill (account marketIdx price baseAmount : ℕ) (takerIsAsk : Bool) : Fill where
  makerAccountIndex := account
  takerAccountIndex := insuranceFundOperatorAccountIdx
  marketIndex := marketIdx
  price := price
  baseAmount := baseAmount
  isTakerAsk := takerIsAsk
  noFee := true
  noRiskCheck := true

def exitAccount (marketIdx closePrice : ℕ) (a : Account) : Tx Unit :=
  if a.accountIndex = insuranceFundOperatorAccountIdx then pure ()
  else do
    let pos ← Txn.read fun s => .ok (getPosition s a.accountIndex marketIdx)
    if pos.baseSize = 0 then pure ()
    else do
      let baseAmount ← uint64Of |pos.baseSize|
      let _ ← logged (applyPerpsMatching
        (exitFill a.accountIndex marketIdx closePrice baseAmount pos.openingIsAsk))

def applyExitPosition (marketIdx : ℕ) : Tx Unit := do
  let md ← Txn.read (getMarketDetails marketIdx)
  if md.markPrice = 0 then pure ()
  else do
    let accounts ← Txn.read fun s => .ok (accountsOf s)
    accounts.forM (exitAccount marketIdx md.markPrice)

/-- Whether a market waits for its expiry. -/
def Market.isIndexed (m : Market) : Bool := m.status = .active && decide (0 < m.expiryTimestamp)

def updateMarket (old m : Market) : Tx Unit := do
  Txn.write fun s => { s with market := { s.market with markets := s.market.markets.put m } }
  let expiryChanged := old.expiryTimestamp ≠ m.expiryTimestamp
  Txn.when (old.isIndexed = true ∧ (m.isIndexed = false ∨ expiryChanged)) do
    Txn.write fun s => { s with market := { s.market with
      expiryIndex := s.market.expiryIndex.remove (toLex (old.expiryTimestamp, old.marketIndex)) } }
  Txn.when (m.isIndexed = true ∧ (old.isIndexed = false ∨ expiryChanged)) do
    Txn.write fun s => { s with market := { s.market with
      expiryIndex := s.market.expiryIndex.set (toLex (m.expiryTimestamp, m.marketIndex)) () } }

/-- Mark a market expired and close its positions; a failed exit is logged. -/
def expireMarket (m : Market) : Tx Unit := do
  updateMarket m { m with status := .expired }
  let _ ← logged (applyExitPosition m.marketIndex)

/-- Walk the due entries of the expiry index until the budget is used up. -/
def iterateExpired : List (ℤ ×ₗ ℕ) → ℕ → Tx Unit
  | [], _ => pure ()
  | _, 0 => pure ()
  | key :: rest, budget + 1 => do
    let dropEntry : Tx Unit := Txn.write fun s => { s with market := { s.market with
      expiryIndex := s.market.expiryIndex.remove key } }
    let m ← Txn.read fun s => .ok (getMarket (ofLex key).2 s)
    match m with
    | .error _ => do
      dropEntry
      iterateExpired rest (budget + 1)
    | .ok m =>
      if m.status ≠ .active then do
        dropEntry
        iterateExpired rest (budget + 1)
      else do
        let visited ← logged (expireMarket m)
        match visited with
        | .error _ => iterateExpired rest (budget + 1)
        | .ok _ => iterateExpired rest budget

def marketEndBlocker : Tx Unit := do
  let budget ← Txn.read fun s => .ok s.market.params.maxMarketsExpiredPerBlock
  let due ← Txn.read fun s => .ok ((s.market.expiryIndex.range fun k =>
    decide ((ofLex k).1 ≤ s.now)).map Prod.fst)
  iterateExpired due budget

end PerpDex
