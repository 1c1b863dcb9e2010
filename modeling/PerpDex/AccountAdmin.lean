/-
The rest of `x/account`: sub-accounts, the administration of pools, parameters and genesis
(`x/account/keeper/msg_server.go`, `x/account/keeper/msg_server_publicpool.go`,
`x/account/keeper/genesis.go`, `x/account/types/genesis.go`).

Account types, margin modes and pool statuses are enumerations, so the checks of their numbers have no
counterpart.  Trading modes and the metadata of accounts are left out.
-/
import PerpDex.PublicPool
import PerpDex.MarketMsgs

namespace PerpDex

/-! ### Sub-accounts -/

/-- A new account under a master, with the owner of the master. -/
def createSubAccount (master : Account) : Tx Account := do
  Txn.require (master.accountType = .master)
    ⟨.invalidAccountType, "master is not a master account"⟩
  -- the source repeats here how the index of a pool account is found
  let idx ← allocatePoolSubAccountIndex
  let sub : Account := {
    accountIndex := idx
    masterAccountIndex := master.accountIndex
    ownerAddress := master.ownerAddress
    accountType := .sub }
  createAccount sub
  return sub

structure MsgCreateSubAccount where
  sender : String
  masterAccountIndex : ℕ

structure MsgUpdatePublicPool where
  sender : String
  poolAccountIndex : ℕ
  newStatus : PublicPoolStatus
  newOperatorFee : ℕ
  newMinOperatorShareRate : ℕ

structure MsgStrategyTransfer where
  sender : String
  poolAccountIndex : ℕ
  fromStrategy : ℕ
  toStrategy : ℕ
  amount : ℤ

structure MsgUpdateAccountParams where
  authority : String
  params : AccountParams

def AccountParams.validate (p : AccountParams) : Except Err Unit := do
  ensure (p.minPartialTransferAmount ≠ 0)
    ⟨.accountInvalidParams, "min_partial_transfer_amount must be > 0"⟩
  ensure (p.minPartialWithdrawAmount ≠ 0)
    ⟨.accountInvalidParams, "min_partial_withdraw_amount must be > 0"⟩
  ensure (¬ p.liquidityPoolCooldownPeriodMs < 0)
    ⟨.accountInvalidParams, "liquidity_pool_cooldown_period_ms must be >= 0"⟩

/-! ### Administration of pools -/

/-- The sender runs the pool; the insurance fund is run by the authority. -/
def assertPoolOperator (authority : String) (pool : Account) (sender : String) : Query Unit :=
  fun s =>
  if pool.accountType = .insuranceFund ∧ pool.accountIndex = insuranceFundOperatorAccountIdx then
    ensure (sender = authority) ⟨.unauthorized, "IF pool operator is gov authority"⟩
  else do
    let master ← getAccount pool.masterAccountIndex s
    ensure (¬ (master.ownerAddress = "" ∨ master.ownerAddress ≠ sender)) ⟨.unauthorized, ""⟩

/-- The pool is healthy and has neither orders nor positions. -/
def assertPoolEmpty (pool : Account) : Query Unit := fun s => do
  let status ← getHealthStatus pool.accountIndex s
  let rank := status.rank
  let count := pool.totalOrderCount
  ensure (status = .healthy) ⟨.poolMustBeEmpty, s!"pool not healthy (status={rank})"⟩
  ensure (count = 0) ⟨.poolMustBeEmpty, s!"pool has {count} open order(s)"⟩
  match (positionsOf s pool.accountIndex).find? fun p => decide (p.baseSize ≠ 0) with
  | some p =>
    let market := p.marketIndex
    .error ⟨.poolMustBeEmpty, s!"pool has non-zero position in market {market}"⟩
  | none => .ok ()

/-- Take an amount out of one strategy of the fund and put it into another one. -/
def moveStrategy (src dst : ℕ) (amount : ℤ) (info : PublicPoolInfo) : Except Err PublicPoolInfo :=
  -- a list of another length is filled up with zeros or cut
  let strategies := (info.strategies ++ List.replicate nbStrategies 0).take nbStrategies
  let held := strategies.getD src 0
  let credited := strategies.getD dst 0
  if held < amount then
    .error ⟨.insufficientFunds, s!"strategy[{src}] has {held}, need {amount}"⟩
  else .ok { info with
    strategies := (strategies.set src (held - amount)).set dst (credited + amount) }

section Handlers

variable [AddressCodec]

def MsgUpdatePublicPool.validateBasic (msg : MsgUpdatePublicPool) : Except Err Unit := do
  mustValidAddr msg.sender
  ensure (¬ shareTick < msg.newMinOperatorShareRate)
    ⟨.accountInvalidParams, "min_operator_share_rate must be <= ShareTick(10000)"⟩

def MsgStrategyTransfer.validateBasic (msg : MsgStrategyTransfer) : Except Err Unit := do
  let src := msg.fromStrategy
  let dst := msg.toStrategy
  mustValidAddr msg.sender
  ensure (src ≠ dst) ⟨.accountInvalidParams, "from and to strategy must differ"⟩
  ensure (¬ (nbStrategies ≤ src ∨ nbStrategies ≤ dst))
    ⟨.invalidStrategyIdx, s!"from={src} to={dst} nb_strategies={nbStrategies}"⟩
  ensure (0 < msg.amount) ⟨.accountInvalidParams, "amount must be positive"⟩

def MsgUpdateAccountParams.validateBasic (msg : MsgUpdateAccountParams) : Except Err Unit := do
  mustValidAddr msg.authority
  msg.params.validate

/-- What the operator sets in the information of its pool. -/
def MsgUpdatePublicPool.overlay (msg : MsgUpdatePublicPool) (info : PublicPoolInfo) :
    PublicPoolInfo :=
  { info with
    status := msg.newStatus
    operatorFee := msg.newOperatorFee
    minOperatorShareRate := msg.newMinOperatorShareRate }

/-- The chain has no liquidity pool if it was the given one. -/
def clearLiquidityPool (poolIdx : ℕ) : Tx Unit := Txn.write fun s =>
  if s.account.params.liquidityPoolIndex = poolIdx then
    { s with account := { s.account with
      params := { s.account.params with liquidityPoolIndex := 0 } } }
  else s

def updatePublicPool (authority : String) (msg : MsgUpdatePublicPool) : Tx Unit := do
  Txn.lift msg.validateBasic
  let pool ← Txn.read (getPoolAccount msg.poolAccountIndex)
  Txn.lift (ensureActive pool.publicPoolInfo)
  Txn.read (assertPoolOperator authority pool msg.sender)
  let info := pool.publicPoolInfo.getD {}
  let old := info.operatorFee
  let new := msg.newOperatorFee
  Txn.require (¬ old < new)
    ⟨.invalidPoolUpdate, s!"operator_fee can only decrease (old={old} new={new})"⟩
  Txn.require (checkMinOperatorShareRate
    { info with minOperatorShareRate := msg.newMinOperatorShareRate } = true)
    ⟨.operatorRateViolation, ""⟩
  Txn.when (msg.newStatus = .frozen) (Txn.read (assertPoolEmpty pool))
  updatePublicPoolInfo pool.accountIndex fun info => .ok (msg.overlay info)
  Txn.when (msg.newStatus = .frozen) (clearLiquidityPool pool.accountIndex)

def strategyTransfer (authority : String) (msg : MsgStrategyTransfer) : Tx Unit := do
  Txn.lift msg.validateBasic
  let pool ← Txn.read (getPoolAccount msg.poolAccountIndex)
  Txn.require (pool.accountType = .insuranceFund) ⟨.notInsuranceFund, ""⟩
  Txn.read (assertPoolOperator authority pool msg.sender)
  Txn.lift (ensureNotFrozen pool.publicPoolInfo)
  updatePublicPoolInfo pool.accountIndex
    (moveStrategy msg.fromStrategy msg.toStrategy msg.amount)

namespace AccountServer

def createSubAccount (msg : MsgCreateSubAccount) : Tx ℕ := do
  Txn.lift (mustValidAddr msg.sender)
  let master ← Txn.read (getAccount msg.masterAccountIndex)
  Txn.require (master.ownerAddress = msg.sender) ⟨.unauthorized, ""⟩
  Txn.require (master.accountType = .master)
    ⟨.invalidAccountType, "master is not a master account"⟩
  let sub ← PerpDex.createSubAccount master
  return sub.accountIndex

def updateParams (authority : String) (msg : MsgUpdateAccountParams) : Tx Unit := do
  Txn.lift msg.validateBasic
  Txn.require (msg.authority = authority) ⟨.invalidAuthority, ""⟩
  Txn.write fun s => { s with account := { s.account with params := msg.params } }

end AccountServer

end Handlers

/-! ### Genesis -/

structure AccountCounters where
  nextMasterAccountIndex : ℕ := firstUserMasterAccountIndex
  nextSubAccountIndex : ℕ := minSubAccountIndex
deriving DecidableEq, Repr

structure AccountGenesis where
  params : AccountParams := {}
  counters : AccountCounters := {}
  accounts : List Account := []
  accountAssets : List AccountAsset := []
  accountPositions : List AccountPosition := []

def AccountCounters.validate (c : AccountCounters) : Except Err Unit := do
  let master := c.nextMasterAccountIndex
  let sub := c.nextSubAccountIndex
  ensure (¬ maxMasterAccountIndex + 1 < master)
    ⟨.accountInvalidParams, s!"next_master_account_index={master} exceeds maximum"⟩
  ensure (¬ (sub ≠ 0 ∧ sub < minSubAccountIndex))
    ⟨.accountInvalidParams, s!"next_sub_account_index={sub} below MinSubAccountIndex"⟩
  ensure (¬ maxAccountIndex + 1 < sub)
    ⟨.accountInvalidParams, s!"next_sub_account_index={sub} exceeds maximum"⟩

/-- Pools carry their information and no other account does. -/
def Account.validatePoolInfo (a : Account) : Except Err Unit :=
  let idx := a.accountIndex
  match a.isPoolType, a.publicPoolInfo with
  | true, none => .error ⟨.invalidPoolAccount, s!"account_index={idx} missing PublicPoolInfo"⟩
  | true, some info => do
    let length := info.strategies.length
    ensure (¬ info.totalShares < 0)
      ⟨.accountInvalidParams, s!"account_index={idx} total_shares invalid"⟩
    ensure (¬ info.operatorShares < 0)
      ⟨.accountInvalidParams, s!"account_index={idx} operator_shares invalid"⟩
    ensure (length = nbStrategies) ⟨.accountInvalidParams,
      s!"account_index={idx} strategies length={length} expected={nbStrategies}"⟩
  | false, some _ =>
    .error ⟨.invalidAccountType, s!"account_index={idx} non-pool account has PublicPoolInfo"⟩
  | false, none => .ok ()

def Account.validate (a : Account) : Except Err Unit := do
  let idx := a.accountIndex
  ensure (¬ a.collateral < 0)
    ⟨.accountInvalidParams, s!"negative collateral on account_index={idx}"⟩
  a.validatePoolInfo
  ensure (¬ (a.accountType = .insuranceFund ∧ idx ≠ insuranceFundOperatorAccountIdx))
    ⟨.invalidAccountType,
      s!"insurance fund must live at account_index={insuranceFundOperatorAccountIdx}"⟩
  ensure (¬ sharesListSize < a.publicPoolShares.length)
    ⟨.accountInvalidParams, s!"account_index={idx} shares list too long"⟩

/-- Only the masters that have an owner are found by it. -/
def Account.isOwnedMaster (a : Account) : Bool :=
  decide (a.accountType = .master) && decide (a.ownerAddress ≠ "")

namespace AccountGenesis

/-- The accounts one after the other; `seen` and `owners` are the indexes and owners before. -/
def validateAccounts : List ℕ → List String → List Account → Except Err Unit
  | _, _, [] => .ok ()
  | seen, owners, a :: rest => do
    let idx := a.accountIndex
    let owner := a.ownerAddress
    ensure (idx ∉ seen) ⟨.accountExists, s!"duplicate account_index {idx}"⟩
    ensure (¬ (a.isOwnedMaster = true ∧ owner ∈ owners))
      ⟨.accountExists, s!"duplicate master owner {owner}"⟩
    a.validate
    validateAccounts (idx :: seen) (if a.isOwnedMaster then owner :: owners else owners) rest

/-- Rows one after the other, with different keys. -/
def validateRows {α : Type} (kind : String) (key : α → ℕ ×ₗ ℕ) (check : α → Except Err Unit) :
    List (ℕ ×ₗ ℕ) → List α → Except Err Unit
  | _, [] => .ok ()
  | seen, a :: rest => do
    let acc := (ofLex (key a)).1
    let idx := (ofLex (key a)).2
    ensure (key a ∉ seen) ⟨.accountInvalidParams, s!"duplicate {kind} ({acc},{idx})"⟩
    check a
    validateRows kind key check (key a :: seen) rest

def validateAsset (a : AccountAsset) : Except Err Unit :=
  let acc := a.accountIndex
  let idx := a.assetIndex
  ensure (¬ a.balance < 0) ⟨.accountInvalidParams, s!"negative balance on ({acc},{idx})"⟩

def validate (gs : AccountGenesis) : Except Err Unit := do
  gs.params.validate
  gs.counters.validate
  validateAccounts [] [] gs.accounts
  validateRows "account_asset" AccountAsset.key validateAsset [] gs.accountAssets
  validateRows "account_position" AccountPosition.key (fun _ => .ok ()) [] gs.accountPositions

def init (gs : AccountGenesis) : Tx Unit := do
  Txn.write fun s => { s with account := { s.account with params := gs.params } }
  gs.accounts.forM createAccount
  gs.accountAssets.forM setAccountAsset
  gs.accountPositions.forM setPosition
  -- counters below the first free index are raised to it
  Txn.write fun s => { s with account := { s.account with
    nextMasterIndex := max gs.counters.nextMasterAccountIndex firstUserMasterAccountIndex
    nextSubIndex := max gs.counters.nextSubAccountIndex minSubAccountIndex } }

end AccountGenesis

end PerpDex
