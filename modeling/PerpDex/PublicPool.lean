/-
Public pools and the insurance fund (`x/account/keeper/public_pool.go` and
`x/account/keeper/msg_server_publicpool.go`).

* `createPublicPool`, `mintShares`, `burnShares`, `forceBurnShares` — the share handlers;
* `Minted` — what a mint does to the pool, and `mintShares_minted` that the handler does it.

Main result: `redeem_le_deposit_iff`.

The account that may act for the insurance fund is the chain's governance authority, a parameter of the
keeper.  Collateral is in units `usdcToCollateralMultiplier` times finer than deposits.
-/
import PerpDex.AccountMsgs

namespace PerpDex

variable {info : PublicPoolInfo} {shares tav usdc : ℤ} {u : Unit} {isOperator : Bool}

/-! ### Shares and their value -/

/-- The pool row of an account index. -/
def getPoolInfo (poolIdx : ℕ) : Query PublicPoolInfo := fun s => do
  let pool ← getAccount poolIdx s
  match pool.publicPoolInfo with
  | some info => return info
  | none => throw ⟨.invalidPoolAccount, s!"account {poolIdx}"⟩

def sharesToUSDCValue (poolIdx : ℕ) (shareAmount : ℤ) : Query ℤ := fun s =>
  if ¬ 0 < shareAmount then .ok 0
  else do
    let info ← getPoolInfo poolIdx s
    if info.totalShares = 0 then return shareAmount * initialPoolShareValue
    else do
      let tav ← getTotalAccountValue poolIdx s
      -- the shares of an insolvent pool are worth nothing
      if ¬ 0 < tav then return 0
      else
        let denom := info.totalShares * usdcToCollateralMultiplier
        return (shareAmount * tav).tdiv denom

def usdcValueToShares (poolIdx : ℕ) (usdcAmount : ℤ) : Query ℤ := fun s =>
  if ¬ 0 < usdcAmount then .ok 0
  else do
    let info ← getPoolInfo poolIdx s
    -- the first deposit is priced without looking at what the pool already holds
    if info.totalShares = 0 then return usdcAmount.tdiv initialPoolShareValue
    else do
      let tav ← getTotalAccountValue poolIdx s
      if ¬ 0 < tav then throw ⟨.poolNotActive, "pool TAV is non-positive; mint refused"⟩
      else return (usdcAmount * info.totalShares * usdcToCollateralMultiplier).tdiv tav

def availableSharesToBurn (poolIdx : ℕ) : Query ℤ := fun s => do
  let info ← getPoolInfo poolIdx s
  if info.totalShares = 0 then return 0
  else do
    let tav ← getTotalAccountValue poolIdx s
    if ¬ 0 < tav then return 0
    else do
      let avail ← getAvailableCollateral poolIdx s
      if ¬ 0 < avail then return 0
      else return (avail * info.totalShares).tdiv tav

def checkMinOperatorShareRate (info : PublicPoolInfo) : Bool :=
  info.totalShares = 0 ||
    decide (info.totalShares * info.minOperatorShareRate ≤ info.operatorShares * shareTick)

def Account.isPoolAccount (a : Account) : Bool := a.publicPoolInfo.isSome && a.isPoolType

/-! ### Pool rows -/

/-- Change the pool information of an account; nothing is stored if that fails. -/
def updatePublicPoolInfo (idx : ℕ) (mutate : PublicPoolInfo → Except Err PublicPoolInfo) :
    Tx Unit := do
  let a ← Txn.read (getAccount idx)
  let info ← Txn.read fun s => do mutate (← getPoolInfo idx s)
  updateAccount { a with publicPoolInfo := some info }

/-- The share entry of a user in a pool, with its place in the list. -/
def findShareEntry (user : Account) (poolIdx : ℕ) : Option (PublicPoolShare × ℕ) :=
  user.publicPoolShares.zipIdx.find? fun e => e.1.publicPoolIndex == poolIdx

def upsertPublicPoolShare (masterIdx poolIdx : ℕ) (shareDelta principalDelta : ℤ)
    (entryTimestamp : ℤ) : Tx Unit := do
  let master ← Txn.read (getAccount masterIdx)
  match findShareEntry master poolIdx with
  | some (entry, i) =>
    updateAccount { master with publicPoolShares := master.publicPoolShares.set i { entry with
      shareAmount := entry.shareAmount + shareDelta
      principalAmount := entry.principalAmount + principalDelta
      entryTimestamp := entryTimestamp } }
  | none => do
    Txn.require (master.publicPoolShares.length < sharesListSize) ⟨.sharesListFull, ""⟩
    updateAccount { master with publicPoolShares := master.publicPoolShares ++ [{
      publicPoolIndex := poolIdx
      shareAmount := shareDelta
      principalAmount := principalDelta
      entryTimestamp := entryTimestamp }] }

/-- The entry of a user if it holds at least the given shares. -/
def requireShares (user : Account) (poolIdx : ℕ) (shareAmount : ℤ) :
    Except Err (PublicPoolShare × ℕ) :=
  match findShareEntry user poolIdx with
  | none => .error ⟨.insufficientShares, "depositor has no entry for this pool"⟩
  | some (entry, i) =>
    let held := entry.shareAmount
    if held < shareAmount then
      .error ⟨.insufficientShares, s!"requested {shareAmount}, have {held}"⟩
    else .ok (entry, i)

def reducePublicPoolShare (masterIdx poolIdx : ℕ) (shareAmount : ℤ) : Tx Unit := do
  let master ← Txn.read (getAccount masterIdx)
  let (entry, i) ← Txn.lift (requireShares master poolIdx shareAmount)
  let principalDelta := (entry.principalAmount * shareAmount).tdiv entry.shareAmount
  let rest := entry.shareAmount - shareAmount
  updateAccount { master with publicPoolShares :=
    if rest = 0 then master.publicPoolShares.eraseIdx i
    else master.publicPoolShares.set i { entry with
      shareAmount := rest
      principalAmount := entry.principalAmount - principalDelta } }

def allocatePoolSubAccountIndex : Tx ℕ := do
  let next ← Txn.read fun s => .ok s.account.nextSubIndex
  -- a counter below the reserved floor jumps to the floor
  let idx := max next minSubAccountIndex
  Txn.write fun s => { s with account := { s.account with nextSubIndex := idx + 1 } }
  Txn.require (¬ maxAccountIndex < idx) ⟨.accountIndexExceed, s!"sub idx={idx}"⟩
  return idx

/-! ### Messages -/

structure MsgCreatePublicPool where
  sender : String
  masterAccountIndex : ℕ
  accountType : AccountType
  initialTotalShares : ℕ
  operatorFee : ℕ
  minOperatorShareRate : ℕ

structure MsgMintShares where
  sender : String
  poolAccountIndex : ℕ
  principalAmount : ℕ

structure MsgBurnShares where
  sender : String
  poolAccountIndex : ℕ
  shareAmount : ℤ

structure MsgForceBurnShares where
  authority : String
  poolAccountIndex : ℕ
  depositorAccountIndex : ℕ
  shareAmount : ℤ

section Handlers

variable [AddressCodec]

def MsgCreatePublicPool.validateBasic (msg : MsgCreatePublicPool) : Except Err Unit := do
  mustValidAddr msg.sender
  if msg.initialTotalShares = 0 then
    throw ⟨.accountInvalidParams, "initial_total_shares must be > 0"⟩
  else if msg.accountType ≠ .publicPool then
    throw ⟨.invalidAccountType, "account_type must be PUBLIC_POOL(2); IF pool is genesis-only"⟩
  else if feeTick ≤ msg.operatorFee then
    throw ⟨.accountInvalidParams, "operator_fee must be < FeeTick(1000000)"⟩
  else if shareTick < msg.minOperatorShareRate then
    throw ⟨.accountInvalidParams, "min_operator_share_rate must be <= ShareTick(10000)"⟩

def MsgMintShares.validateBasic (msg : MsgMintShares) : Except Err Unit := do
  mustValidAddr msg.sender
  if msg.principalAmount = 0 then throw ⟨.amountTooSmall, ""⟩

/-- The check `MsgBurnShares` and `MsgForceBurnShares` share. -/
def validateBurn (signer : String) (shareAmount : ℤ) : Except Err Unit := do
  mustValidAddr signer
  if ¬ 0 < shareAmount then throw ⟨.accountInvalidParams, "share_amount must be positive"⟩

def MsgBurnShares.validateBasic (msg : MsgBurnShares) : Except Err Unit :=
  validateBurn msg.sender msg.shareAmount

def MsgForceBurnShares.validateBasic (msg : MsgForceBurnShares) : Except Err Unit :=
  validateBurn msg.authority msg.shareAmount

/-! ### Handlers -/

omit [AddressCodec] in
def getPoolAccount (idx : ℕ) : Query Account := fun s => do
  let pool ← getAccount idx s
  if pool.isPoolAccount then return pool else throw ⟨.invalidPoolAccount, ""⟩

def resolveSenderMaster (sender : String) : Query Account := fun s =>
  match getMasterAccountByOwner sender s with
  | .ok a => .ok a
  | .error e =>
    let text := e.detail
    .error ⟨.accountNotFound, s!"sender has no perpdex account: {text}: account not found"⟩

/-- Whether the sender runs the pool; the insurance fund is run by the authority. -/
def isPoolOperator (authority : String) (pool : Account) (sender : String) : Query Bool := fun s =>
  if pool.accountType = .insuranceFund ∧ pool.accountIndex = insuranceFundOperatorAccountIdx then
    .ok (decide (sender = authority))
  else do
    let master ← getAccount pool.masterAccountIndex s
    if master.ownerAddress = "" then return false
    else return decide (master.ownerAddress = sender)

/-- An account has at least the given collateral. -/
def requireCollateral (a : Account) (need : ℤ) : Tx Unit :=
  let held := a.collateral
  Txn.require (¬ held < need) ⟨.insufficientFunds, s!"need {need}, have {held}"⟩

def createPublicPool (msg : MsgCreatePublicPool) : Tx ℕ := do
  Txn.lift msg.validateBasic
  let master ← Txn.read (getAccount msg.masterAccountIndex)
  Txn.require (master.ownerAddress ≠ "" ∧ master.ownerAddress = msg.sender) ⟨.unauthorized, ""⟩
  Txn.require (master.accountType = .master) ⟨.invalidAccountType, "master is not a master account"⟩
  let seedCollat : ℤ := msg.initialTotalShares * initialPoolShareValue * usdcToCollateralMultiplier
  requireCollateral master seedCollat
  underRiskGate master.accountIndex (settleAllPositionFunding master.accountIndex) do
    let idx ← allocatePoolSubAccountIndex
    createAccount {
      accountIndex := idx
      masterAccountIndex := master.accountIndex
      ownerAddress := master.ownerAddress
      accountType := .publicPool
      collateral := seedCollat
      publicPoolInfo := some {
        operatorFee := msg.operatorFee
        minOperatorShareRate := msg.minOperatorShareRate
        totalShares := msg.initialTotalShares
        operatorShares := msg.initialTotalShares
        strategies := List.replicate nbStrategies 0 } }
    addCollateral master.accountIndex (-seedCollat)
    return idx

/-- What a mint does to the pool's information; only the operator's own mint may leave the operator
below its floor. -/
def mintInfo (isOperator : Bool) (shareAmount : ℤ) (info : PublicPoolInfo) :
    Except Err PublicPoolInfo :=
  let info := { info with totalShares := info.totalShares + shareAmount }
  if isOperator then .ok { info with operatorShares := info.operatorShares + shareAmount }
  else if checkMinOperatorShareRate info then .ok info
  else .error ⟨.operatorRateViolation, ""⟩

/-- The writes of a mint. -/
def moveMint (isOperator : Bool) (masterIdx poolIdx : ℕ) (usdc shareAmount : ℤ) : Tx ℤ := do
  let collatDelta := usdc * usdcToCollateralMultiplier
  addCollateral masterIdx (-collatDelta)
  addCollateral poolIdx collatDelta
  updatePublicPoolInfo poolIdx (mintInfo isOperator shareAmount)
  Txn.when (isOperator = false) do
    let now ← Txn.read fun s => .ok s.now
    upsertPublicPoolShare masterIdx poolIdx shareAmount usdc now
  return shareAmount

def mintShares (authority : String) (msg : MsgMintShares) : Tx ℤ := do
  Txn.lift msg.validateBasic
  let pool ← Txn.read (getPoolAccount msg.poolAccountIndex)
  Txn.lift (ensureActive pool.publicPoolInfo)
  let master ← Txn.read (resolveSenderMaster msg.sender)
  let isOperator ← Txn.read (isPoolOperator authority pool msg.sender)
  let usdc : ℤ := msg.principalAmount
  requireCollateral master (usdc * usdcToCollateralMultiplier)
  let shareAmount ← Txn.read (usdcValueToShares pool.accountIndex usdc)
  Txn.require (0 < shareAmount) ⟨.accountInvalidParams, "computed share amount is zero"⟩
  underRiskGate master.accountIndex (settleAllPositionFunding master.accountIndex)
    (moveMint isOperator master.accountIndex pool.accountIndex usdc shareAmount)

/-! ### Redeeming -/

/-- Shares of a redemption that go to the operator as its part of the profit. -/
def operatorFeeSharesOf (poolIdx : ℕ) (info : PublicPoolInfo) (entry : PublicPoolShare)
    (shareAmount usdcValue : ℤ) : Query ℤ := fun s =>
  let usdcPaid := (entry.principalAmount * shareAmount).tdiv entry.shareAmount
  if usdcValue > usdcPaid ∧ 0 < info.operatorFee then do
    let tav ← getTotalAccountValue poolIdx s
    let profit := usdcValue - usdcPaid
    let num := profit * info.operatorFee * info.totalShares * usdcToCollateralMultiplier
    let denom := feeTick * tav
    return if 0 < tav then min (num.tdiv denom) shareAmount else 0
  else .ok 0

/-- What a redemption does to the pool's information. -/
def burnInfo (isOperator frozen : Bool) (shareAmount burnedShares operatorFeeShares : ℤ)
    (info : PublicPoolInfo) : Except Err PublicPoolInfo :=
  let info := { info with
    totalShares := info.totalShares - burnedShares
    operatorShares := if isOperator then info.operatorShares - shareAmount
      else info.operatorShares + operatorFeeShares }
  if frozen = false ∧ checkMinOperatorShareRate info = false then
    .error ⟨.operatorRateViolation, ""⟩
  else .ok info

/-- Where the shares of a redemption come from: an entry of the depositor, or, for the
operator, the pool itself. -/
def burnedEntry (info : PublicPoolInfo) (poolIdx : ℕ) (depositor : Account) (isOperator : Bool)
    (shareAmount : ℤ) : Except Err (Option PublicPoolShare) :=
  if isOperator then
    if info.operatorShares < shareAmount then
      .error ⟨.insufficientShares, "operator shares insufficient"⟩
    else .ok none
  else do
    let (entry, _) ← requireShares depositor poolIdx shareAmount
    return some entry

/-- Shares of the liquidity pool stay for a while after the last mint. -/
def requireCooldown (poolIdx : ℕ) (entry : PublicPoolShare) : Query Unit := fun s =>
  let params := s.account.params
  let earliest := entry.entryTimestamp + params.liquidityPoolCooldownPeriodMs
  let now := s.now
  if params.liquidityPoolIndex = poolIdx ∧ 0 < params.liquidityPoolCooldownPeriodMs ∧
      now < earliest then
    .error ⟨.cooldownNotElapsed, s!"earliest_burn_at_ms={earliest} now_ms={now}"⟩
  else .ok ()

def burnSharesCore (pool depositor : Account) (isOperator : Bool) (shareAmount : ℤ)
    (skipCooldown : Bool) : Tx ℕ := do
  Txn.require (pool.isPoolAccount = true) ⟨.invalidPoolAccount, ""⟩
  -- both statuses allow a redemption
  let poolIdx := pool.accountIndex
  let info := pool.publicPoolInfo.getD {}
  let available ← Txn.read (availableSharesToBurn poolIdx)
  Txn.require (¬ available < shareAmount) ⟨.insufficientShares,
    s!"requested {shareAmount} exceeds available burn cap {available}"⟩
  let entry ← Txn.lift (burnedEntry info poolIdx depositor isOperator shareAmount)
  Txn.read fun s => match entry with
    | some entry => if skipCooldown then .ok () else requireCooldown poolIdx entry s
    | none => .ok ()
  let usdcValue ← Txn.read (sharesToUSDCValue poolIdx shareAmount)
  Txn.require (0 < usdcValue) ⟨.accountInvalidParams, "computed redeem usdc is zero"⟩
  let operatorFeeShares ← Txn.read fun s => match entry with
    | some entry => operatorFeeSharesOf poolIdx info entry shareAmount usdcValue s
    | none => .ok 0
  let burnedShares := shareAmount - operatorFeeShares
  let deliveredUSDC := (usdcValue * burnedShares).tdiv shareAmount
  let deliveredCollat := deliveredUSDC * usdcToCollateralMultiplier
  updatePublicPoolInfo poolIdx (burnInfo isOperator (decide (info.status = .frozen)) shareAmount
    burnedShares operatorFeeShares)
  addCollateral poolIdx (-deliveredCollat)
  addCollateral depositor.accountIndex deliveredCollat
  Txn.when (isOperator = false) (reducePublicPoolShare depositor.accountIndex poolIdx shareAmount)
  uint64Of deliveredUSDC

def burnShares (authority : String) (msg : MsgBurnShares) : Tx ℕ := do
  Txn.lift msg.validateBasic
  let pool ← Txn.read (getPoolAccount msg.poolAccountIndex)
  let depositor ← Txn.read (resolveSenderMaster msg.sender)
  let isOperator ← Txn.read (isPoolOperator authority pool msg.sender)
  burnSharesCore pool depositor isOperator msg.shareAmount false

/-- Redemption forced by the authority on the liquidity pool; it skips the cooldown. -/
def forceBurnShares (authority : String) (msg : MsgForceBurnShares) : Tx ℕ := do
  Txn.lift msg.validateBasic
  Txn.require (msg.authority = authority) ⟨.invalidAuthority, ""⟩
  let pool ← Txn.read (getPoolAccount msg.poolAccountIndex)
  Txn.require (pool.accountType = .insuranceFund) ⟨.notInsuranceFund, ""⟩
  let params ← Txn.read fun s => .ok s.account.params
  Txn.require (params.liquidityPoolIndex = msg.poolAccountIndex)
    ⟨.invalidPoolUpdate, "pool is not the canonical LLP"⟩
  let depositor ← Txn.read fun s => match getAccount msg.depositorAccountIndex s with
    | .ok a => .ok a
    | .error e =>
      let text := e.detail
      .error ⟨.invalidDepositorIndex, s!"{text}: account not found"⟩
  burnSharesCore pool depositor false msg.shareAmount true

end Handlers

/-! ### What a mint does to the pool -/

/-- A mint as the pool sees it: collateral and shares are added, its positions and the marks
stay. -/
structure Minted (poolIdx : ℕ) (usdc shares : ℤ) (s t : State) : Prop where
  account : ∀ a info, s.account.accounts.get poolIdx = some a → a.publicPoolInfo = some info →
    ∃ a' info', t.account.accounts.get poolIdx = some a' ∧
      a'.collateral = a.collateral + usdc * usdcToCollateralMultiplier ∧
      a'.publicPoolInfo = some info' ∧ info'.totalShares = info.totalShares + shares
  position : ∀ m, getPosition t poolIdx m = getPosition s poolIdx m
  marks : SameMarks s t

variable {s t : State} {poolIdx : ℕ}

theorem getPoolInfo_eq_ok :
    getPoolInfo poolIdx s = .ok info ↔
      ∃ a, s.account.accounts.get poolIdx = some a ∧ a.publicPoolInfo = some info := by
  rw [getPoolInfo, Txn.except_bind_ok]
  refine exists_congr fun a => ?_
  rw [getAccount_eq_ok]
  rcases a.publicPoolInfo with _ | info'
  · simp [throw, throwThe, MonadExceptOf.throw]
  · simp [pure, Except.pure]

theorem getTotalAccountValue_eq_ok {acc : ℕ} :
    getTotalAccountValue acc s = .ok tav ↔
      ∃ rp, computeCrossRisk acc s = .ok rp ∧ rp.totalAccountValue = tav := by
  rw [getTotalAccountValue, Txn.except_bind_ok]
  simp [pure, Except.pure]

theorem Minted.getPoolInfo (h : Minted poolIdx usdc shares s t)
    (hinfo : getPoolInfo poolIdx s = .ok info) :
    ∃ info', PerpDex.getPoolInfo poolIdx t = .ok info' ∧
      info'.totalShares = info.totalShares + shares := by
  obtain ⟨a, ha, hsome⟩ := getPoolInfo_eq_ok.mp hinfo
  obtain ⟨a', info', ha', -, hsome', htotal⟩ := h.account a info ha hsome
  exact ⟨info', getPoolInfo_eq_ok.mpr ⟨a', ha', hsome'⟩, htotal⟩

theorem Minted.computeCrossRisk (h : Minted poolIdx usdc shares s t)
    (hinfo : PerpDex.getPoolInfo poolIdx s = .ok info) {rp : RiskParameters}
    (hrp : computeCrossRisk poolIdx s = .ok rp) :
    PerpDex.computeCrossRisk poolIdx t = .ok { rp with
      collateral := rp.collateral + usdc * usdcToCollateralMultiplier
      collateralWithFunding := rp.collateralWithFunding + usdc * usdcToCollateralMultiplier
      totalAccountValue := rp.totalAccountValue + usdc * usdcToCollateralMultiplier } := by
  obtain ⟨a₀, ha₀, hsome⟩ := getPoolInfo_eq_ok.mp hinfo
  refine computeCrossRisk_credit ?_ ?_ ?_ hrp
  · intro a ha
    cases ha₀.symm.trans ha
    obtain ⟨a', info', ha', hcollateral, -, -⟩ := h.account a₀ info ha hsome
    exact ⟨a', ha', hcollateral⟩
  · intro hok
    refine hok.congr h.marks fun m hopen => ?_
    rwa [h.position] at hopen
  · intro f
    refine crossSum_congr fun m => ?_
    rw [crossTerm_congr h.marks, h.position]

theorem Minted.getTotalAccountValue (h : Minted poolIdx usdc shares s t)
    (hinfo : PerpDex.getPoolInfo poolIdx s = .ok info)
    (htav : getTotalAccountValue poolIdx s = .ok tav) :
    PerpDex.getTotalAccountValue poolIdx t
      = .ok (tav + usdc * usdcToCollateralMultiplier) := by
  obtain ⟨rp, hrp, rfl⟩ := getTotalAccountValue_eq_ok.mp htav
  exact getTotalAccountValue_eq_ok.mpr ⟨_, h.computeCrossRisk hinfo hrp, rfl⟩

/-! ### The handler mints -/

theorem addCollateral_ok {idx : ℕ} {delta : ℤ} (h : (addCollateral idx delta).run s = .ok u t) :
    ∃ a, s.account.accounts.get idx = some a ∧ t = s.putAccount (a.credit delta) := by
  rw [addCollateral_run] at h
  cases ha : s.account.accounts.get idx with
  | none =>
    rw [ha] at h
    simp at h
  | some a =>
    rw [ha] at h
    exact ⟨a, rfl, (EStateM.Result.ok.inj h).2.symm⟩

theorem updatePublicPoolInfo_ok {idx : ℕ} {mutate : PublicPoolInfo → Except Err PublicPoolInfo}
    (h : (updatePublicPoolInfo idx mutate).run s = .ok u t) :
    ∃ a info info', s.account.accounts.get idx = some a ∧ a.publicPoolInfo = some info ∧
      mutate info = .ok info' ∧ t = s.putAccount { a with publicPoolInfo := some info' } := by
  simp only [updatePublicPoolInfo, updateAccount, Txn.run_bind_ok, Txn.run_read_ok,
    Txn.except_bind_ok, getPoolInfo_eq_ok, getAccount_eq_ok, Txn.run_write,
    EStateM.Result.ok.injEq] at h
  obtain ⟨a, _, ⟨ha, rfl⟩, info', s₀, ⟨⟨info, ⟨a', ha', hsome⟩, hmut⟩, rfl⟩, -, ht⟩ := h
  cases ha.symm.trans ha'
  exact ⟨a, info, info', ha, hsome, hmut, ht.symm⟩

theorem upsertPublicPoolShare_ok {masterIdx : ℕ} {principal time : ℤ}
    (h : (upsertPublicPoolShare masterIdx poolIdx shares principal time).run s = .ok u t) :
    ∃ r : Account, r.accountIndex = masterIdx ∧ t = s.putAccount r := by
  rw [upsertPublicPoolShare, Txn.run_bind_ok] at h
  obtain ⟨master, s₁, hread, h⟩ := h
  obtain ⟨hget, rfl⟩ := Txn.run_read_ok.mp hread
  have hidx : master.accountIndex = masterIdx := Table.key_of_get (getAccount_eq_ok.mp hget)
  split at h
  · refine ⟨_, ?_, (EStateM.Result.ok.inj h).2.symm⟩
    exact hidx
  · simp only [updateAccount, Txn.run_bind_ok, Txn.run_require_ok, Txn.run_write,
      EStateM.Result.ok.injEq] at h
    obtain ⟨_, s₂, ⟨-, rfl⟩, -, ht⟩ := h
    refine ⟨_, ?_, ht.symm⟩
    exact hidx

theorem mintInfo_ok {info' : PublicPoolInfo} (h : mintInfo isOperator shares info = .ok info') :
    info'.totalShares = info.totalShares + shares := by
  rw [mintInfo] at h
  dsimp only at h
  split at h
  · rw [← Except.ok.inj h]
  · split at h
    · rw [← Except.ok.inj h]
    · simp at h

theorem moveMint_ok {masterIdx : ℕ} {r : ℤ} (hne : masterIdx ≠ poolIdx)
    (h : (moveMint isOperator masterIdx poolIdx usdc shares).run s = .ok r t) :
    r = shares ∧ Minted poolIdx usdc shares s t := by
  simp only [moveMint, Txn.run_bind_ok, Txn.run_pure_ok] at h
  obtain ⟨_, s₁, hdebit, _, s₂, hcredit, _, s₃, hinfo, _, s₄, hshare, rfl, rfl⟩ := h
  obtain ⟨am, ham, rfl⟩ := addCollateral_ok hdebit
  obtain ⟨ap, hap, rfl⟩ := addCollateral_ok hcredit
  obtain ⟨ap', info, info', hap', hsome, hmint, rfl⟩ := updatePublicPoolInfo_ok hinfo
  have hmaster : am.accountIndex = masterIdx := Table.key_of_get ham
  have hpool : ap.accountIndex = poolIdx := Table.key_of_get hap
  -- the pool's row before, after the credit, and after the shares were added
  have hbefore : s.account.accounts.get poolIdx = some ap := by
    rw [State.putAccount, Table.get_put, if_neg] at hap
    · exact hap
    · rw [Account.credit, hmaster]
      exact hne.symm
  obtain rfl : ap.credit (usdc * usdcToCollateralMultiplier) = ap' := by
    have hkey : poolIdx = (ap.credit (usdc * usdcToCollateralMultiplier)).accountIndex := hpool.symm
    rw [State.putAccount, Table.get_put, if_pos hkey] at hap'
    exact Option.some.inj hap'
  -- the share entry, if there is one, goes to the depositor's row
  have hrow : t.account.accounts.get poolIdx = some
      { ap.credit (usdc * usdcToCollateralMultiplier) with publicPoolInfo := some info' } ∧
      SamePositions poolIdx s t ∧ SameMarks s t := by
    rw [Txn.run_when] at hshare
    split at hshare
    · rw [Txn.run_bind_ok] at hshare
      obtain ⟨now, s₅, hread, hupsert⟩ := hshare
      obtain ⟨-, rfl⟩ := Txn.run_read_ok.mp hread
      obtain ⟨r', hr', rfl⟩ := upsertPublicPoolShare_ok hupsert
      refine ⟨?_, fun m => rfl, ⟨rfl, rfl, fun _ => rfl⟩⟩
      rw [State.putAccount, Table.get_put, if_neg (hr' ▸ hne.symm)]
      exact hpool ▸ Table.get_put_self _ _
    · cases hshare
      exact ⟨hpool ▸ Table.get_put_self _ _, fun m => rfl, ⟨rfl, rfl, fun _ => rfl⟩⟩
  obtain ⟨hafter, hpositions, hmarks⟩ := hrow
  refine ⟨rfl, ⟨fun a info₀ ha hsome₀ => ?_, hpositions, hmarks⟩⟩
  cases hbefore.symm.trans ha
  cases hsome.symm.trans hsome₀
  exact ⟨_, info', hafter, rfl, rfl, mintInfo_ok hmint⟩

/-- **The mint handler mints**, if the sender's master account is not the pool itself. -/
theorem mintShares_minted [AddressCodec] {authority : String} {msg : MsgMintShares}
    (hne : ∀ master, getMasterAccountByOwner msg.sender s = .ok master →
      master.accountIndex ≠ msg.poolAccountIndex)
    (h : (mintShares authority msg).run s = .ok shares t) :
    usdcValueToShares msg.poolAccountIndex msg.principalAmount s = .ok shares ∧ 0 < shares ∧
      Minted msg.poolAccountIndex msg.principalAmount shares s t := by
  simp only [mintShares, requireCollateral, Txn.run_bind_ok, Txn.run_read_ok, Txn.run_lift_ok,
    Txn.run_require_ok] at h
  obtain ⟨_, _, ⟨-, rfl⟩, pool, _, ⟨hpool, rfl⟩, _, _, ⟨-, rfl⟩, master, _, ⟨hmaster, rfl⟩,
    isOperator, _, ⟨-, rfl⟩, _, _, ⟨-, rfl⟩, amount, _, ⟨hamount, rfl⟩, _, s₀, ⟨hpos, rfl⟩, hgate⟩ := h
  have hidx : pool.accountIndex = msg.poolAccountIndex := by
    rw [getPoolAccount, Txn.except_bind_ok] at hpool
    obtain ⟨a, ha, hret⟩ := hpool
    split at hret
    · rw [← Except.ok.inj hret]
      exact Table.key_of_get (getAccount_eq_ok.mp ha)
    · simp [throw, throwThe, MonadExceptOf.throw] at hret
  have hsender : master.accountIndex ≠ msg.poolAccountIndex := by
    refine hne master ?_
    rw [resolveSenderMaster] at hmaster
    split at hmaster
    · rename_i a ha
      rw [ha, Except.ok.inj hmaster]
    · simp at hmaster
  obtain ⟨_, s₁, _, hsettle, -, hmove, -⟩ := underRiskGate_ok hgate
  rw [hidx] at hamount hmove
  obtain ⟨rfl, hminted⟩ := moveMint_ok hsender hmove
  refine ⟨hamount, hpos, ?_⟩
  -- settling the depositor's funding does not touch the pool
  have hsettled := (settleAllPositionFunding_keeps _).ok hsettle
  have hsame := (settleAllPositionFunding_samePositions hsender.symm).ok hsettle
  refine ⟨fun a info ha => hminted.account a info (by rwa [hsettled.accounts]), fun m => ?_, ?_⟩
  · rw [hminted.position, hsame m]
  · refine SameMarks.trans ?_ hminted.marks
    rw [hsettled.frame]
    exact ⟨rfl, rfl, fun _ => rfl⟩

/-! ### The value of minted shares -/

theorem sharesToUSDCValue_eq
    (hinfo : getPoolInfo poolIdx s = .ok info) (htav : getTotalAccountValue poolIdx s = .ok tav)
    (hpos : 0 < shares) (hT : info.totalShares ≠ 0) :
    sharesToUSDCValue poolIdx shares s = .ok (if 0 < tav then
      (shares * tav).tdiv (info.totalShares * usdcToCollateralMultiplier) else 0) := by
  rw [sharesToUSDCValue, if_neg (not_not.mpr hpos), hinfo, htav]
  simp only [bind, Except.bind, hT, if_false]
  by_cases hsolvent : 0 < tav
  · rw [if_neg (not_not.mpr hsolvent), if_pos hsolvent]
    rfl
  · rw [if_pos hsolvent, if_neg hsolvent]
    rfl

theorem usdcValueToShares_ok
    (hinfo : getPoolInfo poolIdx s = .ok info) (htav : getTotalAccountValue poolIdx s = .ok tav)
    (h : usdcValueToShares poolIdx usdc s = .ok shares) (hpos : 0 < shares) :
    0 < usdc ∧ (info.totalShares = 0 ∨ (info.totalShares ≠ 0 ∧ 0 < tav ∧
      shares = (usdc * info.totalShares * usdcToCollateralMultiplier).tdiv tav)) := by
  rw [usdcValueToShares, hinfo, htav] at h
  by_cases husdc : 0 < usdc
  · refine ⟨husdc, ?_⟩
    rw [if_neg (not_not.mpr husdc)] at h
    by_cases hT : info.totalShares = 0
    · exact Or.inl hT
    · simp only [bind, Except.bind, hT, if_false] at h
      split at h
      · simp [throw, throwThe, MonadExceptOf.throw] at h
      · rename_i htav'
        exact Or.inr ⟨hT, not_not.mp htav', (Except.ok.inj h).symm⟩
  · rw [if_pos husdc] at h
    rw [← Except.ok.inj h] at hpos
    exact absurd hpos (lt_irrefl 0)

theorem operatorFeeSharesOf_mem {entry : PublicPoolShare}
    {value fee : ℤ} (hshares : 0 ≤ shares) (hT : 0 ≤ info.totalShares)
    (h : operatorFeeSharesOf poolIdx info entry shares value s = .ok fee) :
    0 ≤ fee ∧ fee ≤ shares := by
  rw [operatorFeeSharesOf] at h
  dsimp only at h
  split at h
  · rename_i hprofit
    rw [Txn.except_bind_ok] at h
    obtain ⟨tav, -, hfee⟩ := h
    rw [← Except.ok.inj hfee]
    split
    · rename_i htav
      refine ⟨le_min (Int.tdiv_nonneg ?_ ?_) hshares, min_le_right _ _⟩
      · have hgain := sub_nonneg.mpr hprofit.1.le
        have hmult : 0 ≤ usdcToCollateralMultiplier := by decide
        exact mul_nonneg (mul_nonneg (mul_nonneg hgain (Int.natCast_nonneg _)) hT) hmult
      · exact mul_nonneg (by decide) htav.le
    · exact ⟨le_refl 0, hshares⟩
  · rw [← Except.ok.inj h]
    exact ⟨le_refl 0, hshares⟩

theorem burnSharesCore_paid {pool depositor : Account} {skipCooldown : Bool} {paid : ℕ}
    (hpos : 0 < shares)
    (hT : 0 ≤ (pool.publicPoolInfo.getD {}).totalShares)
    (h : (burnSharesCore pool depositor isOperator shares skipCooldown).run s = .ok paid t) :
    ∃ value, sharesToUSDCValue pool.accountIndex shares s = .ok value ∧ (paid : ℤ) ≤ value := by
  simp only [burnSharesCore, uint64Of, Txn.run_bind_ok, Txn.run_read_ok, Txn.run_lift_ok,
    Txn.run_require_ok, Txn.run_pure_ok] at h
  obtain ⟨_, _, ⟨-, rfl⟩, available, _, ⟨-, rfl⟩, _, _, ⟨-, rfl⟩, entry, _, ⟨-, rfl⟩, _, _,
    ⟨-, rfl⟩, value, _, ⟨hvalue, rfl⟩, _, _, ⟨hvaluePos, rfl⟩, fee, s₀, ⟨hfee, rfl⟩, _, _, -, _, _, -,
    _, _, -, _, _, -, _, _, ⟨hword, -⟩, rfl, -⟩ := h
  refine ⟨value, hvalue, ?_⟩
  obtain ⟨hfee₀, hfee₁⟩ : 0 ≤ fee ∧ fee ≤ shares := by
    rcases entry with _ | entry
    · rw [← Except.ok.inj hfee]
      exact ⟨le_refl 0, hpos.le⟩
    · exact operatorFeeSharesOf_mem hpos.le hT hfee
  have hnum : 0 ≤ value * (shares - fee) := mul_nonneg hvaluePos.le (sub_nonneg.mpr hfee₁)
  rw [Int.toNat_of_nonneg hword.1, Arith.tdiv_le_iff hnum hpos]
  nlinarith

/-- **Round trip through a pool.**  Shares minted for a deposit are worth at most the deposit
exactly when the pool had shares before or was worth less than one unit; redeeming them pays
at most that worth. -/
theorem redeem_le_deposit_iff {info : PublicPoolInfo} {usdc shares tav : ℤ}
    (hinfo : getPoolInfo poolIdx s = .ok info) (hT : 0 ≤ info.totalShares)
    (htav : getTotalAccountValue poolIdx s = .ok tav)
    (hshares : usdcValueToShares poolIdx usdc s = .ok shares) (hpos : 0 < shares)
    (hmint : Minted poolIdx usdc shares s t) :
    ∃ value, sharesToUSDCValue poolIdx shares t = .ok value ∧
      (value ≤ usdc ↔ 0 < info.totalShares ∨ tav < usdcToCollateralMultiplier) ∧
      ∀ pool depositor isOperator skipCooldown paid t',
        t.account.accounts.get poolIdx = some pool →
        (burnSharesCore pool depositor isOperator shares skipCooldown).run t = .ok paid t' →
        (paid : ℤ) ≤ value := by
  obtain ⟨info', hinfo', htotal⟩ := hmint.getPoolInfo hinfo
  have htav' := hmint.getTotalAccountValue hinfo htav
  obtain ⟨husdc, hcase⟩ := usdcValueToShares_ok hinfo htav hshares hpos
  have hM : 0 < usdcToCollateralMultiplier := by decide
  have hT' : info'.totalShares ≠ 0 := by omega
  have hvalue := sharesToUSDCValue_eq hinfo' htav' hpos hT'
  rw [htotal] at hvalue
  refine ⟨_, hvalue, ?_, ?_⟩
  · rcases hcase with hzero | ⟨hne, htavPos, rfl⟩
    · -- the first deposit: its shares are all there are
      rw [hzero, zero_add]
      split
      · rename_i hsolvent
        simp only [Arith.redeem_first_le_iff hpos hM hsolvent, lt_irrefl, false_or]
      · rename_i hinsolvent
        have hlt : tav < usdcToCollateralMultiplier := by nlinarith
        simp only [husdc.le, hlt, or_true]
    · have hTpos : 0 < info.totalShares := by omega
      have hsolvent : 0 < tav + usdc * usdcToCollateralMultiplier := by positivity
      rw [if_pos hsolvent]
      have hle := Arith.redeem_le_of_priced hTpos htavPos hM husdc.le
      simp only [hle, hTpos, true_or]
  · intro pool depositor isOperator skipCooldown paid t' hpool hburn
    obtain ⟨pool', hpool', hsome⟩ := getPoolInfo_eq_ok.mp hinfo'
    obtain rfl : pool' = pool := Option.some.inj (hpool'.symm.trans hpool)
    have hTpool : 0 ≤ (pool'.publicPoolInfo.getD {}).totalShares := by
      rw [hsome, Option.getD_some]
      omega
    obtain ⟨value', hvalue', hle⟩ := burnSharesCore_paid hpos hTpool hburn
    rw [Table.key_of_get hpool, hvalue] at hvalue'
    rw [Except.ok.inj hvalue']
    exact hle

/-- The insurance fund with the given collateral and shares, and a user with collateral. -/
def fundAndUser (collateral totalShares : ℤ) : State where
  account := {
    accounts := Table.ofRows [{ accountIndex := 0 },
      { accountIndex := 1, accountType := .insuranceFund, collateral := collateral,
        publicPoolInfo := some { totalShares := totalShares, operatorShares := totalShares } },
      { accountIndex := 2, ownerAddress := "alice", collateral := 10 ^ 10 }]
    ownerToIndex := KVStore.empty.set "alice" 2 }

/-- A deposit of 2000 units by the user. -/
def aliceMints : MsgMintShares := ⟨"alice", 1, 2000⟩

theorem redeem_le_deposit_iff_priced_pool :
    let _ := AddressCodec.acceptAll
    let s := fundAndUser (6 * 10 ^ 9) 4
    let t := Txn.after (mintShares "gov" aliceMints) s
    ∃ shares value, Txn.value (mintShares "gov" aliceMints) s = some shares ∧
      sharesToUSDCValue 1 shares t = .ok value ∧ value ≤ 2000 := by
  intro _ s t
  have hvalue : Txn.value (mintShares "gov" aliceMints) s = some 1 := by decide +kernel
  have hne : ∀ master, getMasterAccountByOwner aliceMints.sender s = .ok master →
      master.accountIndex ≠ aliceMints.poolAccountIndex := by
    intro master hmaster
    have hmaster2 : getMasterAccountByOwner "alice" s
      = .ok { accountIndex := 2, ownerAddress := "alice", collateral := 10 ^ 10 } := by
      decide +kernel
    rw [← Except.ok.inj (hmaster2.symm.trans hmaster)]
    decide
  obtain ⟨hshares, hpos, hmint⟩ := mintShares_minted hne (Txn.run_of_value hvalue)
  obtain ⟨value, hval, hiff, -⟩ := redeem_le_deposit_iff
    (getPoolInfo_eq_ok.mpr ⟨_, rfl, rfl⟩) (by decide)
    (show getTotalAccountValue 1 s = .ok (6 * 10 ^ 9) by decide +kernel) hshares hpos hmint
  exact ⟨1, value, hvalue, hval, hiff.mpr (Or.inl (by decide))⟩

/-- The fund has collected 5·10⁹ in fees and has no shares.  The user deposits 2000 units, gets two
shares for them, and redeems those for 7000 units. -/
theorem first_depositor_takes_fund :
    let _ := AddressCodec.acceptAll
    let s := fundAndUser (5 * 10 ^ 9) 0
    let t := Txn.after (mintShares "gov" aliceMints) s
    Txn.value (mintShares "gov" aliceMints) s = some 2 ∧
      sharesToUSDCValue 1 2 t = .ok 7000 ∧
      Txn.value (forceBurnShares "gov" ⟨"gov", 1, 2, 2⟩) t = some 7000 ∧
      Txn.value (burnShares "gov" ⟨"alice", 1, 2⟩) { t with now := 604800000 } = some 7000 := by
  decide +kernel

end PerpDex
