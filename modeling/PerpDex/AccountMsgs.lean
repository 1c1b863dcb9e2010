/-
Messages of `x/account` that move collateral and margin (`x/account/keeper/msg_server.go`).

* `underRiskGate` — the shape three handlers share: settle funding, snapshot the risk, move collateral,
  compare.

The bank is a ledger by address and denomination.  Whether a string decodes as an address is left to
`AddressCodec`.
-/
import PerpDex.Risk

namespace PerpDex

/-- Decoding of account addresses, a library function of the host chain. -/
class AddressCodec where
  valid : String → Bool

/-- The codec that takes every string for an address. -/
@[reducible] def AddressCodec.acceptAll : AddressCodec := ⟨fun _ => true⟩

/-! ### Assets and the bank -/

def getAsset (index : ℕ) : Query Asset := fun s =>
  match s.assets.get index with
  | some a => .ok a
  | none => .error ⟨.assetNotFound, s!"asset_index={index}"⟩

/-- Name of the module account that holds deposited coins. -/
def accountModuleName : String := "perpaccount"

def bankBalance (s : State) (addr denom : String) : ℕ :=
  (s.bank.get (toLex (addr, denom))).getD 0

def setBankBalance (addr denom : String) (amount : ℕ) : Tx Unit :=
  Txn.write fun s => { s with bank := s.bank.set (toLex (addr, denom)) amount }

def sendCoins (src dst denom : String) (amount : ℕ) : Tx Unit := do
  let have_ ← Txn.read fun s => .ok (bankBalance s src denom)
  Txn.require (amount ≤ have_) ⟨.bankInsufficientFunds, ""⟩
  setBankBalance src denom (have_ - amount)
  let held ← Txn.read fun s => .ok (bankBalance s dst denom)
  setBankBalance dst denom (held + amount)

/-! ### Messages and their stateless checks -/

structure MsgDeposit where
  sender : String
  beneficiary : String := ""
  assetIndex : ℕ
  amount : ℕ
  routeType : RouteType

structure MsgWithdraw where
  sender : String
  accountIndex : ℕ
  assetIndex : ℕ
  amount : ℕ
  routeType : RouteType
  destinationAddress : String := ""

structure MsgTransfer where
  sender : String
  fromAccountIndex : ℕ
  toAccountIndex : ℕ
  assetIndex : ℕ
  amount : ℕ

structure MsgUpdateMargin where
  sender : String
  accountIndex : ℕ
  marketIndex : ℕ
  amount : ℤ
  action : MarginAction

structure MsgUpdateLeverage where
  sender : String
  accountIndex : ℕ
  marketIndex : ℕ
  newMarginMode : MarginMode
  newInitialMarginFraction : ℕ

section Handlers

variable [AddressCodec]

def mustValidAddr (addr : String) : Except Err Unit :=
  if addr = "" then throw ⟨.invalidAddress, "address must not be empty"⟩
  else if AddressCodec.valid addr then pure ()
  else throw ⟨.invalidAddress, ""⟩

/-- An address that may be left out. -/
def optionalAddr (addr : String) : Except Err Unit :=
  if addr = "" then pure () else mustValidAddr addr

def MsgDeposit.validateBasic (msg : MsgDeposit) : Except Err Unit := do
  mustValidAddr msg.sender
  optionalAddr msg.beneficiary
  if msg.amount = 0 then throw ⟨.amountTooSmall, ""⟩

def MsgWithdraw.validateBasic (msg : MsgWithdraw) : Except Err Unit := do
  mustValidAddr msg.sender
  optionalAddr msg.destinationAddress
  if msg.amount = 0 then throw ⟨.amountTooSmall, ""⟩

def MsgTransfer.validateBasic (msg : MsgTransfer) : Except Err Unit := do
  mustValidAddr msg.sender
  if msg.amount = 0 then throw ⟨.amountTooSmall, ""⟩
  else if msg.fromAccountIndex = msg.toAccountIndex then
    throw ⟨.accountInvalidParams, "from and to accounts must differ"⟩

def MsgUpdateMargin.validateBasic (msg : MsgUpdateMargin) : Except Err Unit := do
  mustValidAddr msg.sender
  if ¬ 0 < msg.amount then throw ⟨.accountInvalidParams, "amount must be positive"⟩

def MsgUpdateLeverage.validateBasic (msg : MsgUpdateLeverage) : Except Err Unit := do
  let imf := msg.newInitialMarginFraction
  mustValidAddr msg.sender
  if marginTick < imf then
    throw ⟨.accountInvalidParams, s!"new_initial_margin_fraction={imf} exceeds MarginTick=10000"⟩

/-! ### Handlers -/

def getMasterAccountByOwner (owner : String) : Query Account := fun s =>
  match s.account.ownerToIndex.get owner with
  | some idx => getAccount idx s
  | none => .error ⟨.accountNotFound, s!"owner={owner}"⟩

/-- Write a new account row and, for an owned master, its entry in the owner index. -/
def createAccount (a : Account) : Tx Unit := do
  updateAccount a
  Txn.when (a.ownerAddress ≠ "" ∧ a.accountType = .master) do
    Txn.write fun s => { s with account := { s.account with
      ownerToIndex := s.account.ownerToIndex.set a.ownerAddress a.accountIndex } }

/-- The master account of an owner, created on first use. -/
def ensureMasterAccount (owner : String) : Tx Account := do
  let found ← Txn.read fun s => .ok (getMasterAccountByOwner owner s)
  match found with
  | .ok a => return a
  | .error e => do
    Txn.require (e.sentinel = .accountNotFound) e
    let next ← Txn.read fun s => .ok s.account.nextMasterIndex
    -- a counter below the reserved floor jumps to the floor
    let idx := max next firstUserMasterAccountIndex
    Txn.write fun s => { s with account := { s.account with nextMasterIndex := idx + 1 } }
    Txn.require (¬ maxMasterAccountIndex < idx) ⟨.accountIndexExceed, s!"master idx={idx}"⟩
    let newAcc : Account := { accountIndex := idx, ownerAddress := owner }
    createAccount newAcc
    return newAcc

/-- An asset that is registered and enabled. -/
def enabledAsset (index : ℕ) : Query Asset := fun s => do
  let asset ← getAsset index s
  if asset.enabled then return asset
  else throw ⟨.assetDisabled, ""⟩

/-- Reject amounts below the larger of the asset's and the module's minimum. -/
def requireMinAmount (amount assetMin paramMin : ℕ) : Tx Unit :=
  let minAmount := max assetMin paramMin
  Txn.require (¬ amount < minAmount) ⟨.amountTooSmall, s!"amount={amount} min={minAmount}"⟩

/-- The sender owns the account and the account is not a pool. -/
def requireOwner (sender : String) (idx : ℕ) : Tx Unit := do
  let ok ← Txn.read (isAuthorized sender idx)
  Txn.require (ok = true) ⟨.unauthorized, ""⟩
  Txn.read (rejectPoolAccount idx)

def deposit (msg : MsgDeposit) : Tx ℕ := do
  Txn.lift msg.validateBasic
  let beneficiary := if msg.beneficiary = "" then msg.sender else msg.beneficiary
  let asset ← Txn.read (enabledAsset msg.assetIndex)
  Txn.require (¬ (msg.routeType = .perps ∧ asset.marginEnabled = false)) ⟨.assetNotMargin, ""⟩
  let params ← Txn.read fun s => .ok s.account.params
  requireMinAmount msg.amount asset.minTransferAmount params.minPartialTransferAmount
  sendCoins msg.sender accountModuleName asset.denom msg.amount
  let acc ← ensureMasterAccount beneficiary
  let delta : ℤ := msg.amount * asset.extensionMultiplier
  match msg.routeType with
  | .perps => addCollateral acc.accountIndex delta
  | .spot => addAccountAssetBalance acc.accountIndex msg.assetIndex delta
  return acc.accountIndex

/-- Run `settle`, take a risk snapshot of the account, run `move` and compare. -/
def underRiskGate {α : Type} (accountIdx : ℕ) (settle : Tx Unit) (move : Tx α) : Tx α := do
  settle
  let pre ← Txn.read (snapshotRisk accountIdx)
  let result ← move
  Txn.read (requireRiskOKFrom accountIdx pre)
  return result

def withdraw (msg : MsgWithdraw) : Tx Unit := do
  Txn.lift msg.validateBasic
  requireOwner msg.sender msg.accountIndex
  let asset ← Txn.read (enabledAsset msg.assetIndex)
  let params ← Txn.read fun s => .ok s.account.params
  requireMinAmount msg.amount asset.minWithdrawalAmount params.minPartialWithdrawAmount
  let delta : ℤ := msg.amount * asset.extensionMultiplier
  match msg.routeType with
  | .perps => do
    Txn.require (asset.marginEnabled = true) ⟨.assetNotMargin, ""⟩
    underRiskGate msg.accountIndex (settleAllPositionFunding msg.accountIndex)
      (addCollateral msg.accountIndex (-delta))
  | .spot => addAccountAssetBalance msg.accountIndex msg.assetIndex (-delta)
  let dest := if msg.destinationAddress = "" then msg.sender else msg.destinationAddress
  sendCoins accountModuleName dest asset.denom msg.amount

def transfer (msg : MsgTransfer) : Tx Unit := do
  Txn.lift msg.validateBasic
  requireOwner msg.sender msg.fromAccountIndex
  Txn.read (rejectPoolAccount msg.toAccountIndex)
  let asset ← Txn.read (enabledAsset msg.assetIndex)
  let params ← Txn.read fun s => .ok s.account.params
  requireMinAmount msg.amount asset.minTransferAmount params.minPartialTransferAmount
  let delta : ℤ := msg.amount * asset.extensionMultiplier
  if asset.marginEnabled then
    underRiskGate msg.fromAccountIndex (settleAllPositionFunding msg.fromAccountIndex) do
      addCollateral msg.fromAccountIndex (-delta)
      addCollateral msg.toAccountIndex delta
  else do
    addAccountAssetBalance msg.fromAccountIndex msg.assetIndex (-delta)
    addAccountAssetBalance msg.toAccountIndex msg.assetIndex delta

/-- Move margin between the cross pool and an isolated position. -/
def moveMargin (msg : MsgUpdateMargin) : Tx Unit := do
  let pos ← Txn.read fun s => .ok (getPosition s msg.accountIndex msg.marketIndex)
  Txn.require (pos.marginMode = .isolated) ⟨.positionNotIsolated, ""⟩
  match msg.action with
  | .addMargin => do
    let _ ← updatePosition msg.accountIndex msg.marketIndex fun p => .ok (p.allocate msg.amount)
    addCollateral msg.accountIndex (-msg.amount)
  | .removeMargin => do
    Txn.require (¬ pos.allocatedMargin < msg.amount) ⟨.insufficientFunds, ""⟩
    let _ ← updatePosition msg.accountIndex msg.marketIndex fun p => .ok (p.allocate (-msg.amount))
    addCollateral msg.accountIndex msg.amount

def updateMargin (msg : MsgUpdateMargin) : Tx Unit := do
  Txn.lift msg.validateBasic
  requireOwner msg.sender msg.accountIndex
  underRiskGate msg.accountIndex (settlePositionFunding msg.accountIndex msg.marketIndex)
    (moveMargin msg)

def updateLeverage (msg : MsgUpdateLeverage) : Tx Unit := do
  Txn.lift msg.validateBasic
  requireOwner msg.sender msg.accountIndex
  let md ← Txn.read (getMarketDetails msg.marketIndex)
  let imf := msg.newInitialMarginFraction
  let floor := md.minInitialMarginFraction
  Txn.require (¬ imf < floor)
    ⟨.accountInvalidParams, s!"new_initial_margin_fraction={imf} below market min={floor}"⟩
  let pos ← Txn.read fun s => .ok (getPosition s msg.accountIndex msg.marketIndex)
  Txn.require (pos.baseSize = 0)
    ⟨.positionNotEmpty, "must close position before updating leverage/margin mode"⟩
  setPositionLeverage msg.accountIndex msg.marketIndex msg.newMarginMode imf

/-! ### What the handlers move -/

omit [AddressCodec] in
/-- Margin leaves one pool of the account for the other one; it reaches the position only if
the position is isolated. -/
theorem moveMargin_ok {msg : MsgUpdateMargin} {s t : State} {u : Unit}
    (h : (moveMargin msg).run s = .ok u t) :
    ∃ x, MarginMove msg.marketIndex (Pi.single msg.accountIndex (-x))
        (Pi.single msg.accountIndex x) s t ∧
      x = (if msg.action = .addMargin then msg.amount else -msg.amount) ∧
      (getPosition s msg.accountIndex msg.marketIndex).marginMode = .isolated := by
  simp only [moveMargin, Txn.run_bind_ok, Txn.run_read_ok, Txn.run_require_ok,
    Except.ok.injEq] at h
  obtain ⟨pos, s₁, ⟨rfl, rfl⟩, _, s₂, ⟨hiso, rfl⟩, h⟩ := h
  rcases haction : msg.action with _ | _
  · simp only [haction, Txn.run_bind_ok, Txn.run_require_ok] at h
    obtain ⟨_, s₃, ⟨-, rfl⟩, p, s₄, hpos, hcol⟩ := h
    have hmove := (MarginMove.of_updatePosition hpos).trans
      (MarginMove.of_addCollateral msg.marketIndex hcol).1
    rw [zero_add, add_zero] at hmove
    refine ⟨-msg.amount, ?_, by simp, hiso⟩
    rw [neg_neg]
    exact hmove
  · simp only [haction, Txn.run_bind_ok] at h
    obtain ⟨p, s₄, hpos, hcol⟩ := h
    have hmove := (MarginMove.of_updatePosition hpos).trans
      (MarginMove.of_addCollateral msg.marketIndex hcol).1
    rw [zero_add, add_zero] at hmove
    exact ⟨msg.amount, hmove, by simp, hiso⟩

omit [AddressCodec] in
theorem underRiskGate_ok {α : Type} {acc : ℕ} {settle : Tx Unit} {move : Tx α} {s t : State}
    {r : α} (h : (underRiskGate acc settle move).run s = .ok r t) :
    ∃ v s₁ pre, settle.run s = .ok v s₁ ∧ snapshotRisk acc s₁ = .ok pre ∧
      move.run s₁ = .ok r t ∧ requireRiskOKFrom acc pre t = .ok () := by
  simp only [underRiskGate, Txn.run_bind_ok, Txn.run_read_ok, Txn.run_pure_ok] at h
  obtain ⟨v, s₁, hsettle, pre, s₁', ⟨hpre, hs₁⟩, r', s₂, hrun, _, s₃, ⟨hgate, hs₃⟩, rfl, ht⟩ := h
  subst hs₁ hs₃ ht
  exact ⟨v, s₁', pre, hsettle, hpre, hrun, hgate⟩

omit [AddressCodec] in
theorem requireOwner_ok {sender : String} {idx : ℕ} {s t : State} {u : Unit}
    (h : (requireOwner sender idx).run s = .ok u t) : t = s := by
  simp only [requireOwner, Txn.run_bind_ok, Txn.run_read_ok, Txn.run_require_ok] at h
  obtain ⟨ok, s₁, ⟨-, rfl⟩, _, s₂, ⟨-, rfl⟩, -, rfl⟩ := h
  rfl

theorem updateMargin_ok {msg : MsgUpdateMargin} {s t : State} {u : Unit}
    (h : (updateMargin msg).run s = .ok u t) :
    ∃ s₁ c al, (settlePositionFunding msg.accountIndex msg.marketIndex).run s = .ok () s₁ ∧
      MarginMove msg.marketIndex c al s₁ t := by
  simp only [updateMargin, Txn.run_bind_ok, Txn.run_lift_ok] at h
  obtain ⟨_, s₁, ⟨-, rfl⟩, _, s₂, howner, hgate⟩ := h
  obtain rfl := requireOwner_ok howner
  obtain ⟨_, s₃, _, hsettle, -, hmove, -⟩ := underRiskGate_ok hgate
  obtain ⟨x, hmargin, -, -⟩ := moveMargin_ok hmove
  exact ⟨s₃, _, _, hsettle, hmargin⟩

theorem updateLeverage_ok {msg : MsgUpdateLeverage} {s t : State} {u : Unit}
    (h : (updateLeverage msg).run s = .ok u t) :
    (getPosition s msg.accountIndex msg.marketIndex).baseSize = 0 ∧
      t = s.putPosition { getPosition s msg.accountIndex msg.marketIndex with
        marginMode := msg.newMarginMode
        initialMarginFraction := msg.newInitialMarginFraction } := by
  simp only [updateLeverage, setPositionLeverage, Txn.run_bind_ok, Txn.run_lift_ok,
    Txn.run_read_ok, Txn.run_require_ok, Except.ok.injEq, updatePosition_run,
    EStateM.Result.ok.injEq, Txn.run_pure_ok] at h
  obtain ⟨_, s₁, ⟨-, rfl⟩, _, s₂, howner, md, s₃, ⟨-, rfl⟩, _, s₄, ⟨-, rfl⟩, pos, s₅, ⟨rfl, rfl⟩,
    _, s₆, ⟨hzero, rfl⟩, p, s₇, ⟨rfl, rfl⟩, -, rfl⟩ := h
  obtain rfl := requireOwner_ok howner
  exact ⟨hzero, rfl⟩

/-! ### What a debit under the gate says -/

omit [AddressCodec] in
/-- A debit that passes the gate leaves a negative value exactly when the account, with its funding
settled, was bankrupt and had no initial requirement. -/
theorem underRiskGate_debit {acc : ℕ} {settle move : Tx Unit} {s t : State} {u : Unit}
    (hmove : ∀ s₁ s₂ v, move.run s₁ = .ok v s₂ → ∃ m c al, MarginMove m c al s₁ s₂ ∧ c acc < 0 ∧
      (al acc ≠ 0 → (getPosition s₁ acc m).marginMode = .isolated))
    (h : (underRiskGate acc settle move).run s = .ok u t) :
    ∃ rp rp', computeCrossRisk acc (Txn.after settle s) = .ok rp ∧
      computeCrossRisk acc t = .ok rp' ∧
      (0 ≤ rp'.totalAccountValue ↔
        ¬ (rp.totalAccountValue < 0 ∧ rp.initialMarginRequirement = 0)) := by
  obtain ⟨v, s₁, pre, hsettle, hpre, hrun, hgate⟩ := underRiskGate_ok h
  obtain ⟨m, c, al, hmargin, hneg, hiso⟩ := hmove _ _ _ hrun
  obtain ⟨rp, hrp, hcross⟩ := snapshotRisk_cross hpre
  have hpost := hmargin.computeCrossRisk_ok hiso hrp
  have hpass := requireRiskOKFrom_cross hgate hpost
  rw [hcross] at hpass
  refine ⟨rp, _, by rwa [Txn.after_of_ok hsettle], hpost, ?_⟩
  refine classifyChange_bankrupt rfl ?_ ?_ hpass
  · obtain ⟨a, -, -, rfl⟩ := computeCrossRisk_eq_ok.mp hrp
    exact crossSum_initialAt_nonneg _ acc
  · show rp.totalAccountValue + c acc < rp.totalAccountValue
    omega

end Handlers

end PerpDex
