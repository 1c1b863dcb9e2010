/-
The messages and hooks of the chain as one step relation.

* `TradingRule`, `TradingStep.rule` — a relation that allows what orders and fills do holds across every
  message and hook by which the exchange trades;
* `TransferRule`, `PoolRule`, `AccountStep.ofRule` — the same for the messages to the account module;
* `ChainRun.invariant` — what every step keeps holds along every run.

The relation may be an implication between invariants, so the rule serves frames and invariants alike.
A hook goes on after the error of a single fill, so a rule speaks about every outcome of a fill.
-/
import PerpDex.BookFrame
import PerpDex.AccountAdmin

namespace PerpDex

open Txn

/-! ### The rule -/

/-- Nothing but the stores of the market module differs, and of the details of a market only what
orders and fills move. -/
structure MarketFrame (s t : State) : Prop where
  frame : t = { s with market := t.market }
  static : ∀ m, (t.market.marketDetails.get m).map MarketDetails.static
    = (s.market.marketDetails.get m).map MarketDetails.static

theorem MarketFrame.prefixSum {s t : State} (h : MarketFrame s t) (m : ℕ) :
    (t.market.marketDetails.get m).map MarketDetails.fundingRatePrefixSum
      = (s.market.marketDetails.get m).map MarketDetails.fundingRatePrefixSum := by
  have hmap := congrArg (Option.map MarketDetails.fundingRatePrefixSum) (h.static m)
  rwa [Option.map_map, Option.map_map] at hmap

/-- The relation allows what happens to orders, to markets, and in a fill. -/
structure TradingRule (R : State → State → Prop) : Prop where
  order : ∀ s t, OrderFrame s t → R s t
  market : ∀ s t, MarketFrame s t → R s t
  fill : ∀ f, Keeps R (apply f)

namespace TradingRule

variable {R : State → State → Prop} (hR : TradingRule R)

include hR

theorem ofFrame {α : Type} {x : Tx α} (h : Keeps OrderFrame x) : Keeps R x := h.mono hR.order

theorem quiet (m : ℕ) (s : State) : Quiet R m s := Or.inl fun f _ => hR.fill f

theorem allocateNonce [IsPreorder State R] (m : ℕ) (isAsk : Bool) :
    Keeps R (PerpDex.allocateNonce m isAsk) := by
  refine allocateNonce_keeps (fun s d ask bid hd => hR.market s _ ⟨rfl, fun m' => ?_⟩) m isAsk
  simp only [State.putDetails, Table.get_put]
  split
  · rename_i hm
    rw [hm, hd]
    rfl
  · rfl

variable [IsPreorder State R]

theorem matchOrder (taker : Order) (maxFills : ℕ) : Keeps R (PerpDex.matchOrder taker maxFills) := by
  refine Keeps.read.bind fun market s => runSweep_rule hR.order Keeps.pure _ _
    fun x u maker base _ _ => ?_
  rw [applyUserFill_eq]
  refine applyFill_keeps hR.order (Keeps.ite (fun _ => hR.fill _) fun _ => ?_) u
  exact hR.ofFrame (applySpotMatching_frame _ _ _)

/-! ### Orders of users -/

theorem placeOrder (market : Market) (o : Order) : Keeps R (PerpDex.placeOrder market o) := by
  refine Keeps.read.bind fun params => (hR.matchOrder _ _).bind fun r => Keeps.read.bind fun o => ?_
  exact (hR.ofFrame (openOrder_frame o)).bind fun _ => Keeps.pure

theorem fireOrder (o : Order) : Keeps R (PerpDex.fireOrder o) :=
  Keeps.read.bind fun _ => (hR.matchOrder _ _).bind fun _ => hR.ofFrame (openOrder_frame _)

theorem fireTrigger (i : ℕ) : Keeps R (PerpDex.fireTrigger i) := by
  refine (hR.ofFrame (activateTrigger_frame i)).attempt.bind fun activated => ?_
  cases activated with
  | error e => exact Keeps.pure
  | ok o =>
    refine (hR.fireOrder _).attempt.bind fun fired => ?_
    cases fired with
    | error e => exact (hR.ofFrame (cancelOrder_frame _)).attempt.bind fun _ => Keeps.pure
    | ok u => exact Keeps.pure

theorem matchingEndBlocker : Keeps R PerpDex.matchingEndBlocker :=
  Keeps.read.bind fun _ => Keeps.forM fun i _ => hR.fireTrigger i

theorem orderbookEndBlocker : Keeps R PerpDex.orderbookEndBlocker :=
  Keeps.read.bind fun _ => Keeps.forM fun i _ =>
    (hR.ofFrame (cancelOrder_frame i)).attempt.bind fun _ => Keeps.pure

theorem cancelOpenOrders (account filter : ℕ) :
    Keeps R (PerpDex.cancelOpenOrders account filter) :=
  Keeps.read.bind fun _ => Keeps.read.bind fun _ => Keeps.forM fun o _ =>
    (hR.ofFrame (cancelOrder_frame o.orderIndex)).bind fun _ => Keeps.pure

/-! ### Forced closes -/

theorem marketEndBlocker : Keeps R PerpDex.marketEndBlocker := by
  refine marketEndBlocker_rule hR.quiet (fun s mk _ _ => hR.market _ _ ?_) fun key => ?_
  · obtain ⟨index, heq⟩ := updateMarket_after mk { mk with status := .expired } s
    rw [heq]
    exact ⟨rfl, fun _ => rfl⟩
  · exact Keeps.write fun s => hR.market _ _ ⟨rfl, fun _ => rfl⟩

theorem forcedHook {s t : State} (h : ForcedHook s t) : R s t := by
  cases h with
  | liquidation h => exact (liquidationEndBlocker_rule hR.quiet).ok h
  | expiry h => exact hR.marketEndBlocker.ok h
  | exit m => exact applyExitPosition_rule hR.quiet m s
  | deleverage victim m deleverager base h =>
    exact (deleverage_keeps (fun f _ => hR.fill f) victim deleverager base).ok h

end TradingRule

/-! ### Trading -/

theorem getOwnOrder_keeps {R : State → State → Prop} [IsPreorder State R] (sender : String)
    (i : ℕ) : Keeps R (getOwnOrder sender i) :=
  Keeps.read.bind fun _ => Keeps.read.bind fun _ => Keeps.require.bind fun _ => Keeps.pure

section Steps

variable [AddressCodec]

namespace TradingRule

variable {R : State → State → Prop} [IsPreorder State R] (hR : TradingRule R)

include hR

theorem createOrder (msg : MsgCreateOrder) : Keeps R (PerpDex.createOrder msg) := by
  refine (prepareOrder_keeps (fun _ _ => hR.order _ _ rfl) hR.allocateNonce msg).bind fun prepared => Keeps.ite (fun _ => ?_) fun _ => hR.placeOrder _ _
  exact (hR.ofFrame (openTriggerOrder_frame _)).bind fun _ => Keeps.pure

theorem modifyOrder (msg : MsgModifyOrder) : Keeps R (PerpDex.modifyOrder msg) := by
  refine Keeps.bind ?_ fun create => (hR.createOrder create).bind fun _ => Keeps.pure
  refine Keeps.read.bind fun _ => (getOwnOrder_keeps _ _).bind fun o => Keeps.bind ?_ fun _ => ?_
  · exact Keeps.require.bind fun _ => Keeps.require
  · exact Keeps.read.bind fun _ => (hR.ofFrame (cancelOrder_frame _)).bind fun _ => Keeps.pure

theorem liquidate (msg : MsgLiquidate) : Keeps R (PerpDex.liquidate msg) := by
  refine Keeps.read.bind fun _ => Keeps.read.bind fun snap => Keeps.require.bind fun _ => ?_
  refine Keeps.read.bind fun status => Keeps.require.bind fun _ => Keeps.require.bind fun _ => ?_
  refine Keeps.require.bind fun _ => (hR.cancelOpenOrders _ _).bind fun _ => ?_
  exact Keeps.read.bind fun market =>
    (matchLiquidationOrder_keeps hR.order (fun f _ => hR.fill f) _ _ _ _ _).bind fun _ => Keeps.pure

end TradingRule

/-- A message to the exchange, or a hook by which it trades at the end of a block. -/
inductive TradingStep (s : State) : State → Prop
  | createOrder {t : State} (msg : MsgCreateOrder) {resp : MsgCreateOrderResponse}
      (h : (createOrder msg).run s = .ok resp t) : TradingStep s t
  | cancelOrder {t : State} (msg : MsgCancelOrder) (h : (cancelOrderMsg msg).run s = .ok () t) :
      TradingStep s t
  | cancelAllOrders {t : State} (msg : MsgCancelAllOrders)
      (h : (cancelAllOrders msg).run s = .ok () t) : TradingStep s t
  | modifyOrder {t : State} (msg : MsgModifyOrder) {idx : ℕ}
      (h : (modifyOrder msg).run s = .ok idx t) : TradingStep s t
  | liquidate {t : State} (msg : MsgLiquidate) (h : (liquidate msg).run s = .ok () t) :
      TradingStep s t
  | expire {t : State} (h : orderbookEndBlocker.run s = .ok () t) : TradingStep s t
  | trigger {t : State} (h : matchingEndBlocker.run s = .ok () t) : TradingStep s t
  | forced {t : State} (h : ForcedHook s t) : TradingStep s t

/-- **A relation with a trading rule holds across every message and hook of the exchange.** -/
theorem TradingStep.rule {R : State → State → Prop} [IsPreorder State R] (hR : TradingRule R)
    {s t : State} (h : TradingStep s t) : R s t := by
  cases h with
  | createOrder msg h => exact (hR.createOrder msg).ok h
  | cancelOrder msg h =>
    have hkeeps : Keeps R (cancelOrderMsg msg) :=
      Keeps.read.bind fun _ => (getOwnOrder_keeps _ _).bind fun _ =>
        (hR.ofFrame (cancelOrder_frame _)).bind fun _ => Keeps.pure
    exact hkeeps.ok h
  | cancelAllOrders msg h =>
    have hkeeps : Keeps R (PerpDex.cancelAllOrders msg) :=
      Keeps.read.bind fun _ => Keeps.read.bind fun _ => Keeps.require.bind fun _ =>
        Keeps.require.bind fun _ => hR.cancelOpenOrders _ _
    exact hkeeps.ok h
  | modifyOrder msg h => exact (hR.modifyOrder msg).ok h
  | liquidate msg h => exact (hR.liquidate msg).ok h
  | expire h => exact hR.orderbookEndBlocker.ok h
  | trigger h => exact hR.matchingEndBlocker.ok h
  | forced h => exact hR.forcedHook h

/-! ### All steps -/

/-- A message to the account module. -/
inductive AccountStep (authority : String) (s : State) : State → Prop
  | deposit {t : State} (msg : MsgDeposit) {idx : ℕ} (h : (deposit msg).run s = .ok idx t) :
      AccountStep authority s t
  | withdraw {t : State} (msg : MsgWithdraw) (h : (withdraw msg).run s = .ok () t) :
      AccountStep authority s t
  | transfer {t : State} (msg : MsgTransfer) (h : (transfer msg).run s = .ok () t) :
      AccountStep authority s t
  | updateMargin {t : State} (msg : MsgUpdateMargin) (h : (updateMargin msg).run s = .ok () t) :
      AccountStep authority s t
  | updateLeverage {t : State} (msg : MsgUpdateLeverage)
      (h : (updateLeverage msg).run s = .ok () t) : AccountStep authority s t
  | createSubAccount {t : State} (msg : MsgCreateSubAccount) {idx : ℕ}
      (h : (AccountServer.createSubAccount msg).run s = .ok idx t) : AccountStep authority s t
  | createPublicPool {t : State} (msg : MsgCreatePublicPool) {idx : ℕ}
      (h : (createPublicPool msg).run s = .ok idx t) : AccountStep authority s t
  | updatePublicPool {t : State} (msg : MsgUpdatePublicPool)
      (h : (updatePublicPool authority msg).run s = .ok () t) : AccountStep authority s t
  | mintShares {t : State} (msg : MsgMintShares) {shares : ℤ}
      (h : (mintShares authority msg).run s = .ok shares t) : AccountStep authority s t
  | burnShares {t : State} (msg : MsgBurnShares) {usdc : ℕ}
      (h : (burnShares authority msg).run s = .ok usdc t) : AccountStep authority s t
  | forceBurnShares {t : State} (msg : MsgForceBurnShares) {usdc : ℕ}
      (h : (forceBurnShares authority msg).run s = .ok usdc t) : AccountStep authority s t
  | strategyTransfer {t : State} (msg : MsgStrategyTransfer)
      (h : (strategyTransfer authority msg).run s = .ok () t) : AccountStep authority s t
  | updateParams {t : State} (msg : MsgUpdateAccountParams)
      (h : (AccountServer.updateParams authority msg).run s = .ok () t) : AccountStep authority s t

end Steps

/-! ### Messages that move funds -/

/-- Positions, markets and orders are the same. -/
def FundsFrame (s t : State) : Prop :=
  t = { s with
    account := { t.account with accountPositions := s.account.accountPositions }
    bank := t.bank }

instance : IsPreorder State FundsFrame where
  refl _ := rfl
  trans _ _ _ h h' := by
    rw [FundsFrame, h', h]

section Funds

theorem updateAccount_funds (a : Account) : Keeps FundsFrame (updateAccount a) :=
  Keeps.write fun _ => rfl

theorem addCollateral_funds (i : ℕ) (δ : ℤ) : Keeps FundsFrame (addCollateral i δ) :=
  Keeps.read.bind fun _ => updateAccount_funds _

theorem createAccount_funds (a : Account) : Keeps FundsFrame (createAccount a) :=
  (updateAccount_funds a).bind fun _ => Keeps.when fun _ => Keeps.write fun _ => rfl

theorem ensureMasterAccount_funds (owner : String) :
    Keeps FundsFrame (ensureMasterAccount owner) := by
  refine Keeps.read.bind fun found => ?_
  cases found with
  | ok a => exact Keeps.pure
  | error e =>
    refine Keeps.require.bind fun _ => Keeps.read.bind fun next => ?_
    refine Keeps.bind (Keeps.write fun _ => rfl) fun _ => Keeps.require.bind fun _ => ?_
    exact (createAccount_funds _).bind fun _ => Keeps.pure

theorem allocatePoolSubAccountIndex_funds : Keeps FundsFrame allocatePoolSubAccountIndex :=
  Keeps.read.bind fun _ => Keeps.bind (Keeps.write fun _ => rfl) fun _ => Keeps.require.bind fun _ =>
    Keeps.pure

theorem requireMinAmount_same (amount assetMin paramMin : ℕ) :
    Keeps Eq (requireMinAmount amount assetMin paramMin) := Keeps.require

theorem requireOwner_same (sender : String) (i : ℕ) : Keeps Eq (requireOwner sender i) :=
  Keeps.read.bind fun _ => Keeps.require.bind fun _ => Keeps.read

theorem underRiskGate_keeps {R : State → State → Prop} [IsPreorder State R] {α : Type} {i : ℕ}
    {settle : Tx Unit} {move : Tx α} (hsettle : Keeps R settle) (hmove : Keeps R move) :
    Keeps R (underRiskGate i settle move) :=
  hsettle.bind fun _ => Keeps.read.bind fun _ => hmove.bind fun _ => Keeps.read.bind fun _ =>
    Keeps.pure

end Funds

/-! ### Messages to the account module -/

/-- What an account is: its master, its owner and its type. -/
def Account.identity (a : Account) : ℕ × String × AccountType :=
  (a.masterAccountIndex, a.ownerAddress, a.accountType)

/-- The relation allows to move coins, balances and collateral, to set parameters, and to settle. -/
structure TransferRule (R : State → State → Prop) : Prop where
  aside : ∀ s t, t = { s with
    account := { s.account with
      accountAssets := t.account.accountAssets
      params := t.account.params }
    bank := t.bank } → R s t
  credit : ∀ i δ, Keeps R (addCollateral i δ)
  settle : ∀ a m, Keeps R (settlePositionFunding a m)

/-- The relation allows in addition to write an account anew that stays what it is. -/
structure PoolRule (R : State → State → Prop) : Prop extends TransferRule R where
  rewrite : ∀ (s : State) (a b : Account), s.account.accounts.get b.accountIndex = some a →
    b.identity = a.identity → R s (s.putAccount b)

section Rules

variable {R : State → State → Prop} [IsPreorder State R]

theorem getAccount_bind_keeps {α : Type} {i : ℕ} {f : Account → Tx α}
    (hf : ∀ a s, s.account.accounts.get a.accountIndex = some a → R s (after (f a) s)) :
    Keeps R (Txn.read (getAccount i) >>= f) := by
  intro s
  rw [after_bind_read]
  cases ha : getAccount i s with
  | error e => exact refl_of R s
  | ok a =>
    have ha := getAccount_eq_ok.mp ha
    obtain rfl : a.accountIndex = i := Table.key_of_get ha
    exact hf a s ha

namespace TransferRule

variable (hR : TransferRule R)

include hR

theorem settleAllPositionFunding (a : ℕ) : Keeps R (PerpDex.settleAllPositionFunding a) :=
  Keeps.read.bind fun _ => Keeps.forM fun _ _ => Keeps.when fun _ => hR.settle a _

theorem sendCoins (src dst denom : String) (amount : ℕ) :
    Keeps R (PerpDex.sendCoins src dst denom amount) :=
  Keeps.read.bind fun _ => Keeps.require.bind fun _ =>
    Keeps.bind (Keeps.write fun _ => hR.aside _ _ rfl) fun _ =>
      Keeps.read.bind fun _ => Keeps.write fun _ => hR.aside _ _ rfl

theorem addAccountAssetBalance (acc asset : ℕ) (δ : ℤ) :
    Keeps R (PerpDex.addAccountAssetBalance acc asset δ) :=
  Keeps.read.bind fun _ => Keeps.require.bind fun _ => Keeps.require.bind fun _ =>
    Keeps.write fun _ => hR.aside _ _ rfl

theorem clearLiquidityPool (i : ℕ) : Keeps R (PerpDex.clearLiquidityPool i) :=
  Keeps.write fun s => by
    split
    · exact hR.aside _ _ rfl
    · exact refl_of R s

variable [AddressCodec]

theorem withdraw (msg : MsgWithdraw) : Keeps R (PerpDex.withdraw msg) := by
  refine Keeps.read.bind fun _ => (requireOwner_same _ _).of_eq.bind fun _ => ?_
  refine Keeps.read.bind fun asset => Keeps.read.bind fun params => ?_
  refine (requireMinAmount_same _ _ _).of_eq.bind fun _ => ?_
  dsimp only
  cases msg.routeType with
  | perps =>
    exact Keeps.require.bind fun _ => (underRiskGate_keeps (hR.settleAllPositionFunding _)
      (hR.credit _ _)).bind fun _ => hR.sendCoins _ _ _ _
  | spot => exact (hR.addAccountAssetBalance _ _ _).bind fun _ => hR.sendCoins _ _ _ _

theorem transfer (msg : MsgTransfer) : Keeps R (PerpDex.transfer msg) := by
  refine Keeps.read.bind fun _ => (requireOwner_same _ _).of_eq.bind fun _ => ?_
  refine Keeps.read.bind fun _ => Keeps.read.bind fun asset => Keeps.read.bind fun params => ?_
  refine (requireMinAmount_same _ _ _).of_eq.bind fun _ => Keeps.ite (fun _ => ?_) fun _ => ?_
  · exact underRiskGate_keeps (hR.settleAllPositionFunding _)
      ((hR.credit _ _).bind fun _ => hR.credit _ _)
  · exact (hR.addAccountAssetBalance _ _ _).bind fun _ => hR.addAccountAssetBalance _ _ _

theorem updateParams (authority : String) (msg : MsgUpdateAccountParams) :
    Keeps R (AccountServer.updateParams authority msg) :=
  Keeps.read.bind fun _ => Keeps.require.bind fun _ => Keeps.write fun _ => hR.aside _ _ rfl

end TransferRule

namespace PoolRule

variable (hR : PoolRule R)

include hR

theorem updatePublicPoolInfo (i : ℕ) (mutate : PublicPoolInfo → Except Err PublicPoolInfo) :
    Keeps R (PerpDex.updatePublicPoolInfo i mutate) := by
  refine getAccount_bind_keeps fun a s ha => ?_
  rw [after_bind_read]
  split
  · exact hR.rewrite s a _ ha rfl
  · exact refl_of R s

theorem upsertPublicPoolShare (i pool : ℕ) (shares principal now : ℤ) :
    Keeps R (PerpDex.upsertPublicPoolShare i pool shares principal now) := by
  refine getAccount_bind_keeps fun a s ha => ?_
  split
  · exact hR.rewrite s a _ ha rfl
  · by_cases hroom : a.publicPoolShares.length < sharesListSize
    · rw [Txn.require, if_pos hroom, pure_bind]
      exact hR.rewrite s a _ ha rfl
    · rw [after_bind_require hroom]
      exact refl_of R s

theorem reducePublicPoolShare (i pool : ℕ) (shares : ℤ) :
    Keeps R (PerpDex.reducePublicPoolShare i pool shares) := by
  refine getAccount_bind_keeps fun a s ha => ?_
  rw [lift, after_bind_read]
  split
  · exact hR.rewrite s a _ ha rfl
  · exact refl_of R s

theorem burnSharesCore (pool depositor : Account) (isOperator : Bool) (shares : ℤ)
    (skipCooldown : Bool) :
    Keeps R (PerpDex.burnSharesCore pool depositor isOperator shares skipCooldown) := by
  refine Keeps.require.bind fun _ => Keeps.read.bind fun available => Keeps.require.bind fun _ => ?_
  refine Keeps.read.bind fun entry => Keeps.read.bind fun _ => Keeps.read.bind fun value => ?_
  refine Keeps.require.bind fun _ => Keeps.read.bind fun fee => ?_
  refine (hR.updatePublicPoolInfo _ _).bind fun _ => (hR.credit _ _).bind fun _ => ?_
  refine (hR.credit _ _).bind fun _ => Keeps.bind (Keeps.when fun _ => ?_) fun _ => uint64Of_keeps _
  exact hR.reducePublicPoolShare _ _ _

variable [AddressCodec] (authority : String)

theorem updatePublicPool (msg : MsgUpdatePublicPool) :
    Keeps R (PerpDex.updatePublicPool authority msg) := by
  refine Keeps.read.bind fun _ => Keeps.read.bind fun pool => Keeps.read.bind fun _ => ?_
  refine Keeps.read.bind fun _ => Keeps.require.bind fun _ => Keeps.require.bind fun _ => ?_
  exact Keeps.bind (Keeps.when fun _ => Keeps.read) fun _ =>
    (hR.updatePublicPoolInfo _ _).bind fun _ => Keeps.when fun _ => hR.clearLiquidityPool _

theorem mintShares (msg : MsgMintShares) : Keeps R (PerpDex.mintShares authority msg) := by
  refine Keeps.read.bind fun _ => Keeps.read.bind fun pool => Keeps.read.bind fun _ => ?_
  refine Keeps.read.bind fun _ => Keeps.read.bind fun _ => Keeps.require.bind fun _ => ?_
  refine Keeps.read.bind fun _ => Keeps.require.bind fun _ =>
    underRiskGate_keeps (hR.settleAllPositionFunding _) ?_
  refine (hR.credit _ _).bind fun _ => (hR.credit _ _).bind fun _ => ?_
  refine (hR.updatePublicPoolInfo _ _).bind fun _ => Keeps.bind (Keeps.when fun _ => ?_)
    fun _ => Keeps.pure
  exact Keeps.read.bind fun now => hR.upsertPublicPoolShare _ _ _ _ _

theorem burnShares (msg : MsgBurnShares) : Keeps R (PerpDex.burnShares authority msg) :=
  Keeps.read.bind fun _ => Keeps.read.bind fun _ => Keeps.read.bind fun _ =>
    Keeps.read.bind fun _ => hR.burnSharesCore _ _ _ _ _

theorem forceBurnShares (msg : MsgForceBurnShares) :
    Keeps R (PerpDex.forceBurnShares authority msg) :=
  Keeps.read.bind fun _ => Keeps.require.bind fun _ => Keeps.read.bind fun _ =>
    Keeps.require.bind fun _ => Keeps.read.bind fun _ => Keeps.require.bind fun _ =>
      Keeps.read.bind fun _ => hR.burnSharesCore _ _ _ _ _

theorem strategyTransfer (msg : MsgStrategyTransfer) :
    Keeps R (PerpDex.strategyTransfer authority msg) :=
  Keeps.read.bind fun _ => Keeps.read.bind fun _ => Keeps.require.bind fun _ =>
    Keeps.read.bind fun _ => Keeps.read.bind fun _ => hR.updatePublicPoolInfo _ _

end PoolRule

variable [AddressCodec] {authority : String} {s t : State}

/-- **A relation with a rule for pools holds across every message to the account module**, if it does
across those that create accounts or change margin or leverage. -/
theorem AccountStep.ofRule (hR : PoolRule R)
    (hdeposit : ∀ msg i, (PerpDex.deposit msg).run s = .ok i t → R s t)
    (hsub : ∀ master a, (PerpDex.createSubAccount master).run s = .ok a t → R s t)
    (hpool : ∀ msg i, (PerpDex.createPublicPool msg).run s = .ok i t → R s t)
    (hmargin : ∀ msg, (PerpDex.updateMargin msg).run s = .ok () t → R s t)
    (hleverage : ∀ msg, (PerpDex.updateLeverage msg).run s = .ok () t → R s t)
    (h : AccountStep authority s t) : R s t := by
  cases h with
  | deposit msg h => exact hdeposit msg _ h
  | withdraw msg h => exact (hR.withdraw msg).ok h
  | transfer msg h => exact (hR.transfer msg).ok h
  | updateMargin msg h => exact hmargin msg h
  | updateLeverage msg h => exact hleverage msg h
  | createSubAccount msg h =>
    obtain ⟨_, -, h⟩ := run_bind_lift_ok.mp h
    obtain ⟨master, -, h⟩ := run_bind_read_ok.mp h
    obtain ⟨-, h⟩ := run_bind_require_ok.mp h
    obtain ⟨-, h⟩ := run_bind_require_ok.mp h
    obtain ⟨sub, s₁, hcreate, h⟩ := run_bind_ok.mp h
    obtain ⟨-, rfl⟩ := run_pure_ok.mp h
    exact hsub master sub hcreate
  | createPublicPool msg h => exact hpool msg _ h
  | updatePublicPool msg h => exact (hR.updatePublicPool authority msg).ok h
  | mintShares msg h => exact (hR.mintShares authority msg).ok h
  | burnShares msg h => exact (hR.burnShares authority msg).ok h
  | forceBurnShares msg h => exact (hR.forceBurnShares authority msg).ok h
  | strategyTransfer msg h => exact (hR.strategyTransfer authority msg).ok h
  | updateParams msg h => exact (hR.updateParams authority msg).ok h

/-- **A relation that allows moves of funds and settlements of funding holds across every message to
the account module**, if it does across those that change margin or leverage. -/
theorem AccountStep.rule (hfunds : ∀ s t, FundsFrame s t → R s t)
    (hsettle : ∀ a m, Keeps R (settlePositionFunding a m))
    (hmargin : ∀ msg, (PerpDex.updateMargin msg).run s = .ok () t → R s t)
    (hleverage : ∀ msg, (PerpDex.updateLeverage msg).run s = .ok () t → R s t)
    (h : AccountStep authority s t) : R s t := by
  have hframe : ∀ {α : Type} {x : Tx α}, Keeps FundsFrame x → Keeps R x := fun hx => hx.mono hfunds
  have hR : PoolRule R :=
    { aside := fun s t h => hfunds s t (by rw [FundsFrame, h])
      credit := fun i δ => hframe (addCollateral_funds i δ)
      settle := hsettle
      rewrite := fun s a b _ _ => hfunds s _ rfl }
  refine h.ofRule hR (fun msg i h => ?_) (fun master a h => ?_) (fun msg i h => ?_) hmargin hleverage
  · have hkeeps : Keeps R (PerpDex.deposit msg) := by
      refine Keeps.read.bind fun _ => Keeps.read.bind fun asset => Keeps.require.bind fun _ => ?_
      refine Keeps.read.bind fun params => (requireMinAmount_same _ _ _).of_eq.bind fun _ => ?_
      refine (hR.sendCoins _ _ _ _).bind fun _ =>
        (hframe (ensureMasterAccount_funds _)).bind fun acc => ?_
      dsimp only
      cases msg.routeType with
      | perps => exact (hR.credit _ _).bind fun _ => Keeps.pure
      | spot => exact (hR.addAccountAssetBalance _ _ _).bind fun _ => Keeps.pure
    exact hkeeps.ok h
  · have hkeeps : Keeps FundsFrame (PerpDex.createSubAccount master) :=
      Keeps.require.bind fun _ => allocatePoolSubAccountIndex_funds.bind fun _ =>
        (createAccount_funds _).bind fun _ => Keeps.pure
    exact (hframe hkeeps).ok h
  · have hkeeps : Keeps R (PerpDex.createPublicPool msg) := by
      refine Keeps.read.bind fun _ => Keeps.read.bind fun master => Keeps.require.bind fun _ => ?_
      refine Keeps.require.bind fun _ => Keeps.require.bind fun _ =>
        underRiskGate_keeps (hR.settleAllPositionFunding _) ?_
      exact hframe (allocatePoolSubAccountIndex_funds.bind fun _ =>
        (createAccount_funds _).bind fun _ => (addCollateral_funds _ _).bind fun _ => Keeps.pure)
    exact hkeeps.ok h

end Rules

section Steps

variable [AddressCodec]

/-- Trading, a message to the account module, or something that leaves the stores of that module alone,
such as a funding round or a new price. -/
inductive ChainStep (authority : String) (s : State) : State → Prop
  | trading {t : State} (h : TradingStep s t) : ChainStep authority s t
  | account {t : State} (h : AccountStep authority s t) : ChainStep authority s t
  | outside {t : State} (h : t.account = s.account) : ChainStep authority s t

abbrev ChainRun (authority : String) : State → State → Prop :=
  Relation.ReflTransGen (ChainStep authority)

theorem ChainRun.invariant {authority : String} {P : State → Prop} {s t : State}
    (hstep : ∀ s t, P s → ChainStep authority s t → P t) (h : ChainRun authority s t) (hs : P s) :
    P t := by
  induction h with
  | refl => exact hs
  | tail _ hlast ih => exact hstep _ _ ih hlast

end Steps

end PerpDex
