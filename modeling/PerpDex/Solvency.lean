/-
What the risk gate guarantees to an account that takes collateral out.

Main result: `debit_solvent_iff`.

The gate compares coverage ratios of an account that is not healthy, and accepts when there is no
requirement to compare with.
-/
import PerpDex.AccountMsgs
import PerpDex.Liquidation

namespace PerpDex

section Debits

variable {s t : State} {acc : ℕ} {settle : Tx Unit}

/-! ### Debits behind the gate -/

/-- The move lowers the collateral of `acc`, and margin it gives to a position of `acc` goes to
an isolated one. -/
def Debits (acc : ℕ) (move : Tx Unit) : Prop :=
  ∀ s₁ s₂ v, move.run s₁ = .ok v s₂ → ∃ m c al, MarginMove m c al s₁ s₂ ∧ c acc < 0 ∧
    (al acc ≠ 0 → (getPosition s₁ acc m).marginMode = .isolated)

theorem debits_addCollateral {delta : ℤ} (h : 0 < delta) :
    Debits acc (addCollateral acc (-delta)) := by
  intro s₁ s₂ v hrun
  obtain ⟨hmove, -⟩ := MarginMove.of_addCollateral 0 hrun
  exact ⟨0, _, _, hmove, by simpa using h, fun h0 => absurd rfl h0⟩

theorem debits_transfer {dst : ℕ} {delta : ℤ} (hne : acc ≠ dst) (h : 0 < delta) :
    Debits acc (do addCollateral acc (-delta); addCollateral dst delta) := by
  intro s₁ s₂ v hrun
  obtain ⟨w, s', hfrom, hto⟩ := Txn.run_bind_ok.mp hrun
  obtain ⟨hmove, -⟩ := MarginMove.of_addCollateral 0 hfrom
  obtain ⟨hmove', -⟩ := MarginMove.of_addCollateral 0 hto
  refine ⟨0, _, _, hmove.trans hmove', ?_, fun h0 => absurd rfl h0⟩
  rw [Pi.add_apply, Pi.single_eq_same, Pi.single_eq_of_ne hne]
  omega

theorem debits_moveMargin {msg : MsgUpdateMargin} (haction : msg.action = .addMargin)
    (hpos : 0 < msg.amount) : Debits msg.accountIndex (moveMargin msg) := by
  intro s₁ s₂ v hrun
  obtain ⟨x, hmove, hx, hiso⟩ := moveMargin_ok hrun
  rw [if_pos haction] at hx
  refine ⟨_, _, _, hmove, ?_, fun _ => hiso⟩
  rw [Pi.single_eq_same]
  omega

theorem sendCoins_ok {src dst denom : String} {amount : ℕ} {u : Unit}
    (h : (sendCoins src dst denom amount).run s = .ok u t) : ∃ bank, t = { s with bank := bank } := by
  simp only [sendCoins, setBankBalance, Txn.run_bind_ok, Txn.run_read_ok, Txn.run_require_ok,
    Txn.run_write] at h
  obtain ⟨_, _, ⟨-, rfl⟩, _, _, ⟨-, rfl⟩, _, _, hsrc, _, _, ⟨-, rfl⟩, hdst⟩ := h
  cases hsrc
  cases hdst
  exact ⟨_, rfl⟩

theorem enabledAsset_ok {i : ℕ} {asset : Asset} (h : enabledAsset i s = .ok asset) :
    s.assets.get i = some asset := by
  unfold enabledAsset getAsset at h
  cases hget : s.assets.get i with
  | none =>
    rw [hget] at h
    simp [bind, Except.bind] at h
  | some a =>
    rw [hget] at h
    simp only [bind, Except.bind] at h
    split at h
    · rw [Except.ok.inj h]
    · cases h

theorem Asset.delta_pos (asset : Asset) {amount : ℕ} (h : amount ≠ 0) :
    (0 : ℤ) < amount * asset.extensionMultiplier := by
  have hpos := asset.extensionMultiplier_pos
  positivity

theorem requireMinAmount_ok {amount assetMin paramMin : ℕ} {u : Unit}
    (h : (requireMinAmount amount assetMin paramMin).run s = .ok u t) : t = s :=
  (Txn.run_require_ok.mp h).2

/-! ### The messages -/

variable [AddressCodec]

/-- A message that took collateral from account `acc`, after its funding was settled by
`settle`. -/
inductive CollateralDebit (acc : ℕ) (s t : State) : Tx Unit → Prop
  | withdraw (msg : MsgWithdraw) (hacc : msg.accountIndex = acc) (hroute : msg.routeType = .perps)
      (h : (withdraw msg).run s = .ok () t) :
      CollateralDebit acc s t (settleAllPositionFunding acc)
  | transfer (msg : MsgTransfer) (hacc : msg.fromAccountIndex = acc) (asset : Asset)
      (hasset : s.assets.get msg.assetIndex = some asset) (hmargin : asset.marginEnabled = true)
      (h : (transfer msg).run s = .ok () t) :
      CollateralDebit acc s t (settleAllPositionFunding acc)
  | addMargin (msg : MsgUpdateMargin) (hacc : msg.accountIndex = acc)
      (haction : msg.action = .addMargin) (h : (updateMargin msg).run s = .ok () t) :
      CollateralDebit acc s t (settlePositionFunding acc msg.marketIndex)

theorem MsgWithdraw.validateBasic_ok {msg : MsgWithdraw} {u : Unit}
    (h : msg.validateBasic = .ok u) : msg.amount ≠ 0 := by
  simp only [MsgWithdraw.validateBasic, Txn.except_bind_ok] at h
  obtain ⟨_, -, _, -, h⟩ := h
  intro h0
  rw [if_pos h0] at h
  cases h

theorem MsgTransfer.validateBasic_ok {msg : MsgTransfer} {u : Unit}
    (h : msg.validateBasic = .ok u) :
    msg.amount ≠ 0 ∧ msg.fromAccountIndex ≠ msg.toAccountIndex := by
  simp only [MsgTransfer.validateBasic, Txn.except_bind_ok] at h
  obtain ⟨_, -, h⟩ := h
  split at h
  · cases h
  · rename_i hamount
    split at h
    · cases h
    · exact ⟨hamount, ‹_›⟩

theorem MsgUpdateMargin.validateBasic_ok {msg : MsgUpdateMargin} {u : Unit}
    (h : msg.validateBasic = .ok u) : 0 < msg.amount := by
  simp only [MsgUpdateMargin.validateBasic, Txn.except_bind_ok] at h
  obtain ⟨_, -, h⟩ := h
  by_contra hneg
  rw [if_pos hneg] at h
  cases h

/-- **Every one of the three messages is a debit behind the risk gate**, up to the coins a
withdrawal pays out. -/
theorem CollateralDebit.gate (h : CollateralDebit acc s t settle) :
    ∃ move t' bank, Debits acc move ∧ (underRiskGate acc settle move).run s = .ok () t' ∧
      t = { t' with bank := bank } := by
  cases h with
  | withdraw msg hacc hroute h =>
    subst hacc
    simp only [PerpDex.withdraw, Txn.run_bind_ok, Txn.run_lift_ok, Txn.run_read_ok, hroute] at h
    obtain ⟨_, _, ⟨hbasic, rfl⟩, _, s₁, howner, asset, _, ⟨-, rfl⟩, _, _, ⟨-, rfl⟩, _, s₂, hmin,
      _, s₃, hmargin, _, s₄, hgate, hsend⟩ := h
    obtain rfl := requireOwner_ok howner
    obtain rfl := requireMinAmount_ok hmin
    obtain ⟨-, rfl⟩ := Txn.run_require_ok.mp hmargin
    obtain ⟨bank, rfl⟩ := sendCoins_ok hsend
    exact ⟨_, _, bank, debits_addCollateral (asset.delta_pos (MsgWithdraw.validateBasic_ok hbasic)),
      hgate, rfl⟩
  | transfer msg hacc asset hasset hmargin h =>
    subst hacc
    simp only [PerpDex.transfer, Txn.run_bind_ok, Txn.run_lift_ok, Txn.run_read_ok] at h
    obtain ⟨_, _, ⟨hbasic, rfl⟩, _, s₁, howner, _, _, ⟨-, rfl⟩, asset', _, ⟨hasset', rfl⟩, _, _,
      ⟨-, rfl⟩, _, s₂, hmin, hgate⟩ := h
    obtain rfl := requireOwner_ok howner
    obtain rfl := requireMinAmount_ok hmin
    cases hasset.symm.trans (enabledAsset_ok hasset')
    obtain ⟨hamount, hne⟩ := MsgTransfer.validateBasic_ok hbasic
    rw [if_pos hmargin] at hgate
    exact ⟨_, t, t.bank, debits_transfer hne (asset.delta_pos hamount), hgate, rfl⟩
  | addMargin msg hacc haction h =>
    subst hacc
    simp only [updateMargin, Txn.run_bind_ok, Txn.run_lift_ok] at h
    obtain ⟨_, _, ⟨hbasic, rfl⟩, _, s₁, howner, hgate⟩ := h
    obtain rfl := requireOwner_ok howner
    exact ⟨_, t, t.bank, debits_moveMargin haction (MsgUpdateMargin.validateBasic_ok hbasic),
      hgate, rfl⟩

/-- **Solvency after a debit.**  An account that took collateral out has a non-negative cross
account value afterwards, and is not bankrupt in its cross envelope, exactly when it did not
have, with its funding settled, a negative value and no initial margin requirement. -/
theorem debit_solvent_iff (h : CollateralDebit acc s t settle) :
    ∃ rp rp', computeCrossRisk acc (Txn.after settle s) = .ok rp ∧
      computeCrossRisk acc t = .ok rp' ∧
      (0 ≤ rp'.totalAccountValue ∧ rp'.healthStatus ≠ .bankruptcy ↔
        ¬ (rp.totalAccountValue < 0 ∧ rp.initialMarginRequirement = 0)) := by
  obtain ⟨move, t', bank, hmove, hgate, rfl⟩ := h.gate
  obtain ⟨rp, rp', hpre, hpost, hiff⟩ := underRiskGate_debit hmove hgate
  refine ⟨rp, rp', hpre, hpost, ?_⟩
  have hclass : rp'.healthStatus ≠ .bankruptcy ↔ 0 ≤ rp'.totalAccountValue := by
    unfold RiskParameters.healthStatus
    split_ifs <;> simp <;> omega
  rw [hclass, and_self]
  exact hiff

end Debits

/-- A user who is long in a market that expires now, against the insurance fund. -/
def expiringLong (collateral : ℤ) : State where
  now := 2000
  account := {
    accounts := Table.ofRows [{ accountIndex := 0 },
      { accountIndex := 1, accountType := .insuranceFund, collateral := 10 ^ 9,
        publicPoolInfo := some {} },
      { accountIndex := 2, ownerAddress := "alice", collateral := collateral }]
    accountPositions := Table.ofRows [
      { accountIndex := 1, marketIndex := 0, baseSize := -100, entryQuote := -10000 },
      { accountIndex := 2, marketIndex := 0, baseSize := 100, entryQuote := 10000 }] }
  assets := Table.ofRows [{
    assetIndex := 3, denom := "uusdc", extensionMultiplier := 1000000, marginEnabled := true,
    extensionMultiplier_pos := by decide }]
  bank := KVStore.empty.set (toLex (accountModuleName, "uusdc")) (10 ^ 9)
  market := {
    markets := Table.ofRows [{ marketIndex := 0, expiryTimestamp := 1000 }]
    marketDetails := Table.ofRows [{
      marketIndex := 0, markPrice := 120, openInterest := 100, defaultInitialMarginFraction := 1000,
      minInitialMarginFraction := 500, maintenanceMarginFraction := 400,
      closeOutMarginFraction := 200 }]
    expiryIndex := KVStore.empty.set (toLex (1000, 0)) ()
    params := { maxMarketsExpiredPerBlock := 1 } }

def aliceWithdraws : MsgWithdraw where
  sender := "alice"
  accountIndex := 2
  assetIndex := 3
  amount := 10000000
  routeType := .perps

theorem debit_solvent_iff_open_position :
    let _ := AddressCodec.acceptAll
    let s := expiringLong (2 * 10 ^ 13)
    let t := Txn.after (withdraw aliceWithdraws) s
    ∃ rp rp', computeCrossRisk 2 (Txn.after (settleAllPositionFunding 2) s) = .ok rp ∧
      computeCrossRisk 2 t = .ok rp' ∧
      (0 ≤ rp'.totalAccountValue ∧ rp'.healthStatus ≠ .bankruptcy ↔
        ¬ (rp.totalAccountValue < 0 ∧ rp.initialMarginRequirement = 0)) := by
  intro _ s t
  exact debit_solvent_iff (CollateralDebit.withdraw aliceWithdraws rfl rfl
    (Txn.run_of_succeeds (by decide +kernel)))

/-- The user's position is closed at a loss larger than the collateral when the market expires.  The
user, now 1500 in debt, takes ten million units out. -/
theorem bankrupt_account_withdraws :
    let _ := AddressCodec.acceptAll
    let s := Txn.after marketEndBlocker (expiringLong 500)
    let t := Txn.after (withdraw aliceWithdraws) s
    Txn.succeeds marketEndBlocker (expiringLong 500) = true ∧
      (getPosition s 2 0).baseSize = 0 ∧ getTotalAccountValue 2 s = .ok (-1500) ∧
      Txn.succeeds (withdraw aliceWithdraws) s = true ∧
      getTotalAccountValue 2 t = .ok (-10000000001500) := by
  decide +kernel

end PerpDex
