/-
What minting and redeeming do to the value of a pool's shares.

* `Redeemed` — what a redemption that went through has checked, paid and written.

Main results: `pool_nav_not_diluted`, `redemption_affordable_fair`.

To the pool a redemption is a mint of negative amounts, so `Minted` describes both.  All quotients are
rounded towards the pool.
-/
import PerpDex.PoolShares

namespace PerpDex

open Txn Arith

variable {s t : State}
variable {poolIdx : ℕ} {shares : ℤ} {isOperator : Bool} {info : PublicPoolInfo}
  {depositor : Account}

/-! ### Redemptions -/

/-- A redemption of `shares` from a pool that knows `info` about itself and has the risk `rp`: the
shares are worth `value`, `fee` of them go to the operator, and `paid` is paid for the rest. -/
structure Redeemed (poolIdx : ℕ) (depositor : Account) (isOperator : Bool) (shares value fee : ℤ)
    (paid : ℕ) (info : PublicPoolInfo) (rp : RiskParameters) (s t : State) : Prop where
  known : getPoolInfo poolIdx s = .ok info
  risk : computeCrossRisk poolIdx s = .ok rp
  shares_pos : 0 < shares
  supply : 0 < info.totalShares
  solvent : 0 < rp.totalAccountValue
  /-- The shares claim no more than what is left above the initial margin. -/
  cap : shares * rp.totalAccountValue
    ≤ (rp.totalAccountValue - rp.initialMarginRequirement) * info.totalShares
  priced : sharesToUSDCValue poolIdx shares s = .ok value
  value_pos : 0 < value
  worth : value * (info.totalShares * usdcToCollateralMultiplier) ≤ shares * rp.totalAccountValue
  fee_mem : 0 ≤ fee ∧ fee ≤ shares
  charged : isOperator = false → ∃ entry i, findShareEntry depositor poolIdx = some (entry, i) ∧
    shares ≤ entry.shareAmount ∧
    operatorFeeSharesOf poolIdx info entry shares value s = .ok fee
  paid_eq : (paid : ℤ) = (value * (shares - fee)).tdiv shares
  operator : ∃ info', infoAt t poolIdx = some info' ∧
    info'.operatorShares = if isOperator then info.operatorShares - shares
      else info.operatorShares + fee
  /-- A pool that redeems its own shares pays to itself. -/
  moved : Minted poolIdx (if depositor.accountIndex = poolIdx then 0 else -(paid : ℤ))
    (-(shares - fee)) s t

/-! ### The handlers redeem -/

/-- The pool has the collateral and knows the information about itself. -/
def PoolHolds (poolIdx : ℕ) (collateral : ℤ) (info : PublicPoolInfo) (s : State) : Prop :=
  ∃ a, s.account.accounts.get poolIdx = some a ∧ a.collateral = collateral ∧
    a.publicPoolInfo = some info

namespace PoolHolds

variable {poolIdx : ℕ} {collateral : ℤ} {info info' : PublicPoolInfo}

theorem put (h : PoolHolds poolIdx collateral info s) {r : Account} {c : ℤ}
    (hrow : r.accountIndex = poolIdx → r.collateral = c ∧ r.publicPoolInfo = some info')
    (hother : r.accountIndex ≠ poolIdx → c = collateral ∧ info' = info) :
    PoolHolds poolIdx c info' (s.putAccount r) := by
  by_cases hr : r.accountIndex = poolIdx
  · refine ⟨r, ?_, hrow hr⟩
    rw [State.putAccount, Table.get_put, if_pos hr.symm]
  · obtain ⟨rfl, rfl⟩ := hother hr
    obtain ⟨a, ha, hc, hi⟩ := h
    refine ⟨a, ?_, hc, hi⟩
    rw [State.putAccount, Table.get_put, if_neg (Ne.symm hr)]
    exact ha

theorem credit (h : PoolHolds poolIdx collateral info s) {i : ℕ} {a : Account}
    (ha : s.account.accounts.get i = some a) (x : ℤ) :
    PoolHolds poolIdx (collateral + if i = poolIdx then x else 0) info
      (s.putAccount (a.credit x)) := by
  have hi : a.accountIndex = i := Table.key_of_get ha
  refine h.put (fun hpool => ?_) fun hother => ?_
  · obtain rfl : i = poolIdx := hi.symm.trans hpool
    obtain ⟨a', ha', hc, hinfo⟩ := h
    cases ha.symm.trans ha'
    rw [if_pos rfl, ← hc]
    exact ⟨rfl, hinfo⟩
  · rw [if_neg fun heq => hother (hi.trans heq), add_zero]
    exact ⟨rfl, rfl⟩

theorem reshare (h : PoolHolds poolIdx collateral info s) {i : ℕ} {a : Account}
    (ha : s.account.accounts.get i = some a) (l : List PublicPoolShare) :
    PoolHolds poolIdx collateral info (s.putAccount { a with publicPoolShares := l }) := by
  have hi : a.accountIndex = i := Table.key_of_get ha
  refine h.put (fun hpool => ?_) fun _ => ⟨rfl, rfl⟩
  obtain ⟨a', ha', hc, hinfo⟩ := h
  obtain rfl : a = a' := by
    rw [← hi, show a.accountIndex = poolIdx from hpool] at ha
    exact Option.some.inj (ha.symm.trans ha')
  exact ⟨hc, hinfo⟩

end PoolHolds

theorem reducePublicPoolShare_ok {masterIdx : ℕ} {u : Unit}
    (h : (reducePublicPoolShare masterIdx poolIdx shares).run s = .ok u t) :
    ∃ a l, s.account.accounts.get masterIdx = some a ∧
      t = s.putAccount { a with publicPoolShares := l } := by
  obtain ⟨a, ha, h⟩ := run_bind_read_ok.mp h
  obtain ⟨_, -, h⟩ := run_bind_lift_ok.mp h
  exact ⟨a, _, getAccount_eq_ok.mp ha, (EStateM.Result.ok.inj h).2.symm⟩

theorem redeem_writes {s₁ s₂ s₃ : State} {depositorIdx : ℕ}
    {d : ℤ} {mutate : PublicPoolInfo → Except Err PublicPoolInfo}
    {u u₁ u₂ u₃ : Unit} (hinfo : getPoolInfo poolIdx s = .ok info)
    (hupdate : (updatePublicPoolInfo poolIdx mutate).run s = .ok u₁ s₁)
    (hdebit : (addCollateral poolIdx (-d)).run s₁ = .ok u₂ s₂)
    (hcredit : (addCollateral depositorIdx d).run s₂ = .ok u₃ s₃)
    (hreduce : (Txn.when (isOperator = false)
      (reducePublicPoolShare depositorIdx poolIdx shares)).run s₃ = .ok u t) :
    ∃ a info', s.account.accounts.get poolIdx = some a ∧ mutate info = .ok info' ∧
      PoolHolds poolIdx (a.collateral + if depositorIdx = poolIdx then 0 else -d) info' t ∧
      SamePositions poolIdx s t ∧ SameMarks s t := by
  obtain ⟨a, info₀, info', ha, hsome, hmutate, rfl⟩ := updatePublicPoolInfo_ok hupdate
  obtain ⟨a₀, ha₀, hsome₀⟩ := getPoolInfo_eq_ok.mp hinfo
  cases ha.symm.trans ha₀
  cases hsome.symm.trans hsome₀
  obtain ⟨a₁, ha₁, rfl⟩ := addCollateral_ok hdebit
  obtain ⟨a₂, ha₂, rfl⟩ := addCollateral_ok hcredit
  have hkey : a.accountIndex = poolIdx := Table.key_of_get ha
  have hpool : PoolHolds poolIdx a.collateral info'
      (s.putAccount { a with publicPoolInfo := some info' }) :=
    PoolHolds.put ⟨a, ha, rfl, hsome⟩ (fun _ => ⟨rfl, rfl⟩) fun hne => absurd hkey hne
  have hmoved := (hpool.credit ha₁ (-d)).credit ha₂ d
  have hsum : a.collateral + (if poolIdx = poolIdx then -d else 0)
      + (if depositorIdx = poolIdx then d else 0)
      = a.collateral + if depositorIdx = poolIdx then 0 else -d := by
    rw [if_pos rfl]
    split_ifs
    · omega
    · omega
  rw [hsum] at hmoved
  refine ⟨a, info', ha, hmutate, ?_⟩
  rw [run_when] at hreduce
  split at hreduce
  · obtain ⟨r, l, hr, rfl⟩ := reducePublicPoolShare_ok hreduce
    exact ⟨hmoved.reshare hr l, fun m => rfl, rfl, rfl, fun _ => rfl⟩
  · cases hreduce
    exact ⟨hmoved, fun m => rfl, rfl, rfl, fun _ => rfl⟩

theorem availableSharesToBurn_cap {available : ℤ}
    (h : availableSharesToBurn poolIdx s = .ok available) (hpos : 0 < available) :
    ∃ info rp, getPoolInfo poolIdx s = .ok info ∧ computeCrossRisk poolIdx s = .ok rp ∧
      0 < info.totalShares ∧ 0 < rp.totalAccountValue ∧
      available * rp.totalAccountValue
        ≤ (rp.totalAccountValue - rp.initialMarginRequirement) * info.totalShares := by
  obtain ⟨info, hinfo, h'⟩ := except_bind_ok.mp h
  obtain ⟨a, ha, hsome⟩ := getPoolInfo_eq_ok.mp hinfo
  have hi : infoAt s poolIdx = some info := (infoAt_of_get ha).trans hsome
  have htotal := availableSharesToBurn_pos hi h hpos
  split at h'
  · cases h'
    exact absurd hpos (lt_irrefl 0)
  · rename_i hzero
    obtain ⟨tav, htav, h'⟩ := except_bind_ok.mp h'
    obtain ⟨rp, hrp, rfl⟩ := getTotalAccountValue_eq_ok.mp htav
    split at h'
    · cases h'
      exact absurd hpos (lt_irrefl 0)
    · rename_i hsolvent
      obtain ⟨avail, havail, h'⟩ := except_bind_ok.mp h'
      obtain ⟨rp', hrp', hret⟩ := except_bind_ok.mp havail
      cases hrp.symm.trans hrp'
      cases hret
      split at h'
      · cases h'
        exact absurd hpos (lt_irrefl 0)
      · rename_i havailable
        cases h'
        have hsolvent := not_not.mp hsolvent
        exact ⟨info, rp, hinfo, hrp, lt_of_le_of_ne htotal (Ne.symm hzero), hsolvent,
          tdiv_mul_le (mul_nonneg (not_not.mp havailable).le htotal) hsolvent⟩

theorem burnedEntry_charged {value fee : ℤ} {entry : Option PublicPoolShare}
    (h : burnedEntry info poolIdx depositor isOperator shares = .ok entry)
    (hfee : (match entry with
      | some entry => operatorFeeSharesOf poolIdx info entry shares value s
      | none => .ok 0) = .ok fee) (hholder : isOperator = false) :
    ∃ entry i, findShareEntry depositor poolIdx = some (entry, i) ∧ shares ≤ entry.shareAmount ∧
      operatorFeeSharesOf poolIdx info entry shares value s = .ok fee := by
  rw [burnedEntry, if_neg (by rw [hholder]; decide)] at h
  obtain ⟨⟨found, i⟩, hfound, h⟩ := except_bind_ok.mp h
  cases h
  unfold requireShares at hfound
  split at hfound
  · cases hfound
  · rename_i held j hentry
    dsimp only at hfound
    split at hfound
    · cases hfound
    · rename_i henough
      obtain ⟨rfl, rfl⟩ := Prod.mk.inj (Except.ok.inj hfound)
      exact ⟨held, j, hentry, not_lt.mp henough, hfee⟩

theorem burnInfo_ok {frozen : Bool} {burned fee : ℤ} {info' : PublicPoolInfo}
    (h : burnInfo isOperator frozen shares burned fee info = .ok info') :
    info'.totalShares = info.totalShares - burned ∧ info'.operatorShares =
      if isOperator then info.operatorShares - shares else info.operatorShares + fee := by
  rw [burnInfo] at h
  generalize (if isOperator = true then info.operatorShares - shares
    else info.operatorShares + fee) = op at h ⊢
  split at h
  · cases h
  · cases h
    exact ⟨rfl, rfl⟩

theorem burnSharesCore_redeemed {pool : Account} {skipCooldown : Bool} {paid : ℕ}
    (hpool : getPoolAccount poolIdx s = .ok pool)
    (hpos : 0 < shares)
    (h : (burnSharesCore pool depositor isOperator shares skipCooldown).run s = .ok paid t) :
    ∃ value fee info rp,
      Redeemed poolIdx depositor isOperator shares value fee paid info rp s t := by
  obtain ⟨info, hsome, hi⟩ := getPoolAccount_ok hpool
  obtain ⟨-, h⟩ := run_bind_require_ok.mp h
  obtain ⟨available, havailable, h⟩ := run_bind_read_ok.mp h
  obtain ⟨henough, h⟩ := run_bind_require_ok.mp h
  obtain ⟨entry, hentry, h⟩ := run_bind_lift_ok.mp h
  obtain ⟨_, -, h⟩ := run_bind_read_ok.mp h
  obtain ⟨value, hvalue, h⟩ := run_bind_read_ok.mp h
  obtain ⟨hvaluePos, h⟩ := run_bind_require_ok.mp h
  obtain ⟨fee, hfee, h⟩ := run_bind_read_ok.mp h
  obtain ⟨_, s₁, hinfo, h⟩ := run_bind_ok.mp h
  obtain ⟨_, s₂, hdebit, h⟩ := run_bind_ok.mp h
  obtain ⟨_, s₃, hcredit, h⟩ := run_bind_ok.mp h
  obtain ⟨_, s₄, hreduce, h⟩ := run_bind_ok.mp h
  obtain ⟨hword, h⟩ := run_bind_require_ok.mp h
  cases h
  have hidx : pool.accountIndex = poolIdx := by
    obtain ⟨a, ha, hret⟩ := except_bind_ok.mp hpool
    split at hret
    · cases hret
      exact Table.key_of_get (getAccount_eq_ok.mp ha)
    · cases hret
  rw [hsome, Option.getD_some] at hentry hfee hinfo
  rw [hidx] at havailable hentry hvalue hfee hinfo hdebit hreduce hi
  obtain ⟨info₀, rp, hinfo₀, hrp, hsupply, hsolvent, hcap⟩ :=
    availableSharesToBurn_cap havailable (by omega)
  obtain rfl : info₀ = info := by
    obtain ⟨a, ha, hsome₀⟩ := getPoolInfo_eq_ok.mp hinfo₀
    exact Option.some.inj (((infoAt_of_get ha).trans hsome₀).symm.trans hi)
  have hmult : 0 < usdcToCollateralMultiplier := by decide
  -- the price that was asked for is the one of a pool with shares that is worth something
  have hprice := sharesToUSDCValue_eq hinfo₀ (getTotalAccountValue_eq_ok.mpr ⟨rp, hrp, rfl⟩) hpos
    hsupply.ne'
  rw [if_pos hsolvent] at hprice
  have hworth : value * (info₀.totalShares * usdcToCollateralMultiplier)
      ≤ shares * rp.totalAccountValue := by
    rw [Except.ok.inj (hvalue.symm.trans hprice)]
    exact tdiv_mul_le (mul_nonneg hpos.le hsolvent.le) (mul_pos hsupply hmult)
  have hfees : 0 ≤ fee ∧ fee ≤ shares := by
    rcases entry with _ | entry
    · cases hfee
      exact ⟨le_refl 0, hpos.le⟩
    · exact operatorFeeSharesOf_mem hpos.le hsupply.le hfee
  have hpaid : ((((value * (shares - fee)).tdiv shares).toNat : ℕ) : ℤ)
      = (value * (shares - fee)).tdiv shares := Int.toNat_of_nonneg hword.1
  obtain ⟨a, info', ha, hmutate, ⟨a', ha', hcollateral, hinfo'⟩, hpositions, hmarks⟩ :=
    redeem_writes hinfo₀ hinfo hdebit hcredit hreduce
  obtain ⟨htotal, hoperator⟩ := burnInfo_ok hmutate
  refine ⟨value, fee, info₀, rp, ⟨hinfo₀, hrp, hpos, hsupply, hsolvent, ?_, hvalue, hvaluePos, hworth,
    hfees, burnedEntry_charged hentry hfee, hpaid, ⟨info', ?_, hoperator⟩,
    ⟨fun a₁ info₁ ha₁ hsome₁ => ?_, hpositions, hmarks⟩⟩⟩
  · exact (mul_le_mul_of_nonneg_right (not_lt.mp henough) hsolvent.le).trans hcap
  · exact (infoAt_of_get ha').trans hinfo'
  · cases ha.symm.trans ha₁
    obtain ⟨a₂, ha₂, hsome₂⟩ := getPoolInfo_eq_ok.mp hinfo₀
    cases ha.symm.trans ha₂
    cases hsome₂.symm.trans hsome₁
    refine ⟨a', info', ha', ?_, hinfo', by rw [htotal]; ring⟩
    rw [hcollateral, hpaid]
    split_ifs
    · ring
    · ring

section Messages

variable [AddressCodec]

/-- A redemption that went through, by message or forced by the authority, and whether the operator of
the pool redeemed its own shares. -/
inductive Redemption (authority : String) (poolIdx : ℕ) (depositor : Account) (shares : ℤ) (paid : ℕ)
    (s t : State) : Bool → Prop
  | burn {msg : MsgBurnShares} {pool : Account} {isOperator : Bool}
      (hidx : msg.poolAccountIndex = poolIdx) (hshares : msg.shareAmount = shares)
      (hpool : getPoolAccount poolIdx s = .ok pool)
      (hsender : resolveSenderMaster msg.sender s = .ok depositor)
      (hoperator : isPoolOperator authority pool msg.sender s = .ok isOperator)
      (hrun : (burnShares authority msg).run s = .ok paid t) :
      Redemption authority poolIdx depositor shares paid s t isOperator
  | forced {msg : MsgForceBurnShares} (hidx : msg.poolAccountIndex = poolIdx)
      (hshares : msg.shareAmount = shares)
      (hdepositor : getAccount msg.depositorAccountIndex s = .ok depositor)
      (hrun : (forceBurnShares authority msg).run s = .ok paid t) :
      Redemption authority poolIdx depositor shares paid s t false

variable {authority : String} {poolIdx paid : ℕ}

theorem burnShares_redemption {msg : MsgBurnShares}
    (h : (burnShares authority msg).run s = .ok paid t) : ∃ depositor isOperator,
      Redemption authority msg.poolAccountIndex depositor msg.shareAmount paid s t isOperator := by
  obtain ⟨_, -, h'⟩ := run_bind_lift_ok.mp h
  obtain ⟨pool, hpool, h'⟩ := run_bind_read_ok.mp h'
  obtain ⟨depositor, hsender, h'⟩ := run_bind_read_ok.mp h'
  obtain ⟨isOperator, hoperator, -⟩ := run_bind_read_ok.mp h'
  exact ⟨depositor, isOperator, .burn rfl rfl hpool hsender hoperator h⟩

theorem forceBurnShares_redemption {msg : MsgForceBurnShares}
    (h : (forceBurnShares authority msg).run s = .ok paid t) : ∃ depositor,
      Redemption authority msg.poolAccountIndex depositor msg.shareAmount paid s t false := by
  obtain ⟨_, -, h'⟩ := run_bind_lift_ok.mp h
  obtain ⟨-, h'⟩ := run_bind_require_ok.mp h'
  obtain ⟨pool, -, h'⟩ := run_bind_read_ok.mp h'
  obtain ⟨-, h'⟩ := run_bind_require_ok.mp h'
  obtain ⟨params, -, h'⟩ := run_bind_read_ok.mp h'
  obtain ⟨-, h'⟩ := run_bind_require_ok.mp h'
  obtain ⟨depositor, hdepositor, -⟩ := run_bind_read_ok.mp h'
  split at hdepositor
  · rename_i a ha
    cases hdepositor
    exact ⟨_, .forced rfl rfl ha h⟩
  · cases hdepositor

theorem Redemption.redeemed
    (h : Redemption authority poolIdx depositor shares paid s t isOperator) :
    ∃ value fee info rp,
      Redeemed poolIdx depositor isOperator shares value fee paid info rp s t := by
  cases h with
  | burn hidx hshares hpool hsender hoperator hrun =>
    subst hidx hshares
    obtain ⟨_, hvalid, hrun⟩ := run_bind_lift_ok.mp hrun
    obtain ⟨pool', hpool', hrun⟩ := run_bind_read_ok.mp hrun
    cases hpool.symm.trans hpool'
    obtain ⟨depositor', hsender', hrun⟩ := run_bind_read_ok.mp hrun
    cases hsender.symm.trans hsender'
    obtain ⟨isOperator', hoperator', hrun⟩ := run_bind_read_ok.mp hrun
    cases hoperator.symm.trans hoperator'
    exact burnSharesCore_redeemed hpool (validateBurn_pos hvalid) hrun
  | forced hidx hshares hdepositor hrun =>
    subst hidx hshares
    obtain ⟨_, hvalid, hrun⟩ := run_bind_lift_ok.mp hrun
    obtain ⟨-, hrun⟩ := run_bind_require_ok.mp hrun
    obtain ⟨pool, hpool, hrun⟩ := run_bind_read_ok.mp hrun
    obtain ⟨-, hrun⟩ := run_bind_require_ok.mp hrun
    obtain ⟨params, -, hrun⟩ := run_bind_read_ok.mp hrun
    obtain ⟨-, hrun⟩ := run_bind_require_ok.mp hrun
    obtain ⟨depositor', hdepositor', hrun⟩ := run_bind_read_ok.mp hrun
    rw [hdepositor] at hdepositor'
    cases hdepositor'
    exact burnSharesCore_redeemed hpool (validateBurn_pos hvalid) hrun

end Messages

/-! ### The value of a share -/

namespace Redeemed

variable {poolIdx paid : ℕ} {depositor : Account} {isOperator : Bool} {shares value fee : ℤ}
  {info : PublicPoolInfo} {rp : RiskParameters}

theorem paid_mul_le (h : Redeemed poolIdx depositor isOperator shares value fee paid info rp s t) :
    (paid : ℤ) * shares ≤ value * (shares - fee) := by
  rw [h.paid_eq]
  exact tdiv_mul_le (mul_nonneg h.value_pos.le (sub_nonneg.mpr h.fee_mem.2)) h.shares_pos

theorem nav_le (h : Redeemed poolIdx depositor isOperator shares value fee paid info rp s t) :
    ∃ info' tav', getPoolInfo poolIdx t = .ok info' ∧ getTotalAccountValue poolIdx t = .ok tav' ∧
      rp.totalAccountValue * info'.totalShares ≤ tav' * info.totalShares := by
  obtain ⟨info', hinfo', htotal⟩ := h.moved.getPoolInfo h.known
  have htav' := h.moved.getTotalAccountValue h.known (getTotalAccountValue_eq_ok.mpr ⟨rp, h.risk, rfl⟩)
  refine ⟨info', _, hinfo', htav', ?_⟩
  have hmult : 0 ≤ usdcToCollateralMultiplier := by decide
  have hkept := redeem_keeps_price h.shares_pos h.fee_mem.2 (mul_nonneg h.supply.le hmult) h.worth
    h.paid_mul_le
  rw [htotal]
  split
  · -- a pool that pays to itself loses nothing
    have hburned := mul_nonneg h.solvent.le (sub_nonneg.mpr h.fee_mem.2)
    linarith
  · linarith

theorem affordable (h : Redeemed poolIdx depositor isOperator shares value fee paid info rp s t) :
    ∃ rp', computeCrossRisk poolIdx t = .ok rp' ∧
      rp'.initialMarginRequirement ≤ rp'.totalAccountValue := by
  refine ⟨_, h.moved.computeCrossRisk h.known h.risk, ?_⟩
  have hmult : 0 ≤ usdcToCollateralMultiplier := by decide
  have hvalue : (paid : ℤ) ≤ value := by
    have hfee := mul_nonneg h.value_pos.le h.fee_mem.1
    refine le_of_mul_le_mul_right ?_ h.shares_pos
    linarith [h.paid_mul_le]
  have hle := redeem_le_available h.supply hmult h.worth h.cap hvalue
  dsimp only
  split
  · have hpaid : 0 ≤ (paid : ℤ) * usdcToCollateralMultiplier :=
      mul_nonneg (Int.natCast_nonneg _) hmult
    linarith
  · linarith

/-- The part of an entry's principal that the redeemed shares stand for. -/
def principalOf (entry : PublicPoolShare) (shares : ℤ) : ℤ :=
  (entry.principalAmount * shares).tdiv entry.shareAmount

theorem fee_le {entry : PublicPoolShare}
    (h : Redeemed poolIdx depositor isOperator shares value fee paid info rp s t)
    (hfee : operatorFeeSharesOf poolIdx info entry shares value s = .ok fee) :
    (value ≤ principalOf entry shares → fee = 0) ∧
      (principalOf entry shares < value → fee * (feeTick * rp.totalAccountValue)
        ≤ (value - principalOf entry shares) * info.operatorFee * info.totalShares
          * usdcToCollateralMultiplier) := by
  unfold operatorFeeSharesOf at hfee
  dsimp only at hfee
  have hmult : 0 ≤ usdcToCollateralMultiplier := by decide
  split at hfee
  · rename_i hcharged
    refine ⟨fun hle => absurd hcharged.1 (not_lt.mpr hle), fun hprofit => ?_⟩
    obtain ⟨tav, htav, hfee⟩ := except_bind_ok.mp hfee
    obtain ⟨rp', hrp', rfl⟩ := getTotalAccountValue_eq_ok.mp htav
    cases h.risk.symm.trans hrp'
    have heq := Except.ok.inj hfee
    rw [if_pos h.solvent] at heq
    have hpos : 0 < feeTick * rp.totalAccountValue := mul_pos (by decide) h.solvent
    have hnum : 0 ≤ (value - principalOf entry shares) * info.operatorFee * info.totalShares
        * usdcToCollateralMultiplier :=
      mul_nonneg (mul_nonneg (mul_nonneg (sub_nonneg.mpr hprofit.le) (Int.natCast_nonneg _))
        h.supply.le) hmult
    refine le_trans (mul_le_mul_of_nonneg_right ?_ hpos.le) (tdiv_mul_le hnum hpos)
    rw [← heq]
    exact min_le_left _ _
  · cases hfee
    refine ⟨fun _ => rfl, fun hprofit => ?_⟩
    rw [zero_mul]
    exact mul_nonneg (mul_nonneg (mul_nonneg (sub_nonneg.mpr hprofit.le) (Int.natCast_nonneg _))
      h.supply.le) hmult

theorem principal_le {entry : PublicPoolShare}
    (h : Redeemed poolIdx depositor isOperator shares value fee paid info rp s t)
    (hfee : operatorFeeSharesOf poolIdx info entry shares value s = .ok fee)
    (hrate : (info.operatorFee : ℤ) < feeTick) (hprofit : principalOf entry shares < value) :
    principalOf entry shares ≤ paid := by
  rw [h.paid_eq, le_tdiv_iff (mul_nonneg h.value_pos.le (sub_nonneg.mpr h.fee_mem.2)) h.shares_pos]
  exact redeem_ge_principal h.shares_pos h.solvent (by decide) (Int.natCast_nonneg _) hrate.le
    h.value_pos.le hprofit.le h.worth ((h.fee_le hfee).2 hprofit)

end Redeemed

section Results

variable [AddressCodec] {authority : String} {poolIdx : ℕ}

/-- A message of an operator, a holder or the authority that mints or redeems shares of the pool. -/
inductive ShareStep (authority : String) (poolIdx : ℕ) (s t : State) : Prop
  | mint {msg : MsgMintShares} {shares : ℤ} (hidx : msg.poolAccountIndex = poolIdx)
      (hrun : (mintShares authority msg).run s = .ok shares t)
  | burn {msg : MsgBurnShares} {paid : ℕ} (hidx : msg.poolAccountIndex = poolIdx)
      (hrun : (burnShares authority msg).run s = .ok paid t)
  | forceBurn {msg : MsgForceBurnShares} {paid : ℕ} (hidx : msg.poolAccountIndex = poolIdx)
      (hrun : (forceBurnShares authority msg).run s = .ok paid t)

/-- The index of owners leads to masters. -/
def OwnersAreMasters (s : State) : Prop :=
  ∀ owner a, getMasterAccountByOwner owner s = .ok a → a.accountType = .master

omit [AddressCodec] in
theorem Indexed.ownersAreMasters (h : Indexed s) : OwnersAreMasters s := by
  intro owner a ha
  rw [getMasterAccountByOwner] at ha
  split at ha
  · rename_i idx hidx
    obtain ⟨a', ha', hentry⟩ := (h.owners.exact owner idx).mp hidx
    obtain ⟨hmaster, -, rfl⟩ := ownerEntry_eq_some.mp hentry
    cases ha'.symm.trans (getAccount_eq_ok.mp ha)
    simp only [Account.isOwnedMaster, Bool.and_eq_true, decide_eq_true_eq] at hmaster
    exact hmaster.1
  · cases ha

omit [AddressCodec] in
theorem OwnersAreMasters.ne_pool (howners : OwnersAreMasters s) {sender : String} {master pool : Account}
    (hmaster : getMasterAccountByOwner sender s = .ok master)
    (hpool : getPoolAccount poolIdx s = .ok pool) : master.accountIndex ≠ poolIdx := by
  intro hsame
  have hkind := howners sender master hmaster
  rw [getMasterAccountByOwner] at hmaster
  split at hmaster
  · have hget := getAccount_eq_ok.mp hmaster
    rw [← Table.key_of_get hget, hsame] at hget
    obtain ⟨a, ha, hret⟩ := except_bind_ok.mp hpool
    cases (getAccount_eq_ok.mp ha).symm.trans hget
    split at hret
    · rename_i htype
      simp [Account.isPoolAccount, Account.isPoolType, hkind] at htype
    · cases hret
  · cases hmaster

theorem mintShares_nav_le {msg : MsgMintShares} {tav : ℤ}
    (howners : OwnersAreMasters s) (hinfo : getPoolInfo msg.poolAccountIndex s = .ok info)
    (hT : 0 < info.totalShares) (htav : getTotalAccountValue msg.poolAccountIndex s = .ok tav)
    (hrun : (mintShares authority msg).run s = .ok shares t) :
    ∃ info' tav', getPoolInfo msg.poolAccountIndex t = .ok info' ∧
      getTotalAccountValue msg.poolAccountIndex t = .ok tav' ∧
      tav * info'.totalShares ≤ tav' * info.totalShares := by
  have hne : ∀ master, getMasterAccountByOwner msg.sender s = .ok master →
      master.accountIndex ≠ msg.poolAccountIndex := by
    intro master hmaster
    obtain ⟨_, -, h⟩ := run_bind_lift_ok.mp hrun
    obtain ⟨pool, hpool, -⟩ := run_bind_read_ok.mp h
    exact howners.ne_pool hmaster hpool
  obtain ⟨hshares, hpos, hminted⟩ := mintShares_minted hne hrun
  obtain ⟨info', hinfo', htotal⟩ := hminted.getPoolInfo hinfo
  refine ⟨info', _, hinfo', hminted.getTotalAccountValue hinfo htav, ?_⟩
  obtain ⟨husdc, hzero | ⟨-, htavPos, rfl⟩⟩ := usdcValueToShares_ok hinfo htav hshares hpos
  · omega
  · rw [htotal]
    exact mint_keeps_price hT.le htavPos (by decide) husdc.le

/-- **Redemptions are affordable and fair.**  What is left of the pool covers its initial margin.  A
holder gives the operator no more than the redeemed shares, nothing if they are worth no more than what
was deposited for them, and is otherwise paid at least that. -/
theorem redemption_affordable_fair {depositor : Account} {shares : ℤ} {paid : ℕ} {isOperator : Bool}
    (h : Redemption authority poolIdx depositor shares paid s t isOperator) :
    (∃ rp', computeCrossRisk poolIdx t = .ok rp' ∧
      rp'.initialMarginRequirement ≤ rp'.totalAccountValue) ∧
    (isOperator = false → ∀ info, infoAt s poolIdx = some info → (info.operatorFee : ℤ) < feeTick →
      ∃ entry i value info', findShareEntry depositor poolIdx = some (entry, i) ∧
        sharesToUSDCValue poolIdx shares s = .ok value ∧ infoAt t poolIdx = some info' ∧
        (let principal := (entry.principalAmount * shares).tdiv entry.shareAmount
         let feeShares := info'.operatorShares - info.operatorShares
         0 ≤ feeShares ∧ feeShares ≤ shares ∧ (value ≤ principal → feeShares = 0) ∧
          (principal < value → principal ≤ paid))) := by
  obtain ⟨value, fee, info₀, rp, hr⟩ := h.redeemed
  refine ⟨hr.affordable, fun hholder info hinfo hrate => ?_⟩
  obtain rfl : info₀ = info := by
    obtain ⟨a, ha, hsome⟩ := getPoolInfo_eq_ok.mp hr.known
    exact Option.some.inj (((infoAt_of_get ha).trans hsome).symm.trans hinfo)
  obtain ⟨entry, i, hentry, -, hfee⟩ := hr.charged hholder
  obtain ⟨info', hinfo', hoperator⟩ := hr.operator
  refine ⟨entry, i, value, info', hentry, hr.priced, hinfo', ?_⟩
  have hmoved : info'.operatorShares - info₀.operatorShares = fee := by
    rw [hoperator, hholder, if_neg Bool.false_ne_true]
    ring
  dsimp only
  rw [hmoved]
  exact ⟨hr.fee_mem.1, hr.fee_mem.2, (hr.fee_le hfee).1, hr.principal_le hfee hrate⟩

/-- A fund with 5000 shares of two units each, of which a user holds a fifth, bought for one unit
each. -/
def fundAndHolder : State where
  account := {
    accounts := Table.ofRows [{ accountIndex := 0 },
      { accountIndex := 1, accountType := .insuranceFund, collateral := 10 ^ 10,
        publicPoolInfo := some {
          totalShares := 5000, operatorShares := 4000, operatorFee := 100000 } },
      { accountIndex := 2, ownerAddress := "alice", publicPoolShares := [{
          publicPoolIndex := 1, shareAmount := 1000, principalAmount := 1000
          entryTimestamp := 0 }] }]
    ownerToIndex := KVStore.empty.set "alice" 2 }

omit [AddressCodec] in
/-- All of them are redeemed: 50 shares are the fee on a profit of 1000, and 1900 units are paid. -/
theorem redemption_affordable_fair_profit :
    let _ := AddressCodec.acceptAll
    let t := after (forceBurnShares "gov" ⟨"gov", 1, 2, 1000⟩) fundAndHolder
    (∃ rp', computeCrossRisk 1 t = .ok rp' ∧
      rp'.initialMarginRequirement ≤ rp'.totalAccountValue) ∧
    ∃ info' paid, infoAt t 1 = some info' ∧ info'.operatorShares - 4000 ≤ 1000 ∧
      value (forceBurnShares "gov" ⟨"gov", 1, 2, 1000⟩) fundAndHolder = some paid ∧
      (1000 : ℤ) ≤ paid := by
  intro _ t
  have hpaid : value (forceBurnShares "gov" ⟨"gov", 1, 2, 1000⟩) fundAndHolder = some 1900 := by
    decide +kernel
  have hrun := run_of_value hpaid
  obtain ⟨a, ha⟩ : ∃ a, getAccount 2 fundAndHolder = .ok a := ⟨_, rfl⟩
  obtain ⟨hafford, hfair⟩ := redemption_affordable_fair (.forced rfl rfl ha hrun)
  obtain ⟨entry, i, value, info', hentry, hvalue, hinfo', -, hle, -, hprincipal⟩ :=
    hfair rfl _ rfl (by decide)
  refine ⟨hafford, info', 1900, hinfo', hle, hpaid, ?_⟩
  obtain rfl : a = _ := (Except.ok.inj ha).symm
  cases hentry
  have hworth : sharesToUSDCValue 1 1000 fundAndHolder = .ok 2000 := by decide +kernel
  cases hvalue.symm.trans hworth
  exact hprincipal (by decide)

end Results

end PerpDex
